import Mathlib.Data.Rat.Floor
import Estoc.Dasl.Cid
import Estoc.EventStore.Jcs

/-!
# The event

The event, its identity, time and order. An envelope's fields are what a checked value
holds under their names; an event is an envelope with the CID its canonical bytes hash
to. Three functions validate what comes in: a draft, an envelope, an event.
-/

set_option linter.unusedSectionVars false

namespace Estoc.EventStore

open Json (lit)
open Utf16 (JsString)
open Checked (refuse)
open Estoc.Dasl (DaslCid codecOf RAW_CODE SHA256_CODE DIGEST_LENGTH CID_LENGTH)

/-! ## Identity -/

/-- A text of as many units as there are classes, each of its class. -/
def fits : List (UInt16 → Bool) → JsString → Bool
  | [], [] => true
  | c :: cs, u :: us => c u && fits cs us
  | _, _ => false

def isHexLower (u : UInt16) : Bool := Json.isDigit u || (0x61 ≤ u.toNat && u.toNat ≤ 0x66)

/-- The variant's digit: 8, 9, a or b. -/
def isVariant (u : UInt16) : Bool := u == 0x38 || u == 0x39 || u == 0x61 || u == 0x62

/-- A canonical lowercase UUIDv7: version 7, variant 10. -/
def UUIDV7 : List (UInt16 → Bool) :=
  List.replicate 8 isHexLower ++ (· == 0x2D) :: List.replicate 4 isHexLower ++
    (· == 0x2D) :: (· == 0x37) :: List.replicate 3 isHexLower ++
    (· == 0x2D) :: isVariant :: List.replicate 3 isHexLower ++
    (· == 0x2D) :: List.replicate 12 isHexLower

def isUuidv7 (value : JsString) : Bool := fits UUIDV7 value

def isAuthorId (value : JsString) : Bool := isUuidv7 value

/-- A canonical raw DASL CID string. -/
def isRawCid (value : JsString) : Bool := codecOf value == some RAW_CODE

def isEventCid (value : JsString) : Bool := isRawCid value

/-- The raw CID of a digest. -/
def rawCidFromDigest (digest : Digest) : DaslCid :=
  ⟨[1, RAW_CODE, SHA256_CODE, UInt8.ofNat DIGEST_LENGTH] ++ digest.bytes, by
    simp [digest.length, CID_LENGTH], rfl, .inl rfl, rfl, rfl⟩

/-! ## Time -/

/-- `YYYY-MM-DDTHH:mm:ss.sssZ`. -/
def AT : List (UInt16 → Bool) :=
  List.replicate 4 Json.isDigit ++ (· == 0x2D) :: List.replicate 2 Json.isDigit ++
    (· == 0x2D) :: List.replicate 2 Json.isDigit ++ (· == 0x54) :: List.replicate 2 Json.isDigit ++
    (· == 0x3A) :: List.replicate 2 Json.isDigit ++ (· == 0x3A) :: List.replicate 2 Json.isDigit ++
    (· == 0x2E) :: List.replicate 3 Json.isDigit ++ [(· == 0x5A)]

/-- The days from 1970 to the first of a year. -/
def dayFromYear (y : Int) : Int :=
  365 * (y - 1970) + (y - 1969) / 4 - (y - 1901) / 100 + (y - 1601) / 400

def isLeapYear (y : Int) : Bool := y % 4 == 0 && (y % 100 != 0 || y % 400 == 0)

def monthLengths (y : Int) : List Int :=
  [31, if isLeapYear y then 29 else 28, 31, 30, 31, 30, 31, 31, 30, 31, 30, 31]

def msPerDay : Int := 86400000

/-- The number some digits write. -/
def digitsValue (s : JsString) : Int :=
  s.foldl (fun n u => n * 10 + ((u.toNat : Int) - 0x30)) 0

/-- `Date.parse` of a text of the form `AT`: none where a field is out of bounds. -/
def dateParse (s : JsString) : Option Int :=
  let field (start length : Nat) := digitsValue ((s.drop start).take length)
  let y := field 0 4
  let month := field 5 2
  let d := field 8 2
  let h := field 11 2
  let min := field 14 2
  let sec := field 17 2
  let ms := field 20 3
  let days := (monthLengths y).take (month - 1).toNat
  if month < 1 ∨ 12 < month ∨ d < 1 ∨ (monthLengths y).getD (month - 1).toNat 0 < d ∨ 59 < min ∨
      59 < sec ∨ 24 < h ∨ (h = 24 ∧ (min ≠ 0 ∨ sec ≠ 0 ∨ ms ≠ 0)) then none
  else some ((dayFromYear y + days.sum + (d - 1)) * msPerDay + h * 3600000 + min * 60000 +
    sec * 1000 + ms)

/-- A number in at least so many digits. -/
def padded (width : Nat) (n : Nat) : JsString :=
  let digits := decimal n
  List.replicate (width - digits.length) Json.zeroDigit ++ digits

/-- The month of a day in its year, from 1, and the day of the month, from 1. -/
def monthAndDay : List Int → (dayInYear : Int) → Int × Int
  | [], d => (1, d + 1)
  | length :: rest, d =>
    if d < length then (1, d + 1)
    else
      let (month, day) := monthAndDay rest (d - length)
      (month + 1, day)

/-- The year a day is in. -/
def yearOfDay (day : Int) : Int :=
  let y := day * 400 / 146097 + 1970
  if dayFromYear (y + 1) ≤ day then y + 1 else if day < dayFromYear y then y - 1 else y

/-- `new Date(t).toISOString()`. -/
def toISOString (t : Int) : JsString :=
  let day := t / msPerDay
  let ms := (t % msPerDay).toNat
  let y := yearOfDay day
  let (month, d) := monthAndDay (monthLengths y) (day - dayFromYear y)
  let year := if 0 ≤ y ∧ y ≤ 9999 then padded 4 y.toNat
    else (if y < 0 then lit "-" else lit "+") ++ padded 6 y.natAbs
  year ++ lit "-" ++ padded 2 month.toNat ++ lit "-" ++ padded 2 d.toNat ++ lit "T" ++
    padded 2 (ms / 3600000) ++ lit ":" ++ padded 2 (ms / 60000 % 60) ++ lit ":" ++
    padded 2 (ms / 1000 % 60) ++ lit "." ++ padded 3 (ms % 1000) ++ lit "Z"

/-- Exactly `YYYY-MM-DDTHH:mm:ss.sssZ` naming a real instant: one instant has one
spelling. -/
def isCanonicalAt (value : JsString) : Bool :=
  fits AT value && (dateParse value).any fun t => toISOString t == value

/-- The last millisecond `atOf` can spell. -/
def MAX_T : Int := 253402300799999

/-- The canonical `at` of a millisecond; `t` is none where the clock read no finite
number. -/
def atOf (t : Option Int) : Except JsError JsString :=
  match t with
  | none => throw (.rangeError (lit "NaN is not an integer millisecond between 1970 and 9999"))
  | some t => do
    refuse (t < 0 ∨ MAX_T < t) (.rangeError (lit (toString t) ++
      lit " is not an integer millisecond between 1970 and 9999"))
    pure (toISOString t)

/-- One reading of the wall clock, in milliseconds, truncated. -/
def sampleAt (now : Option Rat) : Except JsError JsString := atOf (now.map Rat.floor)

/-! ## The envelope -/

/-- The five fields that are hashed. -/
structure EventEnvelope where
  at_ : JsString
  author : JsString
  type : JsString
  roots : List JsString
  data : Json

/-- The envelope with the CID its canonical bytes hash to. -/
structure Event extends EventEnvelope where
  cid : JsString

/-- What a caller hands to `append`, normalized. -/
structure Draft where
  type : JsString
  roots : List JsString
  data : Json

def AT_FIELD : JsString := lit "at"
def AUTHOR : JsString := lit "author"
def TYPE : JsString := lit "type"
def ROOTS : JsString := lit "roots"
def DATA : JsString := lit "data"
def CID : JsString := lit "cid"

def ENVELOPE_FIELDS : List JsString := [AT_FIELD, AUTHOR, TYPE, ROOTS, DATA]
def EVENT_FIELDS : List JsString := ENVELOPE_FIELDS ++ [CID]
/-- What the store supplies. -/
def SUPPLIED : List JsString := [CID, AT_FIELD, AUTHOR]

def jsonStr (s : JsString) : Json := .scalar (.string s)

/-- The member of a name. -/
def member? (value : Json) (name : JsString) : Option Json :=
  match value with
  | .object members => members.lookup name
  | _ => none

def asString : Option Json → JsString
  | some (.scalar (.string s)) => s
  | _ => []

def asStrings : Option Json → List JsString
  | some (.array items) => items.map fun v => asString (some v)
  | _ => []

/-- A value read as an envelope, as a cast reads it: nothing is checked. -/
def asEnvelope (value : Json) : EventEnvelope where
  at_ := asString (member? value AT_FIELD)
  author := asString (member? value AUTHOR)
  type := asString (member? value TYPE)
  roots := asStrings (member? value ROOTS)
  data := (member? value DATA).getD (.scalar .null)

def asDraft (value : Json) : Draft where
  type := asString (member? value TYPE)
  roots := asStrings (member? value ROOTS)
  data := (member? value DATA).getD (.scalar .null)

/-- The five envelope fields in canonical member order: what is hashed. -/
def envelopeOf (event : EventEnvelope) : Json :=
  .object [(AT_FIELD, jsonStr event.at_), (AUTHOR, jsonStr event.author), (DATA, event.data),
    (ROOTS, .array (event.roots.map jsonStr)), (TYPE, jsonStr event.type)]

/-- Some names in a message. -/
def quoted (names : List JsString) : JsString :=
  (lit ", ").intercalate (names.map JsValue.quote)

/-- Every field is there. -/
def present (members : List (JsString × JsValue)) (fields : List JsString) : Except JsError Unit :=
  match fields.find? fun field => !JsValue.hasOwn members field with
  | some field => throw (.invalidEvent (lit "missing " ++ field))
  | none => pure ()

def exactly (members : List (JsString × JsValue)) (fields : List JsString) :
    Except JsError Unit := do
  present members fields
  refuse (members.length ≠ fields.length) (.invalidEvent (lit "unknown top-level field " ++
    quoted ((members.map Prod.fst).filter (· ∉ fields))))

/-- The string a value is, where it is one that is accepted. -/
def checkedString (accept : JsString → Bool) (value : JsValue) (message : JsString) :
    Except JsError JsString :=
  match value.string? with
  | some s => if accept s then pure s else throw (.invalidEvent message)
  | none => throw (.invalidEvent message)

def checkType (type : JsValue) : Except JsError JsString :=
  checkedString (fun s => s != []) type (lit "type is not a non-empty string")

def plain (value : JsValue) : Except JsError Json :=
  match plainJson value with
  | .error (.invalidJson m) => throw (.invalidEvent (lit "not I-JSON: " ++ m))
  | result => result

/-- The members of a plain object. -/
def objectMembers (value : JsValue) (message : JsString) :
    Except JsError (List (JsString × JsValue)) :=
  match value with
  | .object members => pure members
  | _ => throw (.invalidEvent message)

section
variable (P : Packages)

/-- The elements of `roots` from the first on, each checked. -/
def checkedElements : List JsValue → Except JsError (List JsString)
  | [] => pure []
  | root :: rest => do
    let shown ← shownUnless root
    let cid ← checkedString isRawCid root
      (lit "roots: " ++ shown ++ lit " is not a canonical raw DASL CID")
    let cids ← checkedElements rest
    pure (cid :: cids)
where
  /-- The element in a message; what is a CID is in none. -/
  shownUnless (root : JsValue) : Except JsError JsString :=
    if root.string?.any isRawCid then pure [] else JsValue.shown P.numbers root

def checkedRoots (roots : JsValue) : Except JsError (List JsString) :=
  match roots with
  | .array elements => checkedElements P elements
  | _ => throw (.invalidEvent (lit "roots is not an array"))

def checkedEnvelope (value : List (JsString × JsValue)) : Except JsError EventEnvelope := do
  let at_ ← checkedString isCanonicalAt (JsValue.get value AT_FIELD)
    (lit "at is not a canonical RFC 3339 UTC millisecond")
  let author ← checkedString isAuthorId (JsValue.get value AUTHOR)
    (lit "author is not a canonical UUIDv7")
  let type ← checkType (JsValue.get value TYPE)
  let roots ← checkedRoots P (JsValue.get value ROOTS)
  let data ← objectMembers (JsValue.get value DATA) (lit "data is not a JSON object")
  let envelope ← plain (.object [(AT_FIELD, .str at_), (AUTHOR, .str author), (DATA, .object data),
    (ROOTS, .array (roots.map .str)), (TYPE, .str type)])
  pure (asEnvelope envelope)

def validateEnvelope (value : JsValue) : Except JsError EventEnvelope := do
  let members ← objectMembers value (lit "an event envelope is a JSON object")
  exactly members ENVELOPE_FIELDS
  checkedEnvelope P members

/-- `UTF8(RFC8785(envelope))`. -/
def canonicalEventBytes (envelope : EventEnvelope) : Except JsError (List UInt8) :=
  canonicalize P (JsValue.ofJson (envelopeOf envelope))

/-- The raw DASL CID of some bytes. -/
def eventCidOfBytes (bytes : List UInt8) : JsString := (rawCidFromDigest (P.sha256 bytes)).text

def eventCidOf (envelope : EventEnvelope) : Except JsError JsString := do
  let bytes ← canonicalEventBytes P envelope
  pure (eventCidOfBytes P bytes)

def validateEvent (value : JsValue) : Except JsError Event := do
  let members ← objectMembers value (lit "an event is a JSON object")
  exactly members EVENT_FIELDS
  let envelope ← checkedEnvelope P members
  let cid ← checkedString isEventCid (JsValue.get members CID)
    (lit "cid is not a canonical raw DASL CID")
  let computed ← eventCidOf P envelope
  refuse (cid ≠ computed)
    (.invalidEvent (lit "cid " ++ cid ++ lit " is not the envelope's, " ++ computed))
  pure { envelope with cid }

/-- No field that the store supplies. -/
def unsupplied (members : List (JsString × JsValue)) : Except JsError Unit :=
  match SUPPLIED.find? (JsValue.hasOwn members) with
  | some field =>
    throw (.invalidEvent (lit "a draft does not carry " ++ field ++ lit ": the store supplies it"))
  | none => pure ()

/-- The roots of a draft; left out they are none. -/
def draftRoots (roots : JsValue) : Except JsError (List JsString) :=
  if roots.isUndefined then pure [] else checkedRoots P roots

/-- A draft that can become an event, normalized. -/
def validateDraft (draft : JsValue) : Except JsError Draft := do
  let members ← objectMembers draft (lit "a draft is an object")
  unsupplied members
  let extra := (members.map Prod.fst).filter (· ∉ [TYPE, ROOTS, DATA])
  refuse (extra ≠ [])
    (.invalidEvent (lit "a draft has type, roots and data only, not " ++ quoted extra))
  let type ← checkType (JsValue.get members TYPE)
  let checked ← draftRoots P (JsValue.get members ROOTS)
  let data ← objectMembers (JsValue.get members DATA) (lit "data is not a JSON object")
  let value ← plain (.object [(TYPE, .str type), (ROOTS, .array (checked.map .str)),
    (DATA, .object data)])
  pure (asDraft value)

/-- The event that an envelope's canonical bytes spell, with the CID they hash to. -/
def withCid (bytes : List UInt8) : Except JsError Event := do
  let parsed ← parseStrict P bytes false
  pure { asEnvelope (parsed.getD (.scalar .null)) with cid := eventCidOfBytes P bytes }

/-- An envelope as an accepted event is held, and its bytes. -/
def canonicalEnvelope (value : JsValue) : Except JsError (Event × List UInt8) := do
  let envelope ← validateEnvelope P value
  let bytes ← canonicalEventBytes P envelope
  let event ← withCid P bytes
  pure (event, bytes)

/-- A value as an accepted event is held: validated with its CID. -/
def canonicalEvent (value : JsValue) : Except JsError (Event × List UInt8) := do
  let event ← validateEvent P value
  let bytes ← canonicalEventBytes P event.toEventEnvelope
  let held ← withCid P bytes
  pure (held, bytes)

end

/-- The envelope that a draft becomes once `at` and `author` are set. -/
def Draft.envelope (draft : Draft) (at_ author : JsString) : JsValue :=
  .object [(AT_FIELD, .str at_), (AUTHOR, .str author), (TYPE, .str draft.type),
    (ROOTS, .array (draft.roots.map .str)), (DATA, JsValue.ofJson draft.data)]

def Event.members (event : Event) : List (JsString × JsValue) :=
  [(AT_FIELD, .str event.at_), (AUTHOR, .str event.author), (DATA, JsValue.ofJson event.data),
    (ROOTS, .array (event.roots.map .str)), (TYPE, .str event.type), (CID, .str event.cid)]

/-- An event as the value it is. -/
def Event.value (event : Event) : JsValue := .object event.members

/-! ## Order and the filter -/

/-- Canonical order: by `(at, cid)`, the literal strings. -/
def compareEvents (a b : Event) : Ordering :=
  (Json.compareUnits a.at_ b.at_).then (Json.compareUnits a.cid b.cid)

instance : Std.TransCmp compareEvents :=
  inferInstanceAs (Std.TransCmp (compareLex (Cmp.comap (fun event : Event => event.at_) Json.compareUnits)
    (Cmp.comap (fun event : Event => event.cid) Json.compareUnits)))

/-- Equality only: on the CID, on the fields named and on the fields of `data` named. -/
structure Filter where
  cid : Option JsString
  author : Option JsString
  type : Option JsString
  data : Option (List (JsString × Option Scalar))

def checkFilter (filter : Option Filter) : Except JsError Unit :=
  match filter.bind Filter.cid with
  | some cid => refuse (isEventCid cid = false) (.invalidEvent (lit "filter cid " ++
      JsValue.quote cid ++ lit " is not a canonical raw DASL CID"))
  | none => pure ()

/-- `===` of two primitives. -/
def strictEquals : Scalar → Scalar → Bool
  | .number x, .number y => (x.isFinite || x.fraction == 0) && x.unsigned == y.unsigned
  | a, b => a == b

/-- Every field named with a value is in the data with the same primitive. -/
def matchesData (data : Json) (wanted : List (JsString × Option Scalar)) : Bool :=
  wanted.all fun (field, value) =>
    match value, member? data field with
    | none, _ => true
    | some value, some (.scalar actual) => strictEquals actual value
    | some _, _ => false

def agrees (wanted : Option JsString) (actual : JsString) : Bool :=
  wanted.all fun s => s == actual

/-- Does the event satisfy the filter? No filter matches everything. -/
def matchesFilter (event : Event) (filter : Option Filter) : Bool :=
  filter.all fun f => agrees f.cid event.cid && agrees f.author event.author &&
    agrees f.type event.type && f.data.all (matchesData event.data)

end Estoc.EventStore
