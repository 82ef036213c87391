import Estoc.EventStore.Values
import Estoc.Lib.JsonRead

/-!
# Canonical JSON as the event format uses it

`canonicalize` turns a value into the one byte string that stands for its content, and
`parseStrict` reads text back the way the event format requires. The serialization and
the scanner are other packages'; what the event format refuses beyond them is decided
here, once for a value that is handed in and once for what the scanner meets.
-/

set_option linter.unusedSectionVars false

namespace Estoc.EventStore

open Json (lit NumberText)
open Utf16 (JsString chars codePoints encodeUtf8 isHigh isHigh_iff isLow isLow_iff_mask isSurrogate
  pairChar unitChar utf8Size_pairChar utf8Size_unitChar)
open Checked (refuse)

/-- Nesting deeper than this is refused by both directions. -/
def MAX_DEPTH : Nat := 1000

/-! ## Text -/

/-- The noncharacters: U+FDD0 to U+FDEF, and the last two code points of every plane. -/
def isNoncharacter (code : Nat) : Bool :=
  (0xFDD0 ≤ code && code ≤ 0xFDEF) || 0xFFFE ≤ code % 0x10000

def isForbidden (noncharacters : Bool) (code : Nat) : Bool :=
  isSurrogate code || (!noncharacters && isNoncharacter code)

/-- A code point in capital hex digits, four of them at least. -/
def hexCode (code : Nat) : JsString :=
  let digits := (Nat.toDigits 16 code).map fun c => UInt16.ofNat c.toUpper.toNat
  List.replicate (4 - digits.length) Json.zeroDigit ++ digits

/-- Why a text is not an I-JSON string, or none when it is one; with `noncharacters`
only an unpaired surrogate counts. -/
def forbiddenIn (text : JsString) (noncharacters : Bool) : Option JsString :=
  ((codePoints text).find? (isForbidden noncharacters)).map fun code =>
    (if isSurrogate code then lit "unpaired surrogate" else lit "noncharacter") ++ lit " U+" ++
      hexCode code

def admitText (text path : JsString) : Except JsError Unit :=
  match forbiddenIn text false with
  | some fault => throw (.invalidJson (path ++ lit ": " ++ fault))
  | none => pure ()

/-- The rest of a text measured, a pair of surrogates as one character. -/
def utf8LengthFrom : (text : JsString) → (bytes : Nat) → Nat
  | [], bytes => bytes
  | [unit], bytes =>
    if unit < 0x80 then bytes + 1
    else if unit < 0x800 then bytes + 2
    else bytes + 3
  | unit :: next :: rest, bytes =>
    if unit < 0x80 then utf8LengthFrom (next :: rest) (bytes + 1)
    else if unit < 0x800 then utf8LengthFrom (next :: rest) (bytes + 2)
    else if 0xD800 ≤ unit ∧ unit ≤ 0xDBFF ∧ next &&& 0xFC00 = 0xDC00 then
      utf8LengthFrom rest (bytes + 4)
    else utf8LengthFrom (next :: rest) (bytes + 3)

/-- How many bytes the UTF-8 of a text takes, counted without encoding it. -/
def utf8Length (text : JsString) : Nat := utf8LengthFrom text 0

/-- A unit that is not the first of a pair adds the bytes of its own character. -/
theorem utf8LengthFrom_unit {unit next : UInt16} {rest : JsString} (bytes : Nat)
    (h : ¬ (isHigh unit = true ∧ isLow next = true)) :
    utf8LengthFrom (unit :: next :: rest) bytes =
      utf8LengthFrom (next :: rest) (bytes + (unitChar unit).utf8Size) := by
  have hpair : ¬ (0xD800 ≤ unit ∧ unit ≤ 0xDBFF ∧ next &&& 0xFC00 = 0xDC00) := by
    rintro ⟨hge, hle, hlow⟩
    rw [UInt16.le_iff_toNat_le] at hge hle
    exact h ⟨isHigh_iff.mpr ⟨hge, Nat.lt_succ_of_le hle⟩, isLow_iff_mask.mpr hlow⟩
  have h80 : unit < 0x80 ↔ unit.toNat < 0x80 := UInt16.lt_iff_toNat_lt
  have h800 : unit < 0x800 ↔ unit.toNat < 0x800 := UInt16.lt_iff_toNat_lt
  simp only [utf8LengthFrom, if_neg hpair, utf8Size_unitChar, h80, h800]
  split
  · rfl
  · split
    · rfl
    · rfl

theorem utf8LengthFrom_eq (text : JsString) (bytes : Nat) :
    utf8LengthFrom text bytes = bytes + (encodeUtf8 text).length := by
  induction text using Utf16.chars.induct generalizing bytes with
  | case1 => rfl
  | case2 unit =>
      rw [Utf16.length_encodeUtf8_cons (unitChar unit) [] rfl, utf8Size_unitChar]
      have h80 : unit < 0x80 ↔ unit.toNat < 0x80 := UInt16.lt_iff_toNat_lt
      have h800 : unit < 0x800 ↔ unit.toNat < 0x800 := UInt16.lt_iff_toNat_lt
      simp only [utf8LengthFrom, h80, h800]
      split
      · rfl
      · split
        · rfl
        · rfl
  | case3 unit next rest hpair ih =>
      rw [Utf16.length_encodeUtf8_cons (pairChar unit next) rest (by rw [chars, if_pos hpair])]
      rw [Bool.and_eq_true] at hpair
      rw [utf8Size_pairChar hpair.1 hpair.2, ← Nat.add_assoc, ← ih]
      obtain ⟨hge, hlt⟩ := isHigh_iff.mp hpair.1
      have hgap : ¬ unit < 0x80 ∧ ¬ unit < 0x800 := by
        constructor <;> rw [UInt16.lt_iff_toNat_lt] <;> exact fun h => absurd hge (by
          have : unit.toNat < 0x800 := Nat.lt_of_lt_of_le h (by decide)
          omega)
      rw [utf8LengthFrom, if_neg hgap.1, if_neg hgap.2, if_pos]
      refine ⟨UInt16.le_iff_toNat_le.mpr hge, ?_, isLow_iff_mask.mp hpair.2⟩
      exact UInt16.le_iff_toNat_le.mpr (Nat.le_of_lt_succ hlt)
  | case4 unit next rest hpair ih =>
      rw [Utf16.length_encodeUtf8_cons (unitChar unit) (next :: rest)
        (by rw [chars, if_neg hpair]), ← Nat.add_assoc, ← ih]
      rw [Bool.and_eq_true] at hpair
      exact utf8LengthFrom_unit bytes hpair

/-- What is counted is what the encoder writes, whatever surrogates stand alone in the text. -/
theorem utf8Length_counts_bytes (text : JsString) :
    utf8Length text = (encodeUtf8 text).length := by
  rw [utf8Length, utf8LengthFrom_eq, Nat.zero_add]

/-- A pair, and the first half of one at the end. -/
example : utf8Length [0xD83D, 0xDE00, 0xD83D] = 7 := by decide

/-! ## Plain data -/

/-- `String(x)` of a number that is not finite. -/
def notFinite (x : Binary64) : JsString :=
  if x.fraction ≠ 0 then lit "NaN" else if x.negative then lit "-Infinity" else lit "Infinity"

/-- Define a member: the one of that name if there is one, else a new one at the end. -/
def define (members : List (JsString × Json)) (name : JsString) (value : Json) :
    List (JsString × Json) :=
  if name ∈ members.map Prod.fst then
    members.map fun m => if m.1 = name then (name, value) else m
  else members ++ [(name, value)]

mutual

/-- The value as plain data of its own; `depth` containers are open around it. -/
def admitValue : (value : JsValue) → (depth : Nat) → (path : JsString) → Except JsError Json
  | .undefined, _, path => throw (.invalidJson (path ++ lit ": undefined is not JSON"))
  | .scalar (.number x), _, path => do
    refuse (x.isFinite = false)
      (.invalidJson (path ++ lit ": " ++ notFinite x ++ lit " is not a finite number"))
    pure (.scalar (.number x))
  | .scalar (.string s), _, path => do
    admitText s path
    pure (.scalar (.string s))
  | .scalar s, _, _ => pure (.scalar s)
  | .other typeName, _, path =>
    throw (.invalidJson (path ++ lit ": " ++ typeName ++ lit " is not JSON"))
  | .array elements, depth, path => do
    refuse (MAX_DEPTH ≤ depth)
      (.invalidJson (path ++ lit ": nested deeper than " ++ decimal MAX_DEPTH))
    let admitted ← admitElements elements 0 (depth + 1) path
    pure (.array admitted)
  | .object members, depth, path => do
    refuse (MAX_DEPTH ≤ depth)
      (.invalidJson (path ++ lit ": nested deeper than " ++ decimal MAX_DEPTH))
    let admitted ← admitMembers members [] (depth + 1) path
    pure (.object admitted)
  | .host name _, depth, path => do
    refuse (MAX_DEPTH ≤ depth)
      (.invalidJson (path ++ lit ": nested deeper than " ++ decimal MAX_DEPTH))
    throw (.invalidJson (path ++ lit ": a " ++ (if name = [] then lit "host object" else name) ++
      lit " is not JSON"))

/-- The elements from the index `i` on. -/
def admitElements : (elements : List JsValue) → (i depth : Nat) → (path : JsString) →
    Except JsError (List Json)
  | [], _, _, _ => pure []
  | v :: vs, i, depth, path => do
    let admitted ← admitValue v depth (path ++ lit "[" ++ decimal i ++ lit "]")
    let rest ← admitElements vs (i + 1) depth path
    pure (admitted :: rest)

/-- The members, defined one after the other on `admitted`. -/
def admitMembers : (members : List (JsString × JsValue)) → (admitted : List (JsString × Json)) →
    (depth : Nat) → (path : JsString) → Except JsError (List (JsString × Json))
  | [], admitted, _, _ => pure admitted
  | (key, member) :: ms, admitted, depth, path => do
    admitText key (path ++ lit "." ++ key)
    refuse (member.isUndefined = true)
      (.invalidJson (path ++ lit "." ++ key ++ lit ": undefined is not JSON"))
    let value ← admitValue member depth (path ++ lit "." ++ key)
    admitMembers ms (define admitted key value) depth path

end

def plainJson (value : JsValue) : Except JsError Json := admitValue value 0 (lit "$")

/-- What `plainJson` returns, `depth` containers being open around it: numbers are
finite, names and strings hold nothing forbidden, the names of an object are distinct,
and nothing nests too deep. -/
inductive IJson : (depth : Nat) → Json → Prop where
  | null {depth : Nat} : IJson depth (.scalar .null)
  | boolean {depth : Nat} (b : Bool) : IJson depth (.scalar (.boolean b))
  | number {depth : Nat} {x : Binary64} : x.isFinite = true → IJson depth (.scalar (.number x))
  | string {depth : Nat} {s : JsString} : forbiddenIn s false = none →
      IJson depth (.scalar (.string s))
  | array {depth : Nat} {items : List Json} : depth < MAX_DEPTH →
      (∀ v ∈ items, IJson (depth + 1) v) → IJson depth (.array items)
  | object {depth : Nat} {members : List (JsString × Json)} : depth < MAX_DEPTH →
      (members.map Prod.fst).Nodup → (∀ m ∈ members, forbiddenIn m.1 false = none) →
      (∀ m ∈ members, IJson (depth + 1) m.2) → IJson depth (.object members)

/-! ## The packages -/

/-- The scanner's error codes. -/
inductive ParseErrorCode where
  | invalidSymbol
  | invalidNumberFormat
  | propertyNameExpected
  | valueExpected
  | colonExpected
  | commaExpected
  | closeBraceExpected
  | closeBracketExpected
  | endOfFileExpected
  | invalidCommentToken
  | unexpectedEndOfComment
  | unexpectedEndOfString
  | unexpectedEndOfNumber
  | invalidUnicode
  | invalidEscapeCharacter
  | invalidCharacter
  | unknown
deriving DecidableEq

/-- What the scanner calls its visitor for. -/
inductive Visit where
  | objectBegin (offset : Nat)
  | objectProperty (name : JsString) (offset : Nat)
  | objectEnd
  | arrayBegin (offset : Nat)
  | arrayEnd
  | literalValue (value : Scalar) (offset length : Nat)
  | error (code : ParseErrorCode) (offset : Nat)
deriving DecidableEq

/-- The thing met in the text, none for an error. -/
def Visit.token : Visit → Option Token
  | .objectBegin _ => some .objectBegin
  | .objectProperty name _ => some (.property name)
  | .objectEnd => some .objectEnd
  | .arrayBegin _ => some .arrayBegin
  | .arrayEnd => some .arrayEnd
  | .literalValue value _ _ => some (.literal value)
  | .error _ _ => none

/-- A sha-256 digest. -/
structure Digest where
  bytes : List UInt8
  length : bytes.length = 32

/-- What the event format takes from other packages: a serializer that writes an I-JSON
value as RFC 8785 does, a scanner that meets in a text of RFC 8259 what the text
consists of and reports an error in any other, and a hash. -/
structure Packages where
  numbers : NumberText
  serialize : Json → JsString
  serialize_eq : ∀ v, IJson 0 v → serialize v = Json.canonicalText numbers v
  visit : JsString → List Visit
  visit_tokens : ∀ text ts, Json.readText numbers text = some ts →
    (visit text).map Visit.token = ts.map some
  visit_error : ∀ text, Json.readText numbers text = none → none ∈ (visit text).map Visit.token
  sha256 : List UInt8 → Digest

/-! ## Writing -/

section
variable (P : Packages)

def canonicalText (value : JsValue) : Except JsError JsString := do
  let plain ← plainJson value
  pure (P.serialize plain)

/-- The UTF-8 of the canonical text. -/
def canonicalize (value : JsValue) : Except JsError (List UInt8) := do
  let text ← canonicalText P value
  pure (Utf16.encodeUtf8 text)

end

/-! ## Reading -/

/-- A container still open: what it holds so far, and for an object the name that a
value is about to fill. -/
inductive Open where
  | array (items : List Json)
  | object (members : List (JsString × Json)) (key : Option JsString)

def Open.value : Open → Json
  | .array items => .array items
  | .object members _ => .object members

/-- The visitor's state: the value of the text, and the containers open, innermost
first. A container is put in its place when it ends, which nothing can tell from
putting it there when it begins: only the innermost is looked at. -/
structure Parse where
  root : Option Json
  opened : List Open

namespace Parse

def start : Parse := ⟨none, []⟩

def place (p : Parse) (value : Json) : Parse :=
  match p.opened with
  | [] => { p with root := some value }
  | .array items :: outer => { p with opened := .array (items ++ [value]) :: outer }
  | .object members key :: outer =>
    { p with opened := .object (define members (key.getD (lit "null")) value) key :: outer }

/-- The innermost container ends. -/
def finish (p : Parse) : Parse :=
  match p.opened with
  | [] => p
  | o :: outer => place { p with opened := outer } o.value

end Parse

def fail {α : Type} (offset : Nat) (what : JsString) : Except JsError α :=
  throw (.invalidJson (what ++ lit " at offset " ++ decimal offset))

def beginAt (p : Parse) (offset : Nat) (o : Open) : Except JsError Parse := do
  refuse (MAX_DEPTH ≤ p.opened.length) (.invalidJson (lit "nested deeper than " ++
    decimal MAX_DEPTH ++ lit " at offset " ++ decimal offset))
  pure { p with opened := o :: p.opened }

def SYNTAX : ParseErrorCode → JsString
  | .invalidSymbol => lit "unexpected token"
  | .invalidNumberFormat => lit "bad number"
  | .propertyNameExpected => lit "expected a member name"
  | .valueExpected => lit "expected a value"
  | .colonExpected => lit "expected :"
  | .commaExpected => lit "expected ,"
  | .closeBraceExpected => lit "expected \x7d"
  | .closeBracketExpected => lit "expected ]"
  | .endOfFileExpected => lit "trailing characters"
  | .invalidCommentToken => lit "comment"
  | .unexpectedEndOfComment => lit "comment"
  | .unexpectedEndOfString => lit "unterminated string"
  | .unexpectedEndOfNumber => lit "bad number"
  | .invalidUnicode => lit "bad unicode escape"
  | .invalidEscapeCharacter => lit "bad escape"
  | .invalidCharacter => lit "control character in string"
  | .unknown => lit "bad syntax"

section
variable (text : JsString) (noncharacters : Bool)

/-- One call of the visitor. -/
def onVisit (p : Parse) : Visit → Except JsError Parse
  | .objectBegin offset => beginAt p offset (.object [] none)
  | .objectProperty name offset =>
    match forbiddenIn name noncharacters with
    | some fault => fail offset fault
    | none =>
      match p.opened with
      | .object members _ :: outer =>
        if name ∈ members.map Prod.fst then
          fail offset (lit "duplicate member " ++ JsValue.quote name)
        else pure { p with opened := .object members (some name) :: outer }
      -- the scanner names a member inside an object only
      | _ => throw (.typeError (lit "no object is open"))
  | .objectEnd => pure p.finish
  | .arrayBegin offset => beginAt p offset (.array [])
  | .arrayEnd => pure p.finish
  | .literalValue (.string s) offset _ =>
    match forbiddenIn s noncharacters with
    | some fault => fail offset fault
    | none => pure (p.place (.scalar (.string s)))
  | .literalValue (.number x) offset length => do
    refuse (x.isFinite = false) (.invalidJson ((text.drop offset).take length ++
      lit " is outside binary64 at offset " ++ decimal offset))
    pure (p.place (.scalar (.number x)))
  | .literalValue s _ _ => pure (p.place (.scalar s))
  | .error code offset => fail offset (SYNTAX code)

/-- All the calls, in order. -/
def onVisits : Parse → List Visit → Except JsError Parse
  | p, [] => pure p
  | p, v :: vs => do
    let q ← onVisit text noncharacters p v
    onVisits q vs

end

/-- What is open where the text ends is in its place too. -/
def Parse.close : (fuel : Nat) → Parse → Parse
  | 0, p => p
  | fuel + 1, p => Parse.close fuel p.finish

section
variable (P : Packages)

def parseText (text : JsString) (noncharacters : Bool) : Except JsError (Option Json) := do
  let p ← onVisits text noncharacters .start (P.visit text)
  pure (p.close p.opened.length).root

def parseStrict (input : List UInt8) (noncharacters : Bool) : Except JsError (Option Json) :=
  match Utf16.decodeUtf8 input with
  | none => throw (.invalidJson (lit "not valid UTF-8"))
  | some text => parseText P text noncharacters

end

end Estoc.EventStore
