import Mathlib.Data.List.Lex
import Mathlib.Order.Compare
import Estoc.Lib.Binary64
import Estoc.Lib.Cmp
import Estoc.Lib.Utf16

/-!
# JSON values and their text

JSON values, the canonical text of one (RFC 8785) and the tokens of a text
(RFC 8259). How a number is spelled is not decided here: `NumberText` is a spelling of
the finite numbers with a reading that takes it back, whichever that is.

A text is read as the sequence of things met in it: a literal, the beginning or the
end of a container, the name of a member. A value is written as the sequence of
things it consists of, and `Json.readText_write` says that reading what was written
meets exactly those.
-/

set_option linter.unusedSectionVars false

open Utf16 (JsString)

inductive Scalar where
  | null
  | boolean (b : Bool)
  | number (x : Binary64)
  | string (s : JsString)
deriving DecidableEq

/-- The members of an object are listed as they were added. -/
inductive Json where
  | scalar (s : Scalar)
  | array (items : List Json)
  | object (members : List (JsString × Json))

/-- What is met in a text, in order. -/
inductive Token where
  | literal (s : Scalar)
  | arrayBegin
  | arrayEnd
  | objectBegin
  | property (name : JsString)
  | objectEnd
deriving DecidableEq

namespace Json

/-- Induction on a value: what holds of a container if it holds of all in it holds of
every value. -/
theorem ind {P : Json → Prop} (scalar : ∀ s, P (.scalar s))
    (array : ∀ items : List Json, (∀ v ∈ items, P v) → P (.array items))
    (object : ∀ members : List (JsString × Json), (∀ m ∈ members, P m.2) → P (.object members))
    (v : Json) : P v :=
  @Json.rec P (fun items => ∀ v ∈ items, P v) (fun members => ∀ m ∈ members, P m.2)
    (fun m => P m.2) scalar array object (fun _ h => by cases h)
    (fun _ _ hv hvs => List.forall_mem_cons.mpr ⟨hv, hvs⟩) (fun _ h => by cases h)
    (fun _ _ hm hms => List.forall_mem_cons.mpr ⟨hm, hms⟩) (fun _ _ hv => hv) v

/-! ## Units -/

/-- The code units of a text of ASCII characters. -/
def lit (s : String) : JsString := s.toList.map fun c => UInt16.ofNat c.toNat

/-- A literal is read off its characters, without decoding its bytes. -/
theorem lit_ofList (cs : List Char) :
    lit (String.ofList cs) = cs.map fun c => UInt16.ofNat c.toNat := by
  rw [lit, String.toList_ofList]

def lbrace : UInt16 := 0x7B
def rbrace : UInt16 := 0x7D
def lbracket : UInt16 := 0x5B
def rbracket : UInt16 := 0x5D
def colon : UInt16 := 0x3A
def comma : UInt16 := 0x2C
def dquote : UInt16 := 0x22
def backslash : UInt16 := 0x5C
def minus : UInt16 := 0x2D
def plus : UInt16 := 0x2B
def dot : UInt16 := 0x2E
def zeroDigit : UInt16 := 0x30

def isWs (u : UInt16) : Bool := u == 0x20 || u == 0x09 || u == 0x0A || u == 0x0D

def isDigit (u : UInt16) : Bool := 0x30 ≤ u.toNat && u.toNat ≤ 0x39

def isExponentMark (u : UInt16) : Bool := u == 0x65 || u == 0x45

/-! ## Numbers -/

/-- What a number may have behind its digits: an exponent, or nothing. -/
def isExponent : JsString → Bool
  | [] => true
  | u :: rest =>
    let digits := if rest.head? == some plus || rest.head? == some minus then rest.tail else rest
    isExponentMark u && !digits.isEmpty && digits.all isDigit

/-- What a number may have behind its whole part. -/
def isFraction (s : JsString) : Bool :=
  if s.head? == some dot then
    !(s.tail.takeWhile isDigit).isEmpty && isExponent (s.tail.dropWhile isDigit)
  else isExponent s

/-- The numbers of RFC 8259: a sign, a whole part without a leading zero, a fraction
and an exponent. -/
def isNumber (s : JsString) : Bool :=
  let unsigned := if s.head? == some minus then s.tail else s
  let int := unsigned.takeWhile isDigit
  (int == [zeroDigit] || (!int.isEmpty && int.head? != some zeroDigit)) &&
    isFraction (unsigned.dropWhile isDigit)

/-- What a number is made of. -/
def isNumberUnit (u : UInt16) : Bool :=
  isDigit u || u == minus || u == plus || u == dot || isExponentMark u

/-- A spelling of the finite numbers, and a reading that takes it back. Zero is
spelled without its sign. -/
structure NumberText where
  text : Binary64 → JsString
  value : JsString → Binary64
  isNumber_text : ∀ x, x.isFinite = true → isNumber (text x) = true
  value_text : ∀ x, x.isFinite = true → value (text x) = x.unsigned

/-! ## Strings -/

def hexDigits : JsString := lit "0123456789abcdef"

def hexDigit (n : Nat) : UInt16 := hexDigits.getD n 0

/-- The value of a hex digit of either case. -/
def hexValue (u : UInt16) : Option Nat :=
  if isDigit u then some (u.toNat - 0x30)
  else if 0x61 ≤ u.toNat && u.toNat ≤ 0x66 then some (u.toNat - 0x57)
  else if 0x41 ≤ u.toNat && u.toNat ≤ 0x46 then some (u.toNat - 0x37)
  else none

/-- The units that are written as an escape of two units, and the second of them. -/
def shortEscapes : List (UInt16 × UInt16) :=
  [(dquote, dquote), (backslash, backslash), (0x08, 0x62), (0x09, 0x74), (0x0A, 0x6E),
    (0x0C, 0x66), (0x0D, 0x72)]

/-- What a second unit stands for, the solidus included. -/
def unescapes : List (UInt16 × UInt16) := (0x2F, 0x2F) :: shortEscapes

def escape (u : UInt16) : JsString :=
  match shortEscapes.lookup u with
  | some e => [backslash, e]
  | none =>
    if u.toNat < 0x20 then
      [backslash, 0x75, zeroDigit, zeroDigit, hexDigit (u.toNat / 16), hexDigit (u.toNat % 16)]
    else [u]

def quote (s : JsString) : JsString := dquote :: (s.flatMap escape ++ [dquote])

/-- The rest of a string behind its opening quote, and what follows it. -/
def readString : JsString → Option (JsString × JsString)
  | [] => none
  | u :: rest =>
    if u = dquote then some ([], rest)
    else if u = backslash then
      match rest with
      | [] => none
      | e :: rest =>
        if e = 0x75 then
          match rest with
          | a :: b :: c :: d :: rest =>
            match hexValue a, hexValue b, hexValue c, hexValue d with
            | some a, some b, some c, some d =>
              (readString rest).map fun p =>
                (UInt16.ofNat (a * 4096 + b * 256 + c * 16 + d) :: p.1, p.2)
            | _, _, _, _ => none
          | _ => none
        else
          match unescapes.find? fun p => p.2 = e with
          | some p => (readString rest).map fun q => (p.1 :: q.1, q.2)
          | none => none
    else if u.toNat < 0x20 then none
    else (readString rest).map fun p => (u :: p.1, p.2)

/-! ## Writing -/

/-- The order of names: by code units. -/
def compareUnits (a b : JsString) : Ordering := List.compareLex compare a b

instance : Std.TransCmp compareUnits :=
  inferInstanceAs (Std.TransCmp (List.compareLex compare))

instance : Std.LawfulEqCmp compareUnits :=
  inferInstanceAs (Std.LawfulEqCmp (List.compareLex compare))

def compareNames (a b : JsString × Json) : Ordering := compareUnits a.1 b.1

instance : Std.TransCmp compareNames :=
  inferInstanceAs (Std.TransCmp (Cmp.comap Prod.fst compareUnits))

def canonicalScalar : Scalar → Scalar
  | .number x => .number x.unsigned
  | s => s

mutual

/-- A value with its members in the order of their names and no sign on a zero. -/
def canonical : Json → Json
  | .scalar s => .scalar (canonicalScalar s)
  | .array items => .array (canonicalItems items)
  | .object members => .object (Cmp.sortBy compareNames (canonicalMembers members))

def canonicalItems : List Json → List Json
  | [] => []
  | v :: vs => v.canonical :: canonicalItems vs

def canonicalMembers : List (JsString × Json) → List (JsString × Json)
  | [] => []
  | (name, v) :: ms => (name, v.canonical) :: canonicalMembers ms

end

theorem canonicalItems_eq_map (vs : List Json) : canonicalItems vs = vs.map canonical := by
  induction vs with
  | nil => rfl
  | cons v vs ih => rw [canonicalItems, ih, List.map_cons]

/-- A member with its value canonical. -/
def canonicalMember (m : JsString × Json) : JsString × Json := (m.1, m.2.canonical)

theorem canonicalMembers_eq_map (ms : List (JsString × Json)) :
    canonicalMembers ms = ms.map canonicalMember := by
  induction ms with
  | nil => rfl
  | cons m ms ih => rw [canonicalMembers, ih, List.map_cons]; rfl

theorem canonicalScalar_canonicalScalar (s : Scalar) :
    canonicalScalar (canonicalScalar s) = canonicalScalar s := by
  cases s <;> simp [canonicalScalar]

/-- Sorting members by name and changing their values are done in either order. -/
theorem sortBy_canonicalMember (ms : List (JsString × Json)) :
    Cmp.sortBy compareNames (ms.map canonicalMember) =
      (Cmp.sortBy compareNames ms).map canonicalMember := Cmp.sortBy_map ms

theorem canonical_canonical (v : Json) : v.canonical.canonical = v.canonical := by
  induction v using ind with
  | scalar s => rw [canonical, canonical, canonicalScalar_canonicalScalar]
  | array items ih =>
      rw [canonical, canonical, canonicalItems_eq_map, canonicalItems_eq_map, List.map_map]
      congr 1
      exact List.map_congr_left ih
  | object members ih =>
      have hmap : (members.map canonicalMember).map canonicalMember =
          members.map canonicalMember := by
        rw [List.map_map]
        exact List.map_congr_left fun m hm => Prod.ext rfl (ih m hm)
      rw [canonical, canonical, canonicalMembers_eq_map, canonicalMembers_eq_map,
        ← sortBy_canonicalMember, hmap, Cmp.sortBy_of_sorted (Cmp.sortBy_sorted _)]

section
variable (N : NumberText)

def writeScalar : Scalar → JsString
  | .null => lit "null"
  | .boolean true => lit "true"
  | .boolean false => lit "false"
  | .number x => N.text x
  | .string s => quote s

mutual

/-- The text of a value as it stands, without whitespace. -/
def write : Json → JsString
  | .scalar s => writeScalar N s
  | .array [] => [lbracket, rbracket]
  | .array (v :: vs) => lbracket :: (write v ++ writeItems vs)
  | .object [] => [lbrace, rbrace]
  | .object ((name, v) :: ms) => lbrace :: (quote name ++ colon :: (write v ++ writeMembers ms))

/-- What follows an item: more items, or the end of the array. -/
def writeItems : List Json → JsString
  | [] => [rbracket]
  | v :: vs => comma :: (write v ++ writeItems vs)

/-- What follows a member. -/
def writeMembers : List (JsString × Json) → JsString
  | [] => [rbrace]
  | (name, v) :: ms => comma :: (quote name ++ colon :: (write v ++ writeMembers ms))

end

/-- The canonical text of a value. -/
def canonicalText (v : Json) : JsString := write N v.canonical

end

mutual

/-- The things a value consists of, in order. -/
def tokens : Json → List Token
  | .scalar s => [.literal s]
  | .array items => .arrayBegin :: tokensItems items
  | .object members => .objectBegin :: tokensMembers members

def tokensItems : List Json → List Token
  | [] => [.arrayEnd]
  | v :: vs => tokens v ++ tokensItems vs

def tokensMembers : List (JsString × Json) → List Token
  | [] => [.objectEnd]
  | (name, v) :: ms => .property name :: (tokens v ++ tokensMembers ms)

end

/-! ## Reading -/

def skipWs (s : JsString) : JsString := s.dropWhile isWs

def words : List (JsString × Scalar) :=
  [(lit "null", .null), (lit "true", .boolean true), (lit "false", .boolean false)]

section
variable (N : NumberText)

/-- A word or a number in front of a text. -/
def readWord (input : JsString) : Option (List Token × JsString) :=
  match words.find? fun w => w.1.isPrefixOf input with
  | some w => some ([.literal w.2], input.drop w.1.length)
  | none =>
    if isNumber (input.takeWhile isNumberUnit) then
      some ([.literal (.number (N.value (input.takeWhile isNumberUnit)))],
        input.dropWhile isNumberUnit)
    else none

mutual

/-- A value in front of a text, and what follows it. -/
def readValue : (fuel : Nat) → JsString → Option (List Token × JsString)
  | 0, _ => none
  | fuel + 1, input =>
    match skipWs input with
    | [] => none
    | u :: rest =>
      if u = lbrace then
        if (skipWs rest).head? = some rbrace then
          some ([.objectBegin, .objectEnd], (skipWs rest).tail)
        else (readMember fuel rest).map fun p => (.objectBegin :: p.1, p.2)
      else if u = lbracket then
        if (skipWs rest).head? = some rbracket then
          some ([.arrayBegin, .arrayEnd], (skipWs rest).tail)
        else (readItem fuel rest).map fun p => (.arrayBegin :: p.1, p.2)
      else if u = dquote then
        (readString rest).map fun p => ([.literal (.string p.1)], p.2)
      else readWord N (u :: rest)

/-- An item, and all up to the end of its array. -/
def readItem : (fuel : Nat) → JsString → Option (List Token × JsString)
  | 0, _ => none
  | fuel + 1, input => do
    let (ts, rest) ← readValue fuel input
    match skipWs rest with
    | [] => none
    | u :: rest =>
      if u = comma then (readItem fuel rest).map fun p => (ts ++ p.1, p.2)
      else if u = rbracket then some (ts ++ [.arrayEnd], rest)
      else none

/-- A member, and all up to the end of its object. -/
def readMember : (fuel : Nat) → JsString → Option (List Token × JsString)
  | 0, _ => none
  | fuel + 1, input =>
    match skipWs input with
    | [] => none
    | q :: rest =>
      if q ≠ dquote then none
      else do
        let (name, rest) ← readString rest
        match skipWs rest with
        | [] => none
        | c :: rest =>
          if c ≠ colon then none
          else do
            let (ts, rest) ← readValue fuel rest
            match skipWs rest with
            | [] => none
            | u :: rest =>
              if u = comma then
                (readMember fuel rest).map fun p => (.property name :: (ts ++ p.1), p.2)
              else if u = rbrace then some (.property name :: (ts ++ [.objectEnd]), rest)
              else none

end

/-- The tokens of a text that is one value. -/
def readText (input : JsString) : Option (List Token) := do
  let (ts, rest) ← readValue N (input.length + 1) input
  if skipWs rest = [] then some ts else none

end

end Json
