import Estoc.EventStore.Values
import Estoc.Lib.JsonParse

/-!
# Values on the wire

One reading of every value that crosses a port, on both transports. What is wire data is
copied into a plain tree, its logical size and its depth charged against a budget as it is
read, so that a value over the bounds is refused before all of it is read.

A value is read as it is unfolded from its root. An object that something below refers back to
has an identity, and the walk keeps those of the objects it is in: what stands below an object
met again inside itself is never looked at.
-/

set_option linter.unusedSectionVars false

namespace Estoc.Wire

open Json (lit)
open Utf16 (JsString chars encodeUtf8 isHigh isLow pairChar unitChar)
open Checked (refuse)
open EventStore (decimal)

/-! ## Values of the language -/

/-- What a typed array selects of its buffer; `exact` says whether it is of no class of its own. -/
structure View where
  buffer : List UInt8
  byteOffset : Nat
  byteLength : Nat
  exact : Bool
  within : byteOffset + byteLength ≤ buffer.length

/-- The view of a whole buffer. -/
def View.whole (bytes : List UInt8) : View := ⟨bytes, 0, bytes.length, true, by omega⟩

/-- What a property holds, or a variable. -/
inductive Raw where
  /-- No own property stands at the index. -/
  | hole
  /-- A property that a function answers. -/
  | accessor
  | undefined
  /-- A bigint, a function or a symbol, by its `typeof`. -/
  | other (typeName : JsString)
  | scalar (s : Scalar)
  | bytes (view : View)
  | array (identity : Option Nat) (plain : Bool) (items : List Raw)
  /-- An object that is no array: its own properties, in order, each with whether it is
  enumerable. -/
  | record (identity : Option Nat) (plain : Bool) (properties : List (JsString × Bool × Raw))

abbrev Properties := List (JsString × Bool × Raw)

/-- A wire value. -/
inductive Value where
  | scalar (s : Scalar)
  | bytes (bytes : List UInt8)
  | array (items : List Value)
  | record (members : List (JsString × Value))

namespace Raw

/-- Every object names each of its properties once, as an object of the language does. -/
inductive Distinct : Raw → Prop where
  | hole : Distinct .hole
  | accessor : Distinct .accessor
  | undefined : Distinct .undefined
  | other (typeName : JsString) : Distinct (.other typeName)
  | scalar (s : Scalar) : Distinct (.scalar s)
  | bytes (view : View) : Distinct (.bytes view)
  | array {identity : Option Nat} {plain : Bool} {items : List Raw} :
      (∀ v ∈ items, Distinct v) → Distinct (.array identity plain items)
  | record {identity : Option Nat} {plain : Bool} {properties : Properties} :
      (properties.map Prod.fst).Nodup → (∀ p ∈ properties, Distinct p.2.2) →
      Distinct (.record identity plain properties)

/-- The `typeof` of what is neither data nor an object. -/
def typeName : Raw → JsString
  | other name => name
  | _ => lit "undefined"

end Raw

mutual

/-- A wire value as a value of the language, made of objects that nothing else refers to. -/
def Value.raw : Value → Raw
  | .scalar s => .scalar s
  | .bytes content => .bytes (.whole content)
  | .array items => .array none true (Value.rawItems items)
  | .record members => .record none true (Value.rawMembers members)

def Value.rawItems : List Value → List Raw
  | [] => []
  | v :: vs => v.raw :: Value.rawItems vs

def Value.rawMembers : List (JsString × Value) → Properties
  | [] => []
  | (name, v) :: ms => (name, true, v.raw) :: Value.rawMembers ms

end

/-! ## Reading -/

/-- The bounds of one request: its logical size, and its nesting with the root at depth 1. -/
structure Budget where
  maxValueBytes : Nat
  maxDepth : Nat
deriving DecidableEq

inductive Code where
  | invalidArgument
  | resourceLimit
deriving DecidableEq

structure Refused where
  code : Code
  message : JsString
deriving DecidableEq

abbrev Reading (α : Type) := Except Refused α

def invalid (message : JsString) : Refused := ⟨.invalidArgument, message⟩
def limited (message : JsString) : Refused := ⟨.resourceLimit, message⟩

/-- A value, array or record charges 8; a string its UTF-8 length; a key 8 and its UTF-8
length; bytes their length. -/
def VALUE_CHARGE : Nat := 8

def SCRATCH : Nat := 8192

/-- How much of a text the platform's encoder reads and writes where there is some room: whole
characters, a lone surrogate as U+FFFD. -/
def encodeInto (room : Nat) : JsString → Nat × Nat
  | [] => (0, 0)
  | [u] => if (unitChar u).utf8Size ≤ room then (1, (unitChar u).utf8Size) else (0, 0)
  | u :: v :: rest =>
    if isHigh u && isLow v then
      if (pairChar u v).utf8Size ≤ room then
        let more := encodeInto (room - (pairChar u v).utf8Size) rest
        (more.1 + 2, more.2 + (pairChar u v).utf8Size)
      else (0, 0)
    else if (unitChar u).utf8Size ≤ room then
      let more := encodeInto (room - (unitChar u).utf8Size) (v :: rest)
      (more.1 + 1, more.2 + (unitChar u).utf8Size)
    else (0, 0)

/-- The text measured through the scratch buffer, a part at a time. -/
def measure : (parts : Nat) → JsString → Nat
  | 0, _ => 0
  | parts + 1, text =>
    if text = [] then 0
    else
      let encoded := encodeInto SCRATCH text
      encoded.2 + measure parts (text.drop encoded.1)

/-- The UTF-8 length of a text as the platform writes it, never encoded whole. -/
def utf8Length (text : JsString) : Nat := measure text.length text

/-- What is written is the encoding of what is read. -/
theorem encodeInto_length (room : Nat) (text : JsString) :
    (encodeInto room text).2 + (encodeUtf8 (text.drop (encodeInto room text).1)).length =
      (encodeUtf8 text).length := by
  induction room, text using encodeInto.induct with
  | case1 room => rfl
  | case2 room u h =>
      rw [encodeInto, if_pos h]
      exact (Utf16.length_encodeUtf8_cons (unitChar u) [] rfl).symm
  | case3 room u h => simp only [encodeInto, if_neg h, List.drop_zero, Nat.zero_add]
  | case4 room u v rest hpair h ih =>
      have hsplit := @Utf16.length_encodeUtf8_cons u (v :: rest) (pairChar u v) rest
        (by rw [chars, if_pos hpair])
      simp only [encodeInto, if_pos hpair, if_pos h, List.drop_succ_cons]
      omega
  | case5 room u v rest hpair h =>
      simp only [encodeInto, if_pos hpair, if_neg h, List.drop_zero, Nat.zero_add]
  | case6 room u v rest hpair h ih =>
      have hsplit := @Utf16.length_encodeUtf8_cons u (v :: rest) (unitChar u) (v :: rest)
        (by rw [chars, if_neg hpair])
      simp only [encodeInto, if_neg hpair, if_pos h, List.drop_succ_cons]
      omega
  | case7 room u v rest hpair h =>
      simp only [encodeInto, if_neg hpair, if_neg h, List.drop_zero, Nat.zero_add]

theorem encodeInto_pos {room : Nat} (hroom : 4 ≤ room) {text : JsString} (h : text ≠ []) :
    1 ≤ (encodeInto room text).1 := by
  match text with
  | [] => exact absurd rfl h
  | [u] =>
      have hu := (unitChar u).utf8Size_le_four
      rw [encodeInto, if_pos (by omega)]
  | u :: v :: rest =>
      have hu := (unitChar u).utf8Size_le_four
      have hpair := (pairChar u v).utf8Size_le_four
      rw [encodeInto]
      split
      · rw [if_pos (by omega)]
        dsimp only
        omega
      · rw [if_pos (by omega)]
        dsimp only
        omega

theorem measure_eq {parts : Nat} {text : JsString} (h : text.length ≤ parts) :
    measure parts text = (encodeUtf8 text).length := by
  induction parts generalizing text with
  | zero =>
      rw [List.eq_nil_of_length_eq_zero (by omega : text.length = 0)]
      rfl
  | succ parts ih =>
      rw [measure]
      split
      · next hnil => rw [hnil]; rfl
      · next hne =>
          have hread := @encodeInto_pos SCRATCH (by decide) text hne
          dsimp only
          rw [ih (by rw [List.length_drop]; omega)]
          exact encodeInto_length SCRATCH text

/-- Measured in parts, a text has the length of its encoding. -/
theorem utf8Length_eq (text : JsString) : utf8Length text = (encodeUtf8 text).length :=
  measure_eq (Nat.le_refl _)

/-- The bytes the view selects, and no other. -/
def exactBytes (view : View) : List UInt8 :=
  if view.byteOffset = 0 ∧ view.byteLength = view.buffer.length ∧ view.exact then view.buffer
  else (view.buffer.drop view.byteOffset).take view.byteLength

section
variable (budget : Option Budget) (bytesAt : List JsString)

def charge (size amount : Nat) : Reading Nat :=
  match budget with
  | none => pure (size + amount)
  | some budget => do
    refuse (budget.maxValueBytes < size + amount)
      (limited (lit "the value is larger than " ++ decimal budget.maxValueBytes ++ lit " bytes"))
    pure (size + amount)

def checkDepth (depth : Nat) : Reading Unit :=
  match budget with
  | none => pure ()
  | some budget => refuse (budget.maxDepth < depth)
      (limited (lit "the value nests deeper than " ++ decimal budget.maxDepth))

/-- A value that is no object. -/
def readScalar (size : Nat) : Scalar → Reading (Value × Nat)
  | .null => pure (.scalar .null, size)
  | .boolean b => pure (.scalar (.boolean b), size)
  | .string s => do
    -- the UTF-16 length first, so that a string far over the budget is refused unmeasured
    let size ← charge budget size s.length
    let size ← charge budget size (utf8Length s - s.length)
    pure (.scalar (.string s), size)
  | .number x => do
    refuse (x.isFinite = false) (invalid (lit "a number is not finite"))
    pure (.scalar (.number x.unsigned), size)

/-- The objects the walk is in, once it is in this one too. -/
def entered (ancestors : List Nat) (identity : Option Nat) : Reading (List Nat) := do
  refuse (identity.any ancestors.contains) (invalid (lit "the value contains itself"))
  pure (identity.toList ++ ancestors)

/-- What stands at an index is an element, and no accessor, which is never run. -/
def checkElement : Raw → Reading Unit
  | .hole => .error (invalid (lit "an array has a hole"))
  | .accessor => .error (invalid (lit "an accessor is not wire data"))
  | .undefined => .error (invalid (lit "an array element is undefined"))
  | _ => pure ()

/-- Whether a property is a member: enumerable, and not `undefined`. -/
def isMember (enumerable : Bool) : Raw → Reading Bool
  | .accessor =>
    if enumerable then .error (invalid (lit "an accessor is not wire data")) else pure false
  | .hole => pure false
  | .undefined => pure false
  | _ => pure enumerable

mutual

def read (ancestors : List Nat) (depth : Nat) (slot : Bool) (size : Nat) : Raw → Reading (Value × Nat)
  | .scalar s => do
    checkDepth budget depth
    let size ← charge budget size VALUE_CHARGE
    readScalar budget size s
  | .bytes view => do
    checkDepth budget depth
    let size ← charge budget size VALUE_CHARGE
    refuse (slot = false) (invalid (lit "bytes are not wire data here"))
    let size ← charge budget size view.byteLength
    pure (.bytes (exactBytes view), size)
  | .array identity plain items => do
    checkDepth budget depth
    let size ← charge budget size VALUE_CHARGE
    let ancestors ← entered ancestors identity
    refuse (plain = false) (invalid (lit "an array of a class is not wire data"))
    let (items, size) ← readItems ancestors depth size items
    pure (.array items, size)
  | .record identity plain properties => do
    checkDepth budget depth
    let size ← charge budget size VALUE_CHARGE
    let ancestors ← entered ancestors identity
    refuse (plain = false) (invalid (lit "an object of a class is not wire data"))
    let (members, size) ← readMembers ancestors depth size properties
    pure (.record members, size)
  | value => do
    checkDepth budget depth
    let _ ← charge budget size VALUE_CHARGE
    .error (invalid (lit "a " ++ value.typeName ++ lit " is not wire data"))

def readItems (ancestors : List Nat) (depth size : Nat) : List Raw → Reading (List Value × Nat)
  | [] => pure ([], size)
  | item :: items => do
    checkElement item
    let (item, size) ← read ancestors (depth + 1) false size item
    let (items, size) ← readItems ancestors depth size items
    pure (item :: items, size)

def readMembers (ancestors : List Nat) (depth size : Nat) :
    Properties → Reading (List (JsString × Value) × Nat)
  | [] => pure ([], size)
  | (key, enumerable, member) :: properties => do
    if ← isMember enumerable member then
      let size ← charge budget size (VALUE_CHARGE + utf8Length key)
      let (member, size) ← read ancestors (depth + 1) (depth = 1 && bytesAt.contains key) size member
      let (members, size) ← readMembers ancestors depth size properties
      pure ((key, member) :: members, size)
    else readMembers ancestors depth size properties

end

/-- A value as wire data, with its logical size, or why it is none. -/
def readValue : Raw → Reading (Value × Nat)
  | .undefined => .error (invalid (lit "the value is undefined"))
  | value => read budget bytesAt [] 1 false 0 value

end

end Estoc.Wire
