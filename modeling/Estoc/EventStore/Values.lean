import Estoc.Lib.Checked
import Estoc.Lib.Json

/-!
# Values from outside

What the event format is handed: any value of the language, as it is read once. An
object is the list of its own enumerable members in the order they are listed, an
accessor is the value it answered with, and an instance of a class is its name. A
value with a cycle has no such reading; the checks below refuse it at the latest where
it nests too deep.
-/

set_option linter.unusedSectionVars false

namespace Estoc.EventStore

open Json (lit)
open Utf16 (JsString isHigh isLow)

inductive JsValue where
  | undefined
  | scalar (s : Scalar)
  /-- A bigint, a function or a symbol, by its `typeof`. -/
  | other (typeName : JsString)
  | array (elements : List JsValue)
  | object (members : List (JsString × JsValue))
  /-- An instance of something: the name of its constructor, and what `JSON.stringify`
  makes of it. -/
  | host (name json : JsString)

/-- What the format's functions throw. -/
inductive JsError where
  | invalidJson (message : JsString)
  | invalidEvent (message : JsString)
  | invalidSqlValue (message : JsString)
  | typeError (message : JsString)
  | rangeError (message : JsString)
  /-- An error of no class of its own. -/
  | error (message : JsString)
deriving DecidableEq

def JsError.message : JsError → JsString
  | .invalidJson m => m
  | .invalidEvent m => m
  | .invalidSqlValue m => m
  | .typeError m => m
  | .rangeError m => m
  | .error m => m

namespace JsValue

/-- Induction on a value: what holds of a container if it holds of all in it holds of
every value. -/
theorem ind {P : JsValue → Prop} (undefined : P .undefined) (scalar : ∀ s, P (.scalar s))
    (other : ∀ typeName, P (.other typeName))
    (array : ∀ elements : List JsValue, (∀ v ∈ elements, P v) → P (.array elements))
    (object : ∀ members : List (JsString × JsValue), (∀ m ∈ members, P m.2) → P (.object members))
    (host : ∀ name json, P (.host name json)) (v : JsValue) : P v :=
  @JsValue.rec P (fun elements => ∀ v ∈ elements, P v) (fun members => ∀ m ∈ members, P m.2)
    (fun m => P m.2) undefined scalar other array object host (fun _ h => by cases h)
    (fun _ _ hv hvs => List.forall_mem_cons.mpr ⟨hv, hvs⟩) (fun _ h => by cases h)
    (fun _ _ hm hms => List.forall_mem_cons.mpr ⟨hm, hms⟩) (fun _ _ hv => hv) v

def str (s : JsString) : JsValue := .scalar (.string s)

/-- The string a value is. -/
def string? : JsValue → Option JsString
  | .scalar (.string s) => some s
  | _ => none

def isUndefined : JsValue → Bool
  | .undefined => true
  | _ => false

/-- A plain object: no array, no null, no instance of anything. -/
def isJsonObject : JsValue → Bool
  | .object _ => true
  | _ => false

/-- The member of a name, `undefined` where there is none. -/
def get (members : List (JsString × JsValue)) (name : JsString) : JsValue :=
  (members.lookup name).getD .undefined

def hasOwn (members : List (JsString × JsValue)) (name : JsString) : Bool :=
  (members.lookup name).isSome

mutual

/-- A JSON value as a value of the language. -/
def ofJson : Json → JsValue
  | .scalar s => .scalar s
  | .array items => .array (ofItems items)
  | .object members => .object (ofMembers members)

def ofItems : List Json → List JsValue
  | [] => []
  | v :: vs => ofJson v :: ofItems vs

def ofMembers : List (JsString × Json) → List (JsString × JsValue)
  | [] => []
  | (name, v) :: ms => (name, ofJson v) :: ofMembers ms

end

theorem ofItems_eq_map (vs : List Json) : ofItems vs = vs.map ofJson := by
  induction vs with
  | nil => rfl
  | cons v vs ih => rw [ofItems, ih, List.map_cons]

theorem ofMembers_eq_map (ms : List (JsString × Json)) :
    ofMembers ms = ms.map fun m => (m.1, ofJson m.2) := by
  induction ms with
  | nil => rfl
  | cons m ms ih => rw [ofMembers, ih, List.map_cons]

/-! ## In messages -/

/-- A string as `JSON.stringify` spells it: a surrogate that stands alone is escaped. -/
def quoteUnits : JsString → JsString
  | [] => []
  | [u] => if isHigh u || isLow u then escapeUnit u else Json.escape u
  | u :: v :: rest =>
    if isHigh u && isLow v then u :: v :: quoteUnits rest
    else if isHigh u || isLow u then escapeUnit u ++ quoteUnits (v :: rest)
    else Json.escape u ++ quoteUnits (v :: rest)
where
  escapeUnit (u : UInt16) : JsString :=
    let n := u.toNat
    lit "\\u" ++ [Json.hexDigit (n / 4096), Json.hexDigit (n / 256 % 16), Json.hexDigit (n / 16 % 16),
      Json.hexDigit (n % 16)]

def quote (s : JsString) : JsString := Json.dquote :: (quoteUnits s ++ [Json.dquote])

section
variable (N : Json.NumberText)

def stringifyScalar : Scalar → JsString
  | .number x => if x.isFinite then N.text x else lit "null"
  | .string s => quote s
  | s => Json.writeScalar N s

def bigint : JsString := lit "bigint"

mutual

/-- `JSON.stringify`: none for what it makes `undefined` of; a bigint throws. -/
def stringify : JsValue → Except JsError (Option JsString)
  | .undefined => pure none
  | .scalar s => pure (some (stringifyScalar N s))
  | .other typeName =>
    if typeName = bigint then throw (.typeError (lit "Do not know how to serialize a BigInt"))
    else pure none
  | .array elements => do
    let texts ← stringifyElements elements
    pure (some (lit "[" ++ (lit ",").intercalate texts ++ lit "]"))
  | .object members => do
    let texts ← stringifyMembers members
    pure (some (lit "\x7b" ++ (lit ",").intercalate texts ++ lit "\x7d"))
  | .host _ json => pure (some json)

def stringifyElements : List JsValue → Except JsError (List JsString)
  | [] => pure []
  | v :: vs => do
    let text ← stringify v
    let texts ← stringifyElements vs
    pure (text.getD (lit "null") :: texts)

def stringifyMembers : List (JsString × JsValue) → Except JsError (List JsString)
  | [] => pure []
  | (name, v) :: ms => do
    let text ← stringify v
    let texts ← stringifyMembers ms
    pure ((text.map fun t => quote name ++ lit ":" ++ t).toList ++ texts)

end

/-- A value in a message: what `JSON.stringify` makes of it, or `undefined`. -/
def shown (v : JsValue) : Except JsError JsString := do
  let text ← stringify N v
  pure (text.getD (lit "undefined"))

end

end JsValue

/-- A count in a message. -/
def decimal (n : Nat) : JsString := lit (toString n)

end Estoc.EventStore
