import Estoc.Lib.JsonSame

/-!
# Parsing a text to its value

The value of a text, put together from the things met in it, the containers that are open
kept on a stack. Of members with one name the last counts, in the place of the first.
-/

set_option linter.unusedSectionVars false

open Utf16 (JsString)

namespace Json

/-- The member under a name. -/
def member (members : List (JsString × Json)) (name : JsString) : Option Json :=
  (members.find? (·.1 == name)).map Prod.snd

/-- The members with one of them set: in its place, or last. -/
def setMember (members : List (JsString × Json)) (name : JsString) (v : Json) :
    List (JsString × Json) :=
  if members.any (·.1 == name) then members.map fun m => if m.1 == name then (name, v) else m
  else members ++ [(name, v)]

/-- A container that is open, and the name of the member that is read. -/
inductive Frame where
  | array (items : List Json)
  | object (members : List (JsString × Json)) (name : Option JsString)

/-- What has been put together: a whole value, or the containers open, innermost first. -/
inductive Build where
  | opened (stack : List Frame)
  | whole (v : Json)

namespace Build

def place (v : Json) : Build → Option Build
  | opened [] => some (whole v)
  | opened (.array items :: outer) => some (opened (.array (items ++ [v]) :: outer))
  | opened (.object members (some name) :: outer) =>
    some (opened (.object (setMember members name v) none :: outer))
  | _ => none

def meet : Token → Build → Option Build
  | .literal s, b => b.place (.scalar s)
  | .arrayBegin, opened stack => some (opened (.array [] :: stack))
  | .arrayEnd, opened (.array items :: outer) => place (.array items) (opened outer)
  | .objectBegin, opened stack => some (opened (.object [] none :: stack))
  | .property name, opened (.object members none :: outer) =>
    some (opened (.object members (some name) :: outer))
  | .objectEnd, opened (.object members none :: outer) => place (.object members) (opened outer)
  | _, _ => none

def meetAll : List Token → Build → Option Build
  | [], b => some b
  | t :: ts, b => (b.meet t).bind (meetAll ts)

def value : Build → Option Json
  | whole v => some v
  | opened _ => none

end Build

/-- The value a text is; `none` where it is none. -/
def parse (N : NumberText) (text : JsString) : Option Json :=
  ((readText N text).bind fun ts => Build.meetAll ts (.opened [])).bind Build.value

/-! ## What was written is parsed -/

open Build (place meet meetAll)

theorem meetAll_append (ts us : List Token) (b : Build) :
    meetAll (ts ++ us) b = (meetAll ts b).bind (meetAll us) := by
  induction ts generalizing b with
  | nil => rfl
  | cons t ts ih =>
      rw [List.cons_append, meetAll, meetAll, Option.bind_assoc]
      exact congrArg _ (funext ih)

theorem setMember_of_new {members : List (JsString × Json)} {name : JsString} (v : Json)
    (h : name ∉ members.map Prod.fst) : setMember members name v = members ++ [(name, v)] := by
  rw [setMember, if_neg]
  intro hany
  obtain ⟨m, hm, hname⟩ := List.any_eq_true.mp hany
  exact h (List.mem_map.mpr ⟨m, hm, beq_iff_eq.mp hname⟩)

theorem meetAll_items {items : List Json}
    (ih : ∀ v ∈ items, ∀ b : Build, meetAll (tokens v) b = b.place v) (before : List Json)
    (outer : List Frame) :
    meetAll (tokensItems items) (.opened (.array before :: outer)) =
      place (.array (before ++ items)) (.opened outer) := by
  induction items generalizing before with
  | nil =>
      rw [tokensItems, meetAll, List.append_nil]
      cases hplaced : place (.array before) (.opened outer) <;> simp [meet, hplaced, meetAll]
  | cons v items ihitems =>
      obtain ⟨hv, hitems⟩ := List.forall_mem_cons.mp ih
      rw [tokensItems, meetAll_append, hv]
      show meetAll (tokensItems items) (.opened (.array (before ++ [v]) :: outer)) = _
      rw [ihitems hitems, List.append_assoc]
      rfl

theorem meetAll_members {members : List (JsString × Json)}
    (ih : ∀ m ∈ members, ∀ b : Build, meetAll (tokens m.2) b = b.place m.2)
    (before : List (JsString × Json)) (hnames : ((before ++ members).map Prod.fst).Nodup)
    (outer : List Frame) :
    meetAll (tokensMembers members) (.opened (.object before none :: outer)) =
      place (.object (before ++ members)) (.opened outer) := by
  induction members generalizing before with
  | nil =>
      rw [tokensMembers, meetAll, List.append_nil]
      cases hplaced : place (.object before) (.opened outer) <;> simp [meet, hplaced, meetAll]
  | cons m members ihmembers =>
      obtain ⟨name, v⟩ := m
      obtain ⟨hv, hmembers⟩ := List.forall_mem_cons.mp ih
      have hnew : name ∉ before.map Prod.fst := by
        rw [List.map_append, List.map_cons] at hnames
        exact fun hmem => (List.nodup_append.mp hnames).2.2 name hmem name List.mem_cons_self rfl
      have hassoc : before ++ (name, v) :: members = before ++ [(name, v)] ++ members :=
        (List.append_assoc _ [(name, v)] _).symm
      rw [tokensMembers, meetAll]
      show meetAll (tokens v ++ tokensMembers members)
        (.opened (.object before (some name) :: outer)) = _
      rw [meetAll_append, hv]
      show meetAll (tokensMembers members)
        (.opened (.object (setMember before name v) none :: outer)) = _
      rw [setMember_of_new v hnew, hassoc]
      rw [hassoc] at hnames
      exact ihmembers hmembers _ hnames

/-- The things a value consists of are put together to it, wherever it belongs. -/
theorem meetAll_tokens {v : Json} (h : v.Distinct) (b : Build) : meetAll (tokens v) b = b.place v := by
  induction h generalizing b with
  | scalar s =>
      rw [tokens, meetAll]
      show (place (.scalar s) b).bind some = _
      exact Option.bind_fun_some _
  | @array items _ ih =>
      cases b with
      | whole w => rfl
      | opened stack => exact meetAll_items ih [] stack
  | @object members hnames _ ih =>
      cases b with
      | whole w => rfl
      | opened stack => exact meetAll_members ih [] hnames stack

/-- What is read from a text is parsed to the value that consists of it. -/
theorem parse_of_readText {N : NumberText} {text : JsString} {v : Json}
    (hread : readText N text = some (tokens v)) (h : v.Distinct) : parse N text = some v := by
  rw [parse, hread, Option.bind_some, meetAll_tokens h]
  rfl

theorem parse_write {N : NumberText} {v : Json} (hreadable : Readable v) (h : v.Distinct) :
    parse N (write N v) = some v := parse_of_readText (readText_write hreadable) h

end Json
