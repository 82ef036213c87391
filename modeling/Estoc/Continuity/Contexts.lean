import Estoc.Continuity.Arrival

/-!
# The contexts as the class holds them

The graph module's contexts are keyed by channels and forget what a search compresses. The
class is keyed by the text of a channel, unites in its constructor what the edges of one
kind join, and writes the way it took into the parents whenever it is asked.

`Answers` is what the class has to say of the keys joined. It holds after every sequence of
unions and questions: a union is the only call that changes what is joined, and no question
moves a root. So the answers are a matter of the edges alone, and they are the ones the
contexts of the graph module give.
-/

set_option linter.unusedSectionVars false

namespace Estoc.Continuity.Units

open Utf16 (JsString compareNats codePoints)
open UnionFind (Parents Connects Paired Rooted)

theorem compareUtf8_eq_comap : compareUtf8 = Cmp.comap codePoints compareNats := by
  funext a b
  exact compareUtf8_eq a b

instance : Std.TransCmp compareUtf8 := by
  rw [compareUtf8_eq_comap]
  infer_instance

instance : Std.LawfulEqCmp compareUtf8 := by
  rw [compareUtf8_eq_comap]
  exact Cmp.lawful_comap fun _ _ h => Utf16.codePoints_injective h

/-! ## The class -/

structure Contexts where
  parent : Parents JsString

namespace Contexts

/-- The root above a key, and the class with the way there compressed. -/
def find (s : Contexts) (key : JsString) : JsString × Contexts :=
  ((UnionFind.find s.parent key).1, ⟨(UnionFind.find s.parent key).2⟩)

def union (s : Contexts) (a b : JsString) : Contexts :=
  ⟨UnionFind.union compareUtf8 s.parent a b⟩

def root (s : Contexts) (key : JsString) : JsString × Contexts :=
  if s.parent.has key then s.find key else (key, s)

/-- The text a channel is kept under. -/
def key (c : Channel) : JsString := unitsOf (channelKey c)

def new {ι : Type} (g : Graph ι) (replaces : Side) : Contexts :=
  g.edges.foldl
    (fun s e => if e.replaces = replaces then s.union (key e.from) (key e.to) else s)
    ⟨OMap.empty⟩

inductive Call where
  | union (a b : JsString)
  | root (key : JsString)
deriving DecidableEq

def call (s : Contexts) : Call → Contexts
  | .union a b => s.union a b
  | .root key => (s.root key).2

def after (calls : List Call) : Contexts := calls.foldl call ⟨OMap.empty⟩

def Call.pair : Call → Option (JsString × JsString)
  | .union a b => some (a, b)
  | .root _ => none

/-- What the unions among some calls were handed. -/
def united (calls : List Call) : List (JsString × JsString) := calls.filterMap Call.pair

/-! ## What it answers -/

/-- An undirected path over what is joined, of any length. -/
def Path (joined : JsString → JsString → Prop) : JsString → JsString → Prop :=
  Relation.ReflTransGen (Relation.SymmGen joined)

theorem path_eq (joined : JsString → JsString → Prop) : Path joined = Relation.EqvGen joined :=
  Relation.EqvGen.reflTransGen_symmGen joined

structure Answers (s : Contexts) (joined : JsString → JsString → Prop) : Prop where
  same : ∀ a b, (s.root a).1 = (s.root b).1 ↔ Path joined a b
  least : ∀ a b, Path joined a b → (compareUtf8 (s.root a).1 b).isLE
  within : ∀ a, Path joined a (s.root a).1
  /-- the first loop of a search stops at a key no parent leads on from -/
  climbs : ∀ a, Rooted s.parent a (s.find a).1
  /-- and the second one, which compresses, stops there too -/
  compresses : ∀ a, (Loop.run (UnionFind.compressStep (s.find a).1) s.parent.size
    (a, s.parent)).1 = (s.find a).1
  keeps : ∀ a b, ((s.root a).2.root b).1 = (s.root b).1

theorem root_fst (s : Contexts) (a : JsString) : (s.root a).1 = UnionFind.root s.parent a := by
  rw [root, UnionFind.root]
  split
  · rfl
  · rfl

/-- A question leaves what is connected as it was. -/
theorem connects_root {s : Contexts} {pairs : List (JsString × JsString)}
    (h : Connects compareUtf8 s.parent pairs) (a : JsString) :
    Connects compareUtf8 (s.root a).2.parent pairs := by
  rw [root]
  split
  · next hhas => exact h.find (OMap.has_eq_true.mp hhas)
  · exact h

theorem answers_of_connects {s : Contexts} {pairs : List (JsString × JsString)}
    (h : Connects compareUtf8 s.parent pairs) : Answers s (Paired pairs) where
  same a b := by
    rw [root_fst, root_fst, path_eq]
    exact h.root_eq_root
  least a b hab := by
    rw [root_fst]
    rw [path_eq] at hab
    exact h.root_le hab
  within a := by
    rw [root_fst, path_eq]
    exact h.root_mem a
  climbs a := UnionFind.rooted_findRoot h.forest a
  compresses a := UnionFind.compress_ends h.forest a
  keeps a b := by
    -- the root before is the least of the class, and so is the root after
    have h' := connects_root h a
    rw [root_fst, root_fst]
    have hle := h'.root_le (h.root_mem b)
    have hge := h.root_le (h'.root_mem b)
    exact @Std.LawfulEqCmp.eq_of_compare _ compareUtf8 _ _ _
      (Std.OrientedCmp.isLE_antisymm hle hge)

theorem connects_call {s : Contexts} {pairs : List (JsString × JsString)}
    (h : Connects compareUtf8 s.parent pairs) (c : Call) :
    Connects compareUtf8 (s.call c).parent (pairs ++ c.pair.toList) := by
  cases c with
  | union a b => exact h.union a b
  | root a =>
      rw [Call.pair, Option.toList_none, List.append_nil]
      exact connects_root h a

theorem connects_after (calls : List Call) :
    Connects compareUtf8 (after calls).parent (united calls) := by
  induction calls using List.reverseRecOn with
  | nil => exact UnionFind.connects_empty
  | append_singleton calls c ih =>
      have hunited : united (calls ++ [c]) = united calls ++ c.pair.toList := by
        rw [united, List.filterMap_append]
        cases c <;> rfl
      rw [hunited, after, List.foldl_append]
      exact connects_call ih c

/-! ## The constructor -/

/-- What an edge of the kind asked for joins. -/
def Joined {ι : Type} (g : Graph ι) (replaces : Side) (x y : JsString) : Prop :=
  ∃ e ∈ g.edges, e.replaces = replaces ∧ key e.from = x ∧ key e.to = y

def joinCalls {ι : Type} (edges : List (Edge ι)) (replaces : Side) : List Call :=
  (edges.filter fun e => e.replaces = replaces).map fun e => .union (key e.from) (key e.to)

theorem new_eq_after {ι : Type} (g : Graph ι) (replaces : Side) :
    new g replaces = after (joinCalls g.edges replaces) := by
  rw [new, after, joinCalls, List.foldl_map, List.foldl_filter]
  simp only [decide_eq_true_eq]
  rfl

theorem paired_joinCalls {ι : Type} (g : Graph ι) (replaces : Side) :
    Paired (united (joinCalls g.edges replaces)) = Joined g replaces := by
  funext x y
  refine propext ?_
  rw [Paired, united, joinCalls, List.filterMap_map, List.mem_filterMap]
  constructor
  · rintro ⟨e, he, hxy⟩
    obtain ⟨he, hside⟩ := List.mem_filter.mp he
    obtain ⟨hx, hy⟩ := Prod.mk.inj (Option.some.inj hxy)
    exact ⟨e, he, of_decide_eq_true hside, hx, hy⟩
  · rintro ⟨e, he, hside, rfl, rfl⟩
    exact ⟨e, List.mem_filter.mpr ⟨he, decide_eq_true hside⟩, rfl⟩

theorem answers_new {ι : Type} (g : Graph ι) (replaces : Side) :
    Answers (new g replaces) (Joined g replaces) := by
  rw [new_eq_after, ← paired_joinCalls]
  exact answers_of_connects (connects_after _)

/-- After any unions in any order, with any questions asked between them, and so after the
constructor has read the edges of one kind. -/
theorem one_root_for_each_context :
    (∀ calls : List Call, Answers (after calls) fun x y => (x, y) ∈ united calls) ∧
      ∀ (ι : Type) (g : Graph ι) (replaces : Side), Answers (new g replaces) (Joined g replaces) :=
  ⟨fun calls => answers_of_connects (connects_after calls), fun _ g replaces =>
    answers_new g replaces⟩

/-! ## The contexts of the graph module -/

theorem key_injective : Function.Injective key := fun _ _ h =>
  channelKey_injective (unitsOf_injective h)

section

variable {ι : Type} [DecidableEq ι]

/-- What the graph module's contexts unite. -/
def joinPairs (g : Graph ι) (replaces : Side) : List (Channel × Channel) :=
  (g.edges.filter fun e => e.replaces = replaces).map fun e => (e.from, e.to)

theorem joined_iff {g : Graph ι} {replaces : Side} {x y : JsString} :
    Joined g replaces x y ↔ ∃ a b, Paired (joinPairs g replaces) a b ∧ key a = x ∧ key b = y := by
  constructor
  · rintro ⟨e, he, hside, hx, hy⟩
    refine ⟨e.from, e.to, List.mem_map.mpr ⟨e, ?_, rfl⟩, hx, hy⟩
    exact List.mem_filter.mpr ⟨he, decide_eq_true hside⟩
  · rintro ⟨a, b, hab, hx, hy⟩
    obtain ⟨e, he, heq⟩ := List.mem_map.mp hab
    obtain ⟨rfl, rfl⟩ := Prod.mk.inj heq
    obtain ⟨he, hside⟩ := List.mem_filter.mp he
    exact ⟨e, he, of_decide_eq_true hside, hx, hy⟩

end

end Contexts

end Estoc.Continuity.Units
