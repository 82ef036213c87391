import Mathlib.Data.Set.Subsingleton
import Estoc.Continuity.Search

/-!
# The cycles of a graph

What Tarjan's algorithm finds in a graph whose edges end at its vertices: the
strongly connected sets of more than one channel. The components come out in the
order they were completed and their members in the order they left the stack;
both are put in canonical order afterwards, and since no two components share a
channel their first channels already tell them apart.
-/

namespace Estoc.Continuity

set_option linter.unusedSectionVars false

variable {ι : Type} [DecidableEq ι]

namespace Graph

/-- Every edge ends at vertices. -/
def Ended (g : Graph ι) : Prop := ∀ k ∈ g.out.keys, k.1 ∈ g.vertices ∧ k.2 ∈ g.vertices

/-- The channels one edge leads to. -/
def successors (g : Graph ι) (c : Channel) : List Channel := (g.from c).map Edge.to

section Components

variable {g : Graph ι}

theorem path_iff {a b : Channel} : Tarjan.Path g.successors a b ↔ g.Reaches none a b := by
  have h : Tarjan.Edge g.successors = g.Leads none := by
    funext x y
    refine propext ?_
    rw [Tarjan.Edge, successors, List.mem_map]
    constructor
    · rintro ⟨e, he, rfl⟩
      obtain ⟨he, hf⟩ := mem_from.mp he
      exact ⟨e, he, hf, rfl, ofKind_none e⟩
    · rintro ⟨e, he, hf, rfl, _⟩
      exact ⟨e, mem_from.mpr ⟨he, hf⟩, rfl⟩
  rw [Tarjan.Path, h]

theorem Ended.closed (h : g.Ended) : ∀ v ∈ g.vertices, ∀ w ∈ g.successors v, w ∈ g.vertices := by
  intro v _ w hw
  obtain ⟨e, he, rfl⟩ := List.mem_map.mp hw
  exact (h _ (OMap.mem_keys.mpr ⟨_, mem_edges.mp (mem_from.mp he).1⟩)).2

theorem components_partition (h : g.Ended) :
    Tarjan.Partition g.vertices g.successors (Tarjan.components g.vertices g.successors) :=
  Tarjan.components_spec h.closed

theorem mem_cycles {l : List Channel} : l ∈ g.cycles ↔
    ∃ c ∈ Tarjan.components g.vertices g.successors, 1 < c.length ∧
      Cmp.sortBy compareChannels c = l := by
  rw [cycles, Cmp.mem_sortBy, List.mem_map]
  simp only [List.mem_filter, decide_eq_true_eq, and_assoc]
  rfl

/-- A component of more than one channel has another member for each. -/
theorem exists_other {l : List Channel} (hnodup : l.Nodup) (hlen : 1 < l.length) {a : Channel} :
    ∃ d ∈ l, d ≠ a := by
  match l, hlen with
  | x :: y :: l, _ =>
      rw [List.nodup_cons] at hnodup
      by_cases hx : x = a
      · exact ⟨y, by simp, fun hy => hnodup.1 (by rw [hx, ← hy]; exact List.mem_cons_self)⟩
      · exact ⟨x, List.mem_cons_self, hx⟩

theorem one_lt_length {l : List Channel} {a b : Channel} (ha : a ∈ l) (hb : b ∈ l)
    (hne : a ≠ b) : 1 < l.length := by
  match l, ha, hb with
  | [x], ha, hb =>
      rw [List.mem_singleton] at ha hb
      exact absurd (ha.trans hb.symm) hne
  | _ :: _ :: _, _, _ => rw [List.length_cons, List.length_cons]; omega

end Components

/-! ## Canonical order -/

/-- What is nowhere compared equal stands in strict order once sorted. -/
theorem lt_of_sortBy {α : Type} {cmp : α → α → Ordering} [Std.TransCmp cmp] {l : List α}
    (h : l.Pairwise fun a b => cmp a b ≠ .eq) :
    (Cmp.sortBy cmp l).Pairwise fun a b => cmp a b = .lt := by
  have hne : (Cmp.sortBy cmp l).Pairwise fun a b => cmp a b ≠ .eq := by
    refine (Cmp.sortBy_perm l).symm.pairwise h fun {a b} hab hba => hab ?_
    rw [@Std.OrientedCmp.eq_swap _ cmp _ a b, hba]
    rfl
  refine (Cmp.sortBy_sorted l).imp₂ (fun a b hle hne => ?_) hne
  cases hc : cmp a b with
  | lt => rfl
  | eq => exact absurd hc hne
  | gt => rw [hc] at hle; cases hle

theorem sorted_members {l : List Channel} (h : l.Nodup) :
    (Cmp.sortBy compareChannels l).Pairwise fun a b => compareChannels a b = .lt :=
  lt_of_sortBy (h.imp fun hne heq => hne (Std.LawfulEqCmp.eq_of_compare heq))

/-- The order of the first members, of lists that have one. -/
def compareFirst (a b : List Channel) : Ordering :=
  match a.head?, b.head? with
  | some a, some b => compareChannels a b
  | _, _ => .eq

/-- The one list stands before the other by its first member. -/
def Precedes (a b : List Channel) : Prop :=
  ∃ x y, a.head? = some x ∧ b.head? = some y ∧ compareChannels x y = .lt

/-- Lists that share no channel stand in strict order of their first members. -/
theorem sorted_firsts {ls : List (List Channel)} (hne : ∀ l ∈ ls, l ≠ [])
    (hdisjoint : ls.Pairwise List.Disjoint) : (Cmp.sortBy compareFirst ls).Pairwise Precedes := by
  -- on lists with a first member the order is the order of those members
  let first : {l : List Channel // l ≠ []} → Channel := fun l => l.1.head l.2
  have hcmp : Cmp.comap Subtype.val compareFirst = Cmp.comap first compareChannels := by
    funext a b
    simp only [Cmp.comap, compareFirst, first, List.head?_eq_some_head a.2,
      List.head?_eq_some_head b.2]
  have htrans : Std.TransCmp (Cmp.comap (Subtype.val : {l : List Channel // l ≠ []} → _)
      compareFirst) := by
    rw [hcmp]
    infer_instance
  have hattached : (ls.attachWith (· ≠ []) hne).map Subtype.val = ls := 
    List.attachWith_map_subtype_val _
  rw [← hattached, Cmp.sortBy_map, List.pairwise_map]
  rw [← hattached, List.pairwise_map] at hdisjoint
  refine (lt_of_sortBy (hdisjoint.imp fun {a b} hab heq => ?_)).imp fun {a b} hlt => ?_
  · rw [hcmp] at heq
    have hsame : first a = first b := Std.LawfulEqCmp.eq_of_compare heq
    have hb : first a ∈ b.1 := hsame ▸ List.head_mem b.2
    exact hab (List.head_mem a.2) hb
  · rw [hcmp] at hlt
    exact ⟨_, _, List.head?_eq_some_head a.2, List.head?_eq_some_head b.2, hlt⟩

theorem cycles_eq (g : Graph ι) : g.cycles = Cmp.sortBy compareFirst
    (((Tarjan.components g.vertices g.successors).filter fun c => 1 < c.length).map
      (Cmp.sortBy compareChannels)) := rfl

/-! ## The strongly connected sets -/

/-- A set of channels each of which leads to each other, and none more could be added. -/
def Component (g : Graph ι) (s : Set Channel) : Prop :=
  ∃ c ∈ g.vertices, s = {d | g.Reaches none c d ∧ g.Reaches none d c}

section Spec

variable {g : Graph ι}

theorem component_iff (h : g.Ended) {s : Set Channel} :
    (g.Component s ∧ s.Nontrivial) ↔ ∃ l ∈ g.cycles, {c | c ∈ l} = s := by
  have hpart := components_partition h
  have hset : ∀ {comp a}, comp ∈ Tarjan.components g.vertices g.successors → a ∈ comp →
      {d | g.Reaches none a d ∧ g.Reaches none d a} = {d | d ∈ comp} := by
    intro comp a hcomp ha
    ext d
    rw [Set.mem_ofPred_eq, Set.mem_ofPred_eq, hpart.component hcomp ha, path_iff, path_iff]
  constructor
  · rintro ⟨⟨c, hc, rfl⟩, x, hx, y, hy, hxy⟩
    obtain ⟨comp, hcomp, hmem⟩ := hpart.mem.mp hc
    rw [hset hcomp hmem] at hx hy ⊢
    refine ⟨_, mem_cycles.mpr ⟨comp, hcomp, one_lt_length hx hy hxy, rfl⟩, ?_⟩
    ext d
    exact Cmp.mem_sortBy
  · rintro ⟨l, hl, rfl⟩
    obtain ⟨comp, hcomp, hlen, rfl⟩ := mem_cycles.mp hl
    obtain ⟨a, ha⟩ := List.exists_mem_of_ne_nil _ (hpart.nodup hcomp).2
    obtain ⟨b, hb, hne⟩ := exists_other (hpart.nodup hcomp).1 hlen
    refine ⟨⟨a, hpart.mem.mpr ⟨comp, hcomp, ha⟩, ?_⟩, b, Cmp.mem_sortBy.mpr hb, a,
      Cmp.mem_sortBy.mpr ha, hne⟩
    rw [hset hcomp ha]
    ext d
    exact Cmp.mem_sortBy

theorem cycles_sorted (h : g.Ended) :
    (∀ l ∈ g.cycles, l.Pairwise fun a b => compareChannels a b = .lt) ∧
      g.cycles.Pairwise Precedes := by
  have hpart := components_partition h
  refine ⟨fun l hl => ?_, ?_⟩
  · obtain ⟨comp, hcomp, _, rfl⟩ := mem_cycles.mp hl
    exact sorted_members (hpart.nodup hcomp).1
  · rw [cycles_eq]
    refine sorted_firsts (fun l hl => ?_) ?_
    · obtain ⟨comp, hcomp, rfl⟩ := List.mem_map.mp hl
      obtain ⟨a, ha⟩ := List.exists_mem_of_ne_nil _ (hpart.nodup (List.mem_of_mem_filter hcomp)).2
      exact List.ne_nil_of_mem (Cmp.mem_sortBy.mpr ha)
    · rw [List.pairwise_map]
      refine (hpart.disjoint.filter _).imp fun {a b} hab x hx hy => ?_
      exact hab (Cmp.mem_sortBy.mp hx) (Cmp.mem_sortBy.mp hy)

end Spec

/-! ## Graphs as they are built -/

/-- A call that builds a graph. -/
inductive Call (ι : Type) where
  | vertex (c : Channel)
  | add (a b : Channel) (replaces : Side) (support : Finset ι) (derived : Bool)

def Call.run (g : Graph ι) : Call ι → Graph ι
  | vertex c => g.vertex c
  | add a b replaces support derived => g.add a b replaces support derived

/-- What a sequence of calls builds. -/
def built (admits : Channel → Bool) (calls : List (Call ι)) : Graph ι :=
  calls.foldl Call.run (new admits)

theorem ended_new {admits : Channel → Bool} : (new admits : Graph ι).Ended := by
  intro k h
  simp [new, OMap.keys, OMap.empty] at h

theorem Ended.run {g : Graph ι} (h : g.Ended) (call : Call ι) : (call.run g).Ended := by
  cases call with
  | vertex c =>
      intro k hk
      rw [Call.run, vertex_out] at hk
      exact ⟨mem_vertex.mpr (Or.inl (h k hk).1), mem_vertex.mpr (Or.inl (h k hk).2)⟩
  | add a b replaces support derived =>
      rw [Call.run]
      by_cases hadm : g.admits a = true ∧ g.admits b = true
      · intro k hk
        rw [add_out hadm, OMap.mem_keys_set] at hk
        rw [add_vertices hadm, add_vertices hadm]
        rcases hk with hk | rfl
        · exact ⟨Or.inl (h k hk).1, Or.inl (h k hk).2⟩
        · exact ⟨Or.inr (Or.inl rfl), Or.inr (Or.inr rfl)⟩
      · rw [add_of_not_admits hadm]
        exact h

theorem ended_built (admits : Channel → Bool) (calls : List (Call ι)) :
    (built admits calls).Ended := by
  have h : ∀ (calls : List (Call ι)) (g : Graph ι), g.Ended → (calls.foldl Call.run g).Ended := by
    intro calls
    induction calls with
    | nil => exact fun _ hg => hg
    | cons call calls ih => exact fun g hg => ih _ (hg.run call)
  exact h calls _ ended_new

/-- The cycles are the strongly connected sets of more than one channel, each once and
each in canonical order, in the order of their first channels, and every search for them
ends because nothing is left to see. -/
theorem cycles_are_components (admits : Channel → Bool) (calls : List (Call ι)) :
    let g := built admits calls
    (∀ before root after, g.vertices = before ++ root :: after →
      Tarjan.step g.successors (Tarjan.visit g.vertices g.successors
        (before.foldl (Tarjan.visit g.vertices g.successors) Tarjan.init) root) = none) ∧
    (∀ s, (g.Component s ∧ s.Nontrivial) ↔ ∃ l ∈ g.cycles, {c | c ∈ l} = s) ∧
    (∀ l ∈ g.cycles, l.Pairwise fun a b => compareChannels a b = .lt) ∧
    g.cycles.Pairwise Precedes := by
  intro g
  have hended : g.Ended := ended_built admits calls
  obtain ⟨hmembers, hfirsts⟩ := cycles_sorted hended
  exact ⟨fun _ _ _ hsplit => Tarjan.visits_end hended.closed hsplit,
    fun _ => component_iff hended, hmembers, hfirsts⟩

end Graph

end Estoc.Continuity
