import Mathlib.Data.List.Sort
import Mathlib.Order.Compare

/-!
# Sorting by a comparator

Comparators as three-way functions, read through a function of the values
compared, and the stable sort by one. A comparator that is transitive and
tells different values apart sorts every permutation of a list into the same
list: `sortBy_eq_of_perm` is why a list sorted once no longer depends on the
order it was collected in.
-/

namespace Cmp

variable {α β : Type*}

/-- `cmp` read through `f`. -/
def comap (f : α → β) (cmp : β → β → Ordering) (a b : α) : Ordering :=
  cmp (f a) (f b)

instance instTransCmpComap {f : α → β} {cmp : β → β → Ordering}
    [Std.TransCmp cmp] : Std.TransCmp (comap f cmp) where
  eq_swap {a b} := @Std.OrientedCmp.eq_swap _ cmp _ (f a) (f b)
  isLE_trans {a b c} h h' :=
    @Std.TransCmp.isLE_trans _ cmp _ (f a) (f b) (f c) h h'

theorem lawful_comap {f : α → β} (hf : Function.Injective f)
    {cmp : β → β → Ordering} [Std.LawfulEqCmp cmp] :
    Std.LawfulEqCmp (comap f cmp) where
  compare_self {a} := @Std.ReflCmp.compare_self _ cmp _ (f a)
  eq_of_compare {_ _} h := hf (@Std.LawfulEqCmp.eq_of_compare _ cmp _ _ _ h)

variable (cmp : α → α → Ordering)

/-- The stable sort by `cmp`. -/
def sortBy (l : List α) : List α := l.insertionSort fun a b => (cmp a b).isLE

variable {cmp}

theorem sortBy_perm (l : List α) : (sortBy cmp l).Perm l :=
  List.perm_insertionSort _ l

@[simp] theorem mem_sortBy {l : List α} {a : α} : a ∈ sortBy cmp l ↔ a ∈ l :=
  (sortBy_perm l).mem_iff

theorem sortBy_nodup {l : List α} : (sortBy cmp l).Nodup ↔ l.Nodup :=
  (sortBy_perm l).nodup_iff

@[simp] theorem length_sortBy (l : List α) : (sortBy cmp l).length = l.length :=
  (sortBy_perm l).length_eq

theorem sortBy_sorted [Std.TransCmp cmp] (l : List α) :
    (sortBy cmp l).Pairwise fun a b => (cmp a b).isLE := by
  have : IsTrans α fun a b => (cmp a b).isLE = true :=
    ⟨fun _ _ _ => Std.TransCmp.isLE_trans⟩
  have : Std.Total fun a b => (cmp a b).isLE = true := by
    refine ⟨fun a b => ?_⟩
    rw [@Std.OrientedCmp.eq_swap _ cmp _ b a]
    cases cmp a b <;> decide
  exact List.pairwise_insertionSort _ l

/-- A comparator that tells the members of a list apart puts them in one order. -/
theorem eq_of_sorted [Std.TransCmp cmp] {l l' : List α}
    (heq : ∀ a ∈ l, ∀ b ∈ l, cmp a b = .eq → a = b) (h : l.Perm l')
    (hl : l.Pairwise fun a b => (cmp a b).isLE) (hl' : l'.Pairwise fun a b => (cmp a b).isLE) :
    l = l' := by
  refine List.Perm.eq_of_pairwise ?_ hl hl' h
  intro a b ha hb hab hba
  exact heq a ha b (h.mem_iff.mpr hb) (Std.OrientedCmp.isLE_antisymm hab hba)

/-- A lawful comparator sorts every order of a list into one list. -/
theorem sortBy_eq_of_perm [Std.TransCmp cmp] [Std.LawfulEqCmp cmp] {l l' : List α}
    (h : l.Perm l') : sortBy cmp l = sortBy cmp l' :=
  eq_of_sorted (fun _ _ _ _ hc => @Std.LawfulEqCmp.eq_of_compare _ cmp _ _ _ hc)
    (((sortBy_perm l).trans h).trans (sortBy_perm l').symm) (sortBy_sorted l) (sortBy_sorted l')

/-- What passes of a value put in order is that value put in order of what passes. -/
theorem filter_orderedInsert [Std.TransCmp cmp] (p : α → Bool) (a : α) {l : List α}
    (hl : l.Pairwise fun a b => (cmp a b).isLE) :
    (l.orderedInsert (fun a b => (cmp a b).isLE) a).filter p =
      if p a then (l.filter p).orderedInsert (fun a b => (cmp a b).isLE) a else l.filter p := by
  induction l with
  | nil => rw [List.orderedInsert_nil, List.filter_cons, List.filter_nil, List.orderedInsert_nil]
  | cons b l ih =>
      obtain ⟨hb, hl⟩ := List.pairwise_cons.mp hl
      rw [List.orderedInsert_cons]
      by_cases hab : (cmp a b).isLE
      · -- nothing that passes stands before `a`
        rw [if_pos hab, List.filter_cons]
        split
        · cases hpassed : (b :: l).filter p with
          | nil => rfl
          | cons c passed =>
              have hc : c ∈ b :: l := List.mem_of_mem_filter (hpassed ▸ List.mem_cons_self)
              have hac : (cmp a c).isLE := by
                rcases List.mem_cons.mp hc with rfl | hc
                · exact hab
                · exact Std.TransCmp.isLE_trans hab (hb c hc)
              rw [List.orderedInsert_cons, if_pos hac]
        · rfl
      · rw [if_neg hab, List.filter_cons, ih hl, List.filter_cons]
        cases p b <;> cases p a <;> simp [hab]

/-- A stable sort of what passes is what passes of the sorted. -/
theorem filter_sortBy [Std.TransCmp cmp] (p : α → Bool) (l : List α) :
    (sortBy cmp l).filter p = sortBy cmp (l.filter p) := by
  induction l with
  | nil => rfl
  | cons a l ih =>
      have hinsert : sortBy cmp (a :: l) =
          (sortBy cmp l).orderedInsert (fun a b => (cmp a b).isLE) a := rfl
      rw [hinsert, filter_orderedInsert p a (sortBy_sorted l), ih, List.filter_cons]
      cases p a <;> rfl

/-- A list in order is left as it is. -/
theorem sortBy_of_sorted {l : List α} (h : l.Pairwise fun a b => (cmp a b).isLE) :
    sortBy cmp l = l := List.Pairwise.insertionSort_eq h

/-- Sorting values read through a function is sorting them by what it reads. -/
theorem sortBy_map {f : α → β} {cmp : β → β → Ordering} (l : List α) :
    sortBy cmp (l.map f) = (sortBy (comap f cmp) l).map f :=
  (List.map_insertionSort _ _ f l fun _ _ _ _ => Iff.rfl).symm

end Cmp
