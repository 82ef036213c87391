import Estoc.Lib.OMap
import Mathlib.Algebra.Order.BigOperators.Group.List
import Mathlib.Algebra.Order.Ring.Nat

/-!
# Tallies

What is kept of rows that are kept elsewhere: how much those of each key weigh, and how much all of
them do. A tally is changed as the rows are, a row at a time or a key at a time; it adds up when
what it says of all is what it says of each, and it is right when it says of each key what the rows
of that key weigh.
-/

structure Tally (κ : Type*) where
  counts : OMap κ Nat
  total : Nat

namespace Tally

variable {κ : Type*} [DecidableEq κ] {tally : Tally κ}

def empty : Tally κ := ⟨.empty, 0⟩

def count (tally : Tally κ) (key : κ) : Nat := (tally.counts.get? key).getD 0

def add (tally : Tally κ) (key : κ) (weight : Nat) : Tally κ :=
  ⟨tally.counts.set key (tally.count key + weight), tally.total + weight⟩

def drop (tally : Tally κ) (key : κ) : Tally κ :=
  ⟨tally.counts.erase key, tally.total - tally.count key⟩

theorem get?_add (tally : Tally κ) (key other : κ) (weight : Nat) : (tally.add key weight).counts.get? other =
    if other = key then some (tally.count key + weight) else tally.counts.get? other :=
  OMap.get?_set _ _ _ _

theorem get?_drop (tally : Tally κ) (key other : κ) : (tally.drop key).counts.get? other =
    if other = key then none else tally.counts.get? other :=
  OMap.get?_erase _ _ _

theorem count_add (tally : Tally κ) (key : κ) (weight : Nat) :
    (tally.add key weight).count key = tally.count key + weight := by
  rw [count, get?_add, if_pos rfl, Option.getD_some]

theorem count_drop (tally : Tally κ) (key : κ) : (tally.drop key).count key = 0 := by
  rw [count, get?_drop, if_pos rfl, Option.getD_none]

/-! ## What adds up -/

/-- What is said of all is what is said of each. -/
def AddsUp (tally : Tally κ) : Prop := tally.total = tally.counts.values.sum

omit [DecidableEq κ] in
theorem addsUp_empty : (empty : Tally κ).AddsUp := rfl

/-- What is said of a key, and of the others. -/
theorem sum_erase (tally : Tally κ) (key : κ) :
    tally.counts.values.sum = tally.count key + (tally.counts.erase key).values.sum := by
  cases hget : tally.counts.get? key with
  | none =>
      rw [count, hget, Option.getD_none, Nat.zero_add, OMap.erase_of_notMem (OMap.get?_eq_none.mp hget)]
  | some weight =>
      rw [count, hget, Option.getD_some, (OMap.perm_values_erase hget).sum_eq, List.sum_cons]

theorem AddsUp.add (h : tally.AddsUp) (key : κ) (weight : Nat) : (tally.add key weight).AddsUp := by
  have hsum := tally.sum_erase key
  have hset : (tally.counts.set key (tally.count key + weight)).values.sum =
      tally.count key + weight + (tally.counts.erase key).values.sum := by
    rw [(OMap.perm_values_set _ _ _).sum_eq, List.sum_cons]
  change tally.total + weight = (tally.counts.set key (tally.count key + weight)).values.sum
  rw [hset, h]
  omega

theorem AddsUp.drop (h : tally.AddsUp) (key : κ) : (tally.drop key).AddsUp := by
  have hsum := tally.sum_erase key
  change tally.total - tally.count key = (tally.counts.erase key).values.sum
  rw [h]
  omega

/-! ## What is right -/

/-- What the rows of a key weigh. -/
def weightOf (rows : List (κ × Nat)) (key : κ) : Nat := ((rows.filter (·.1 = key)).map Prod.snd).sum

theorem weightOf_cons (row : κ × Nat) (rows : List (κ × Nat)) (key : κ) :
    weightOf (row :: rows) key = (if row.1 = key then row.2 else 0) + weightOf rows key := by
  rw [weightOf, List.filter_cons]
  by_cases h : row.1 = key
  · rw [if_pos (decide_eq_true h), if_pos h]
    rfl
  · rw [if_neg (by simpa using h), if_neg h, Nat.zero_add]
    rfl

theorem weightOf_append (rows more : List (κ × Nat)) (key : κ) :
    weightOf (rows ++ more) key = weightOf rows key + weightOf more key := by
  rw [weightOf, List.filter_append, List.map_append, List.sum_append]
  rfl

omit [DecidableEq κ] in
/-- Rows of some keys, and the others. -/
theorem sum_split (rows : List (κ × Nat)) (which : κ → Prop) [DecidablePred which] :
    (rows.map Prod.snd).sum = ((rows.filter fun row => which row.1).map Prod.snd).sum +
      ((rows.filter fun row => ¬ which row.1).map Prod.snd).sum := by
  induction rows with
  | nil => rfl
  | cons row rest ih =>
      rw [List.map_cons, List.sum_cons, ih, List.filter_cons, List.filter_cons]
      by_cases h : which row.1
      · rw [if_pos (decide_eq_true h), if_neg (by simpa using h), List.map_cons, List.sum_cons, Nat.add_assoc]
      · rw [if_neg (by simpa using h), if_pos (by simpa using h), List.map_cons, List.sum_cons]
        omega

/-- A row weighs no more than all of its key. -/
theorem le_weightOf {rows : List (κ × Nat)} {row : κ × Nat} (h : row ∈ rows) : row.2 ≤ weightOf rows row.1 :=
  List.le_sum_of_mem (List.mem_map_of_mem (List.mem_filter.mpr ⟨h, decide_eq_true rfl⟩))

theorem weightOf_filter (rows : List (κ × Nat)) (which : κ → Prop) [DecidablePred which] (key : κ) :
    weightOf (rows.filter fun row => which row.1) key = if which key then weightOf rows key else 0 := by
  rw [weightOf, List.filter_filter]
  split
  · next hwhich =>
      rw [weightOf]
      congr 2
      refine List.filter_congr fun row _ => ?_
      by_cases h : row.1 = key
      · simp [h, hwhich]
      · simp [h]
  · next hnot =>
      rw [List.filter_eq_nil_iff.mpr fun row _ => ?_]
      · rfl
      · rw [Bool.and_eq_true_iff]
        exact fun ⟨hkey, hwhich⟩ => hnot (of_decide_eq_true hkey ▸ of_decide_eq_true hwhich)

theorem weightOf_filter_ne (rows : List (κ × Nat)) (key other : κ) : weightOf (rows.filter (·.1 ≠ key)) other =
    if other = key then 0 else weightOf rows other := by
  rw [weightOf_filter rows (· ≠ key) other]
  by_cases h : other = key
  · rw [if_pos h, if_neg (not_not_intro h)]
  · rw [if_neg h, if_pos h]

/-- Where what is said of each key is right, what is said of all is. -/
theorem sum_of_weights {rows : List (κ × Nat)} {counts : OMap κ Nat}
    (h : ∀ key, weightOf rows key = (counts.get? key).getD 0) :
    (rows.map Prod.snd).sum = counts.values.sum := by
  obtain ⟨entries, hnodup⟩ := counts
  induction entries generalizing rows with
  | nil =>
      have hzero : ∀ row ∈ rows, row.2 = 0 := by
        intro row hrow
        have hle := le_weightOf hrow
        rw [h row.1] at hle
        exact Nat.le_zero.mp hle
      exact List.sum_eq_zero fun n hn => by
        obtain ⟨row, hrow, rfl⟩ := List.mem_map.mp hn
        exact hzero row hrow
  | cons entry rest ih =>
      obtain ⟨key, weight⟩ := entry
      have hrest : (rest.map Prod.fst).Nodup := (List.nodup_cons.mp hnodup).2
      have hkey : key ∉ rest.map Prod.fst := (List.nodup_cons.mp hnodup).1
      have hget : ∀ other, OMap.get? ⟨(key, weight) :: rest, hnodup⟩ other =
          if other = key then some weight else OMap.get? ⟨rest, hrest⟩ other := by
        intro other
        rw [OMap.get?, List.lookup_cons]
        by_cases hother : other = key
        · rw [if_pos hother, beq_iff_eq.mpr hother]
        · rw [if_neg hother, beq_eq_false_iff_ne.mpr hother, OMap.get?]
      have hweight : ((rows.filter (·.1 = key)).map Prod.snd).sum = weight := by
        rw [← weightOf, h key, hget, if_pos rfl, Option.getD_some]
      rw [sum_split rows (· = key), hweight, ih hrest fun other => ?_]
      · rfl
      · rw [weightOf_filter_ne]
        split
        · next heq =>
            subst heq
            rw [(OMap.get?_eq_none (m := ⟨rest, hrest⟩)).mpr hkey]
            rfl
        · next hne => rw [h, hget, if_neg hne]

/-- Where what is said of the keys there are is right, what is not said of any is all there is besides. -/
theorem sum_of_keys {rows : List (κ × Nat)} {counts : OMap κ Nat}
    (h : ∀ key ∈ counts.keys, weightOf rows key = (counts.get? key).getD 0) :
    (rows.map Prod.snd).sum =
      counts.values.sum + ((rows.filter fun row => row.1 ∉ counts.keys).map Prod.snd).sum := by
  have hsum : ((rows.filter fun row => row.1 ∈ counts.keys).map Prod.snd).sum = counts.values.sum := by
    refine sum_of_weights fun key => ?_
    rw [weightOf_filter rows (· ∈ counts.keys) key]
    split
    · next hin => exact h key hin
    · next hnot => rw [OMap.get?_eq_none.mpr hnot, Option.getD_none]
  rw [sum_split rows (· ∈ counts.keys), hsum]

end Tally
