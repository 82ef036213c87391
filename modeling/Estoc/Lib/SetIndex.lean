import Estoc.Lib.OMap

/-!
# Indexes

A map from keys to the things filed under them, each set of things in the order they came
and no set empty. `Exact` says that an index files things under their keys and nothing else;
it holds of the empty index, and of an index a thing was added to or removed from when the
one key of that thing changed alike.
-/

set_option linter.unusedSectionVars false

namespace SetIndex

variable {κ α : Type} [DecidableEq κ] [DecidableEq α]

/-- What is filed under a key. -/
def filed (index : OMap κ (List α)) (k : κ) : List α := (index.get? k).getD []

def add (index : OMap κ (List α)) (k : κ) (a : α) : OMap κ (List α) :=
  let set := filed index k
  index.set k (if a ∈ set then set else set ++ [a])

/-- A set that has become empty goes. -/
def remove (index : OMap κ (List α)) (k : κ) (a : α) : OMap κ (List α) :=
  match index.get? k with
  | none => index
  | some set =>
    let set := set.filter (· ≠ a)
    if set.isEmpty then index.erase k else index.set k set

/-- Each thing with a key is filed under it, once, and nothing else is. -/
structure Exact (index : OMap κ (List α)) (key : α → Option κ) : Prop where
  filed_iff : ∀ k a, a ∈ filed index k ↔ key a = some k
  once : ∀ k, (filed index k).Nodup
  held : ∀ k, index.get? k ≠ some []

variable {index : OMap κ (List α)} {key key' : α → Option κ} {k : κ} {a : α}

theorem filed_add (j : κ) : filed (add index k a) j =
    if j = k then if a ∈ filed index k then filed index k else filed index k ++ [a]
    else filed index j := by
  rw [filed, add, OMap.get?_set]
  split <;> rfl

theorem get?_remove {set : List α} (hset : index.get? k = some set) (j : κ) :
    (remove index k a).get? j =
      if j = k then if (set.filter (· ≠ a)).isEmpty then none else some (set.filter (· ≠ a))
      else index.get? j := by
  have hremove : remove index k a = if (set.filter (· ≠ a)).isEmpty then index.erase k
      else index.set k (set.filter (· ≠ a)) := by rw [remove, hset]
  rw [hremove]
  split
  · rw [OMap.get?_erase]
  · rw [OMap.get?_set]

theorem remove_of_none (hnone : index.get? k = none) : remove index k a = index := by
  rw [remove, hnone]

theorem filed_remove (j : κ) : filed (remove index k a) j =
    if j = k then (filed index k).filter (· ≠ a) else filed index j := by
  cases hset : index.get? k with
  | none =>
      rw [remove_of_none hset]
      split
      · next hjk => rw [hjk, filed, hset]; rfl
      · rfl
  | some set =>
      rw [filed, get?_remove hset, filed, hset, Option.getD_some]
      split
      · split
        · next hout => rw [List.isEmpty_iff.mp hout]; rfl
        · rfl
      · rfl

theorem exact_empty : Exact (OMap.empty : OMap κ (List α)) (fun _ => none) where
  filed_iff _ _ := ⟨fun h => (by cases h), fun h => (by cases h)⟩
  once _ := List.nodup_nil
  held _ h := by cases h

/-- A thing that had no key is added under one. -/
theorem Exact.add (h : Exact index key) (hkey : ∀ b, b ≠ a → key' b = key b) (hout : key a = none)
    (hin : key' a = some k) : Exact (add index k a) key' where
  filed_iff j b := by
    have hnot : a ∉ filed index k := fun hmem => by
      rw [(h.filed_iff k a).mp hmem] at hout
      cases hout
    rw [filed_add, if_neg hnot]
    by_cases hba : b = a
    · subst hba
      rw [hin]
      split
      · next hjk => simp [hjk]
      · next hjk =>
          rw [h.filed_iff, hout]
          simp [Ne.symm hjk]
    · rw [hkey b hba, ← h.filed_iff]
      split
      · next hjk => simp [hjk, hba]
      · rfl
  once j := by
    have hnot : a ∉ filed index k := fun hmem => by
      rw [(h.filed_iff k a).mp hmem] at hout
      cases hout
    rw [filed_add, if_neg hnot]
    split
    · exact List.Nodup.append (h.once k) (List.nodup_singleton a) (by simpa using hnot)
    · exact h.once j
  held j := by
    rw [SetIndex.add, OMap.get?_set]
    split
    · intro hnil
      rw [Option.some.injEq] at hnil
      split at hnil
      · next hmem => rw [hnil] at hmem; cases hmem
      · simp at hnil
    · exact h.held j

/-- A thing leaves the one set it is filed in. -/
theorem Exact.remove (h : Exact index key) (hkey : ∀ b, b ≠ a → key' b = key b)
    (hin : key a = some k) (hout : key' a = none) : Exact (remove index k a) key' where
  filed_iff j b := by
    rw [filed_remove]
    by_cases hba : b = a
    · subst hba
      rw [hout]
      split
      · simp
      · next hjk =>
          rw [h.filed_iff, hin]
          simp [Ne.symm hjk]
    · rw [hkey b hba, ← h.filed_iff]
      split
      · next hjk => simp [hjk, hba]
      · rfl
  once j := by
    rw [filed_remove]
    split
    · exact (h.once k).filter _
    · exact h.once j
  held j := by
    cases hset : index.get? k with
    | none =>
        rw [remove_of_none hset]
        exact h.held j
    | some set =>
        rw [get?_remove hset]
        split
        · split
          · intro hnil; cases hnil
          · next hleft => exact fun hnil => hleft (List.isEmpty_iff.mpr (Option.some.inj hnil))
        · exact h.held j

theorem Exact.congr (h : Exact index key) (hkey : ∀ b, key' b = key b) : Exact index key' :=
  funext hkey ▸ h

end SetIndex
