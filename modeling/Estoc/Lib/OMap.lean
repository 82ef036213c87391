import Mathlib.Data.List.Basic
import Mathlib.Data.List.Nodup
import Mathlib.Data.List.Dedup

/-!
# Maps that keep the order their keys came in

A finite map as the list of its entries, each key once, in the order the keys
were first set: setting a key that is there changes its value and not its
place. `get?` is what proofs reason about; `mem_entries` turns a walk over the
entries into lookups, so that the order only ever matters where a result
depends on it.
-/

/-- A finite map, its entries in the order their keys were first set. -/
structure OMap (κ ν : Type*) where
  entries : List (κ × ν)
  nodup : (entries.map Prod.fst).Nodup

namespace OMap

variable {κ ν : Type*}

def empty : OMap κ ν := ⟨[], List.nodup_nil⟩

instance : Inhabited (OMap κ ν) := ⟨empty⟩

def keys (m : OMap κ ν) : List κ := m.entries.map Prod.fst

def values (m : OMap κ ν) : List ν := m.entries.map Prod.snd

def size (m : OMap κ ν) : Nat := m.entries.length

theorem length_keys (m : OMap κ ν) : m.keys.length = m.size := List.length_map _

theorem nodup_keys (m : OMap κ ν) : m.keys.Nodup := m.nodup

theorem two_le_size {m : OMap κ ν} :
    2 ≤ m.size ↔ ∃ a b, a ∈ m.keys ∧ b ∈ m.keys ∧ a ≠ b := by
  rw [← length_keys]
  constructor
  · intro h
    match hk : m.keys, h with
    | a :: b :: l, _ =>
        have hn := m.nodup_keys
        rw [hk, List.nodup_cons] at hn
        exact ⟨a, b, List.mem_cons_self, List.mem_cons_of_mem _ List.mem_cons_self,
          fun e => hn.1 (e ▸ List.mem_cons_self)⟩
  · rintro ⟨a, b, ha, hb, hne⟩
    match hk : m.keys with
    | [] => rw [hk] at ha; cases ha
    | [x] =>
        rw [hk, List.mem_singleton] at ha hb
        exact absurd (ha.trans hb.symm) hne
    | _ :: _ :: l => rw [List.length_cons, List.length_cons]; omega

@[ext] theorem ext_entries {m m' : OMap κ ν} (h : m.entries = m'.entries) :
    m = m' := by
  cases m; cases m'; cases h; rfl

variable [DecidableEq κ]

def get? (m : OMap κ ν) (k : κ) : Option ν := m.entries.lookup k

def has (m : OMap κ ν) (k : κ) : Bool := (m.get? k).isSome

private def put (k : κ) (v : ν) : List (κ × ν) → List (κ × ν)
  | [] => [(k, v)]
  | e :: rest => if e.1 = k then (k, v) :: rest else e :: put k v rest

private theorem keys_put (k : κ) (v : ν) (l : List (κ × ν)) :
    (put k v l).map Prod.fst =
      if k ∈ l.map Prod.fst then l.map Prod.fst else l.map Prod.fst ++ [k] := by
  induction l with
  | nil => rfl
  | cons e rest ih =>
      rw [put]
      split <;> rename_i he
      · subst he; simp
      · simp only [List.map_cons, List.mem_cons, ih]
        have hk : ¬ k = e.1 := fun h => he h.symm
        split <;> rename_i hr
        · simp [hr]
        · simp [hr, hk]

/-- `m` with `v` under `k`: in the place of `k` when it is there, last when it
is not. -/
def set (m : OMap κ ν) (k : κ) (v : ν) : OMap κ ν where
  entries := put k v m.entries
  nodup := by
    rw [keys_put]
    split <;> rename_i h
    · exact m.nodup
    · exact List.Nodup.append m.nodup (List.nodup_singleton k)
        (by simpa [List.disjoint_singleton] using h)

/-- `m` without `k`. -/
def erase (m : OMap κ ν) (k : κ) : OMap κ ν where
  entries := m.entries.filter (fun e => e.1 ≠ k)
  nodup := m.nodup.sublist (List.Sublist.map _ List.filter_sublist)

theorem keys_set (m : OMap κ ν) (k : κ) (v : ν) :
    (m.set k v).keys = if k ∈ m.keys then m.keys else m.keys ++ [k] :=
  keys_put k v m.entries

private theorem put_of_notMem {k : κ} {v : ν} {l : List (κ × ν)} (h : k ∉ l.map Prod.fst) :
    put k v l = l ++ [(k, v)] := by
  induction l with
  | nil => rfl
  | cons e rest ih =>
      rw [List.map_cons, List.mem_cons, not_or] at h
      rw [put, if_neg (Ne.symm h.1), ih h.2, List.cons_append]

/-- A key that is not there goes last. -/
theorem entries_set {m : OMap κ ν} {k : κ} {v : ν} (h : k ∉ m.keys) :
    (m.set k v).entries = m.entries ++ [(k, v)] := put_of_notMem h

@[simp] theorem mem_keys_set {m : OMap κ ν} {k j : κ} {v : ν} :
    j ∈ (m.set k v).keys ↔ j ∈ m.keys ∨ j = k := by
  rw [keys_set]
  split <;> rename_i h
  · constructor
    · exact Or.inl
    · rintro (hj | rfl)
      · exact hj
      · exact h
  · simp

private theorem lookup_cons_ite (e : κ × ν) (l : List (κ × ν)) (j : κ) :
    (e :: l).lookup j = if j = e.1 then some e.2 else l.lookup j := by
  obtain ⟨a, b⟩ := e
  rw [List.lookup_cons]
  by_cases h : j = a
  · simp [h]
  · have : (j == a) = false := by simpa using h
    simp [this, h]

private theorem lookup_put (k : κ) (v : ν) (l : List (κ × ν)) (j : κ) :
    (put k v l).lookup j = if j = k then some v else l.lookup j := by
  induction l with
  | nil => rw [put, lookup_cons_ite, List.lookup_nil]
  | cons e rest ih =>
      rw [put]
      split <;> rename_i he
      · subst he
        rw [lookup_cons_ite, lookup_cons_ite]
        split <;> rfl
      · rw [lookup_cons_ite, lookup_cons_ite, ih]
        by_cases h : j = k
        · subst h
          rw [if_neg (Ne.symm he), if_pos rfl, if_pos rfl]
        · rw [if_neg h, if_neg h]

/-- A lookup finds the first entry of its key. -/
theorem find?_entries (m : OMap κ ν) (k : κ) :
    (m.entries.find? fun e => e.1 = k).map Prod.snd = m.get? k := by
  rw [get?]
  induction m.entries with
  | nil => rfl
  | cons e l ih =>
      rw [lookup_cons_ite, List.find?_cons]
      by_cases h : k = e.1
      · simp [h]
      · simp [h, Ne.symm h, ih]

@[simp] theorem get?_empty (k : κ) : (empty : OMap κ ν).get? k = none := rfl

theorem get?_set (m : OMap κ ν) (k j : κ) (v : ν) :
    (m.set k v).get? j = if j = k then some v else m.get? j :=
  lookup_put k v m.entries j

@[simp] theorem get?_set_self (m : OMap κ ν) (k : κ) (v : ν) :
    (m.set k v).get? k = some v := by rw [get?_set, if_pos rfl]

theorem get?_set_ne (m : OMap κ ν) {k j : κ} (v : ν) (h : j ≠ k) :
    (m.set k v).get? j = m.get? j := by rw [get?_set, if_neg h]

private theorem lookup_eq_some {l : List (κ × ν)} (hl : (l.map Prod.fst).Nodup)
    {k : κ} {v : ν} : l.lookup k = some v ↔ (k, v) ∈ l := by
  induction l with
  | nil => simp
  | cons e rest ih =>
      obtain ⟨a, b⟩ := e
      rw [List.map_cons, List.nodup_cons] at hl
      rw [lookup_cons_ite, List.mem_cons, Prod.mk.injEq]
      by_cases h : k = a
      · subst h
        have hk : (k, v) ∉ rest := fun hm => hl.1 (List.mem_map.mpr ⟨_, hm, rfl⟩)
        simp [hk, eq_comm]
      · simp [h, ih hl.2]

/-- A walk over the entries meets exactly what the lookups find. -/
theorem mem_entries {m : OMap κ ν} {k : κ} {v : ν} :
    (k, v) ∈ m.entries ↔ m.get? k = some v := (lookup_eq_some m.nodup).symm

theorem mem_keys {m : OMap κ ν} {k : κ} : k ∈ m.keys ↔ ∃ v, m.get? k = some v := by
  rw [keys, List.mem_map]
  constructor
  · rintro ⟨⟨a, b⟩, hm, rfl⟩
    exact ⟨b, mem_entries.mp hm⟩
  · rintro ⟨v, h⟩
    exact ⟨(k, v), mem_entries.mpr h, rfl⟩

theorem get?_eq_none {m : OMap κ ν} {k : κ} : m.get? k = none ↔ k ∉ m.keys := by
  rw [mem_keys]
  cases h : m.get? k <;> simp

@[simp] theorem has_eq_true {m : OMap κ ν} {k : κ} :
    m.has k = true ↔ k ∈ m.keys := by
  rw [has, mem_keys, Option.isSome_iff_exists]

@[simp] theorem has_eq_false {m : OMap κ ν} {k : κ} :
    m.has k = false ↔ k ∉ m.keys := by
  rw [← has_eq_true, Bool.not_eq_true]

theorem mem_values {m : OMap κ ν} {v : ν} :
    v ∈ m.values ↔ ∃ k, m.get? k = some v := by
  rw [values, List.mem_map]
  constructor
  · rintro ⟨⟨a, b⟩, hm, rfl⟩
    exact ⟨a, mem_entries.mp hm⟩
  · rintro ⟨k, h⟩
    exact ⟨(k, v), mem_entries.mpr h, rfl⟩

private theorem lookup_filter (l : List (κ × ν)) (k j : κ) :
    (l.filter (fun e => e.1 ≠ k)).lookup j = if j = k then none else l.lookup j := by
  induction l with
  | nil => simp
  | cons e rest ih =>
      rw [List.filter_cons]
      by_cases he : e.1 = k
      · rw [if_neg (by simpa using he), ih, lookup_cons_ite, he]
        split <;> rfl
      · rw [if_pos (by simpa using he), lookup_cons_ite, lookup_cons_ite, ih]
        by_cases h : j = k
        · subst h
          rw [if_neg (Ne.symm he), if_pos rfl, if_pos rfl]
        · rw [if_neg h, if_neg h]

theorem get?_erase (m : OMap κ ν) (k j : κ) :
    (m.erase k).get? j = if j = k then none else m.get? j :=
  lookup_filter m.entries k j

theorem mem_keys_erase {m : OMap κ ν} {k j : κ} :
    j ∈ (m.erase k).keys ↔ j ∈ m.keys ∧ j ≠ k := by
  simp only [mem_keys, get?_erase]
  by_cases h : j = k <;> simp [h]

theorem values_set {m : OMap κ ν} {k : κ} {v : ν} (h : k ∉ m.keys) :
    (m.set k v).values = m.values ++ [v] := by
  rw [values, entries_set h, List.map_append]
  rfl

/-- An entry and what is left without it. -/
theorem perm_entries_erase {m : OMap κ ν} {k : κ} {v : ν} (h : m.get? k = some v) :
    m.entries.Perm ((k, v) :: (m.erase k).entries) := by
  have hnot : (k, v) ∉ (m.erase k).entries := by
    intro hin
    have hget := mem_entries.mp hin
    rw [get?_erase, if_pos rfl] at hget
    cases hget
  refine (List.perm_ext_iff_of_nodup m.nodup.of_map
    (List.nodup_cons.mpr ⟨hnot, (m.erase k).nodup.of_map⟩)).mpr fun e => ?_
  obtain ⟨a, b⟩ := e
  rw [List.mem_cons, mem_entries, mem_entries, get?_erase]
  by_cases ha : a = k
  · subst ha
    rw [h, if_pos rfl]
    simp [eq_comm]
  · simp [ha]

theorem perm_values_erase {m : OMap κ ν} {k : κ} {v : ν} (h : m.get? k = some v) :
    m.values.Perm (v :: (m.erase k).values) := (perm_entries_erase h).map Prod.snd

/-- Maps that read alike hold the same entries, in some order. -/
theorem perm_entries {m m' : OMap κ ν} (h : ∀ k, m.get? k = m'.get? k) : m.entries.Perm m'.entries := by
  refine (List.perm_ext_iff_of_nodup m.nodup.of_map m'.nodup.of_map).mpr fun e => ?_
  rw [mem_entries, mem_entries, h]

theorem perm_values_set (m : OMap κ ν) (k : κ) (v : ν) :
    (m.set k v).values.Perm (v :: (m.erase k).values) := by
  have hget : (m.set k v).get? k = some v := by rw [get?_set, if_pos rfl]
  refine (perm_values_erase hget).trans (.cons _ ((perm_entries fun j => ?_).map Prod.snd))
  rw [get?_erase, get?_erase, get?_set]
  split
  · rfl
  · rfl

theorem erase_of_notMem {m : OMap κ ν} {k : κ} (h : k ∉ m.keys) : m.erase k = m := by
  refine ext_entries (List.filter_eq_self.mpr fun e he => decide_eq_true fun heq => h ?_)
  exact heq ▸ List.mem_map_of_mem he

theorem size_set (m : OMap κ ν) (k : κ) (v : ν) :
    (m.set k v).size = if k ∈ m.keys then m.size else m.size + 1 := by
  rw [← length_keys, keys_set]
  split
  · exact length_keys m
  · rw [List.length_append, length_keys]
    rfl

theorem size_erase_le (m : OMap κ ν) (k : κ) : (m.erase k).size ≤ m.size := List.length_filter_le _ _

/-! ## Maps made from a list

A walk over a list that sets one key for each of it; grouping by a key; and what stands in
a list, each once. -/

section Lists

variable {α : Type*} (l : List α) (key : α → κ) (value : α → ν)

/-- One entry for each of the list, a later one in place of an earlier one of its key. -/
def index : OMap κ ν := l.foldl (fun m a => m.set (key a) (value a)) empty

variable {l key value}

private theorem foldl_set_some {m : OMap κ ν} {k : κ} {v : ν} :
    (l.foldl (fun m a => m.set (key a) (value a)) m).get? k = some v →
      m.get? k = some v ∨ ∃ a ∈ l, key a = k ∧ value a = v := by
  induction l generalizing m with
  | nil => exact Or.inl
  | cons a rest ih =>
      intro h
      obtain h | ⟨b, hb, hk, hv⟩ := ih h
      · rw [get?_set] at h
        split at h
        · rename_i hk
          exact Or.inr ⟨a, List.mem_cons_self, hk.symm, Option.some.inj h⟩
        · exact Or.inl h
      · exact Or.inr ⟨b, List.mem_cons_of_mem _ hb, hk, hv⟩

theorem get?_index_some {k : κ} {v : ν} (h : (index l key value).get? k = some v) :
    ∃ a ∈ l, key a = k ∧ value a = v := by
  obtain h | h := foldl_set_some h
  · rw [get?_empty] at h; cases h
  · exact h

private theorem mem_keys_foldl_set {m : OMap κ ν} {k : κ} :
    k ∈ (l.foldl (fun m a => m.set (key a) (value a)) m).keys ↔
      k ∈ m.keys ∨ ∃ a ∈ l, key a = k := by
  induction l generalizing m with
  | nil => simp
  | cons a rest ih => rw [List.foldl_cons, ih, mem_keys_set]; simp [or_assoc, eq_comm]

@[simp] theorem mem_keys_index {k : κ} : k ∈ (index l key value).keys ↔ ∃ a ∈ l, key a = k := by
  refine (mem_keys_foldl_set (m := OMap.empty)).trans ?_
  simp [keys, empty]

/-- Where the values of one key agree, the key has that value. -/
theorem get?_index {a : α} (ha : a ∈ l) (hv : ∀ b ∈ l, key b = key a → value b = value a) :
    (index l key value).get? (key a) = some (value a) := by
  have hk : key a ∈ (index l key value).keys := mem_keys_index.mpr ⟨a, ha, rfl⟩
  obtain ⟨v, h⟩ := mem_keys.mp hk
  obtain ⟨b, hb, hk, rfl⟩ := get?_index_some h
  rw [h, hv b hb hk]

theorem get?_index_of_not {k : κ} (h : ∀ a ∈ l, key a ≠ k) : (index l key value).get? k = none := by
  rw [get?_eq_none, mem_keys_index]
  intro ⟨a, ha, hk⟩
  exact h a ha hk

theorem index_congr {value' : α → ν} (h : ∀ a ∈ l, value a = value' a) :
    index l key value = index l key value' := by
  unfold index
  refine List.foldl_ext _ _ _ fun m a ha => ?_
  rw [h a ha]

/-- What stands in the list, each once, where it first stands. -/
def once (l : List κ) : List κ := (index l id fun _ => ()).keys

@[simp] theorem mem_once {l : List κ} {k : κ} : k ∈ once l ↔ k ∈ l := by
  rw [once, mem_keys_index]
  simp

theorem nodup_once (l : List κ) : (once l).Nodup := nodup_keys _

/-- Grouped by a key, each group in the order of the list. -/
def groupBy (l : List α) (key : α → κ) : OMap κ (List α) :=
  l.foldl (fun groups a => groups.set (key a) ((groups.get? (key a)).getD [] ++ [a])) empty

private theorem foldl_group {m : OMap κ (List α)} {k : κ} :
    ((l.foldl (fun groups a => groups.set (key a) ((groups.get? (key a)).getD [] ++ [a])) m).get?
      k).getD [] = (m.get? k).getD [] ++ l.filter (key · = k) := by
  induction l generalizing m with
  | nil => simp
  | cons a rest ih =>
      rw [List.foldl_cons, ih, get?_set, List.filter_cons]
      by_cases h : k = key a
      · rw [if_pos h, if_pos (by simp [h]), h]
        simp
      · rw [if_neg h, if_neg (by simpa using Ne.symm h)]

/-- The group of a key is what has the key. -/
theorem getD_groupBy (l : List α) (key : α → κ) (k : κ) :
    ((groupBy l key).get? k).getD [] = l.filter (key · = k) := by
  rw [groupBy, foldl_group, get?_empty]
  rfl

private theorem mem_keys_foldl_group {m : OMap κ (List α)} {k : κ} :
    k ∈ (l.foldl (fun groups a => groups.set (key a) ((groups.get? (key a)).getD [] ++ [a]))
      m).keys ↔ k ∈ m.keys ∨ ∃ a ∈ l, key a = k := by
  induction l generalizing m with
  | nil => simp
  | cons a rest ih => rw [List.foldl_cons, ih, mem_keys_set]; simp [or_assoc, eq_comm]

@[simp] theorem mem_keys_groupBy {k : κ} :
    k ∈ (groupBy l key).keys ↔ ∃ a ∈ l, key a = k := by
  refine (mem_keys_foldl_group (m := empty)).trans ?_
  simp [keys, empty]

theorem get?_groupBy_some {k : κ} {group : List α} (h : (groupBy l key).get? k = some group) :
    group = l.filter (key · = k) := by
  have hgroup := getD_groupBy l key k
  rw [h] at hgroup
  exact hgroup

theorem get?_groupBy {a : α} (ha : a ∈ l) :
    (groupBy l key).get? (key a) = some (l.filter (key · = key a)) := by
  have hk : key a ∈ (groupBy l key).keys := mem_keys_groupBy.mpr ⟨a, ha, rfl⟩
  obtain ⟨group, h⟩ := mem_keys.mp hk
  rw [h, get?_groupBy_some h]

/-- A map of sets built an entry at a time holds under a key what the entries of the key bring. -/
theorem mem_foldl_once {β : Type} [DecidableEq β] {values : α → List β} {m : OMap κ (List β)}
    {k : κ} {b : β} :
    b ∈ ((l.foldl (fun m a => m.set (key a) (once ((m.get? (key a)).getD [] ++ values a))) m).get?
      k).getD [] ↔ b ∈ (m.get? k).getD [] ∨ ∃ a ∈ l, key a = k ∧ b ∈ values a := by
  induction l generalizing m with
  | nil => simp
  | cons a rest ih =>
      rw [List.foldl_cons, ih, get?_set]
      by_cases h : k = key a
      · rw [if_pos h, Option.getD_some, mem_once, List.mem_append, or_assoc, h]
        simp
      · rw [if_neg h]
        simp [Ne.symm h]

/-- The first of each key stands. -/
theorem mem_keys_foldl_first {β : Type} {value : α → β} {m : OMap κ β} {k : κ} :
    k ∈ (l.foldl (fun m a => if m.has (key a) then m else m.set (key a) (value a)) m).keys ↔
      k ∈ m.keys ∨ ∃ a ∈ l, key a = k := by
  induction l generalizing m with
  | nil => simp
  | cons a rest ih =>
      rw [List.foldl_cons, ih]
      cases hhas : m.has (key a) with
      | true =>
          have hmem : key a ∈ m.keys := has_eq_true.mp hhas
          rw [if_pos rfl]
          constructor
          · rintro (h | ⟨b, hb, hk⟩)
            · exact Or.inl h
            · exact Or.inr ⟨b, List.mem_cons_of_mem _ hb, hk⟩
          · rintro (h | ⟨b, hb, hk⟩)
            · exact Or.inl h
            · rcases List.mem_cons.mp hb with rfl | hb
              · exact Or.inl (hk ▸ hmem)
              · exact Or.inr ⟨b, hb, hk⟩
      | false =>
          rw [if_neg (by simp), mem_keys_set]
          simp [or_assoc, eq_comm]

end Lists

end OMap
