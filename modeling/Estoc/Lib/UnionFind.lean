import Mathlib.Logic.Relation
import Mathlib.Data.List.Basic
import Mathlib.Data.Finset.Card
import Mathlib.Order.Compare
import Estoc.Lib.Loop
import Estoc.Lib.OMap

/-!
# Union-find whose roots are the least of their classes

Parents in a map, path compression on every search, and a union that hangs the
root of one class under the other, always the greater under the smaller. That
choice is what everything here rests on: a parent never compares above its
child, so a search descends and must end, and the root of a class is its least
member whatever order the unions came in.

`Rooted p k r` says that the parents of `p` lead from `k` to `r` and stop
there. It is a function of `k` on a forest, compression leaves it alone
(`rooted_compress`), and a union moves exactly one class (`rooted_link`). The
result for clients is `Connects`, which a union and a search keep: two keys
have one root exactly when the pairs united connect them.
-/

namespace UnionFind

variable {κ : Type*} [DecidableEq κ]

abbrev Parents (κ : Type*) := OMap κ κ

/-- The next key on the way up, none at a root. -/
def rootStep (p : Parents κ) (k : κ) : Option κ :=
  match p.get? k with
  | none => none
  | some q => if q = k then none else some q

def compressStep (root : κ) : κ × Parents κ → Option (κ × Parents κ)
  | (node, p) =>
    if node = root then none
    else match p.get? node with
      | none => none
      | some next => some (next, p.set node root)

def findRoot (p : Parents κ) (k : κ) : κ := Loop.run (rootStep p) p.size k

/-- The root of `k`, and the parents with the way there compressed. -/
def find (p : Parents κ) (k : κ) : κ × Parents κ :=
  (findRoot p k, (Loop.run (compressStep (findRoot p k)) p.size (k, p)).2)

def own (p : Parents κ) (k : κ) : Parents κ := if p.has k then p else p.set k k

set_option linter.unusedSectionVars false

variable (cmp : κ → κ → Ordering)

/-- The smaller root stays a root, so that the root of a class does not depend
on the order of the unions. -/
def union (p : Parents κ) (a b : κ) : Parents κ :=
  let p := own (own p a) b
  let (ra, p) := find p a
  let (rb, p) := find p b
  if ra = rb then p
  else if cmp ra rb = .lt then p.set rb ra
  else p.set ra rb

def ofPairs (pairs : List (κ × κ)) : Parents κ :=
  pairs.foldl (fun p ab => union cmp p ab.1 ab.2) OMap.empty

/-- The root of `k`, `k` itself when no union touched it. -/
def root (p : Parents κ) (k : κ) : κ := if p.has k then (find p k).1 else k

/-! ## Where the parents lead -/

/-- One step up, to another key. -/
def Step (p : Parents κ) (k q : κ) : Prop := rootStep p k = some q

/-- The parents lead from `k` to `r` and no further. -/
def Rooted (p : Parents κ) (k r : κ) : Prop :=
  Relation.ReflTransGen (Step p) k r ∧ rootStep p r = none

theorem rootStep_eq_some {p : Parents κ} {k q : κ} :
    rootStep p k = some q ↔ p.get? k = some q ∧ q ≠ k := by
  rw [rootStep]
  cases h : p.get? k with
  | none => simp
  | some a =>
      by_cases hak : a = k
      · subst hak
        simp only [if_true]
        constructor
        · intro h; cases h
        · rintro ⟨h, hne⟩; exact absurd (Option.some.inj h).symm hne
      · simp only [if_neg hak, Option.some.injEq]
        constructor
        · rintro rfl; exact ⟨rfl, hak⟩
        · exact fun h => h.1

theorem rooted_self {p : Parents κ} {r : κ} (h : rootStep p r = none) : Rooted p r r :=
  ⟨.refl, h⟩

theorem Rooted.head {p : Parents κ} {k q r : κ} (h : Step p k q) (hr : Rooted p q r) :
    Rooted p k r := ⟨.head h hr.1, hr.2⟩

/-- Induction along the way up. -/
theorem Rooted.ind {p : Parents κ} {motive : κ → κ → Prop}
    (stop : ∀ r, rootStep p r = none → motive r r)
    (step : ∀ k q r, Step p k q → Rooted p q r → motive q r → motive k r)
    {k r : κ} (h : Rooted p k r) : motive k r := by
  obtain ⟨hkr, hr⟩ := h
  induction hkr using Relation.ReflTransGen.head_induction_on with
  | refl => exact stop r hr
  | head hk hq ih => exact step _ _ _ hk ⟨hq, hr⟩ ih

theorem Rooted.unique {p : Parents κ} {k r r' : κ} (h : Rooted p k r)
    (h' : Rooted p k r') : r = r' := by
  refine Rooted.ind (motive := fun k r => ∀ r', Rooted p k r' → r = r') ?_ ?_ h r' h'
  · intro r hr r' h'
    rcases Relation.ReflTransGen.cases_head h'.1 with heq | ⟨q, hq, _⟩
    · exact heq
    · rw [Step, hr] at hq; cases hq
  · intro k q r hk _ ih r' h'
    rcases Relation.ReflTransGen.cases_head h'.1 with rfl | ⟨q', hq', hq'r⟩
    · rw [Step, h'.2] at hk; cases hk
    · rw [Step] at hk hq'
      rw [hk] at hq'
      cases hq'
      exact ih r' ⟨hq'r, h'.2⟩

/-- Parents that agree on every step lead to the same roots. -/
theorem Rooted.congr {p p' : Parents κ} (h : rootStep p' = rootStep p) {k r : κ} :
    Rooted p' k r ↔ Rooted p k r := by
  have hs : Step p' = Step p := by funext a b; rw [Step, Step, h]
  rw [Rooted, Rooted, hs, h]

theorem rootStep_set_ne {p : Parents κ} {k j q : κ} (h : j ≠ k) :
    rootStep (p.set k q) j = rootStep p j := by
  rw [rootStep, rootStep, OMap.get?_set_ne p q h]

theorem rootStep_set_self {p : Parents κ} {k q : κ} (h : q ≠ k) :
    rootStep (p.set k q) k = some q :=
  rootStep_eq_some.mpr ⟨OMap.get?_set_self p k q, h⟩

theorem rootStep_own (p : Parents κ) (k : κ) : rootStep (own p k) = rootStep p := by
  rw [own]
  split <;> rename_i h
  · rfl
  · funext j
    by_cases hj : j = k
    · subst hj
      have hnone : p.get? j = none := by
        rw [OMap.get?_eq_none]; simpa using h
      rw [rootStep, rootStep, OMap.get?_set_self, hnone]
      simp
    · exact rootStep_set_ne hj

/-- Hanging a key under its own root moves nothing. -/
theorem rooted_compress {p : Parents κ} {node root : κ} (hn : Rooted p node root)
    (hne : node ≠ root) {k r : κ} (h : Rooted p k r) : Rooted (p.set node root) k r := by
  have hroot : rootStep (p.set node root) root = none := by
    rw [rootStep_set_ne (Ne.symm hne)]; exact hn.2
  refine Rooted.ind (motive := Rooted (p.set node root)) ?_ ?_ h
  · intro r hr
    by_cases hrn : r = node
    · subst hrn
      exact absurd (hn.unique (rooted_self hr)) (Ne.symm hne)
    · exact rooted_self (by rw [rootStep_set_ne hrn]; exact hr)
  · intro k q r hk hq ih
    by_cases hkn : k = node
    · subst hkn
      rw [← hn.unique (Rooted.head hk hq)]
      exact Rooted.head (rootStep_set_self (Ne.symm hne)) (rooted_self hroot)
    · refine Rooted.head ?_ ih
      rw [Step, rootStep_set_ne hkn]
      exact hk

/-- Hanging one root under another moves the class of that root. -/
theorem rooted_link {p : Parents κ} {a b : κ} (ha : rootStep p a = none)
    (hb : rootStep p b = none) (hne : a ≠ b) {k r : κ} (h : Rooted p k r) :
    Rooted (p.set b a) k (if r = b then a else r) := by
  have haroot : rootStep (p.set b a) a = none := by
    rw [rootStep_set_ne hne]; exact ha
  refine Rooted.ind (motive := fun k r => Rooted (p.set b a) k (if r = b then a else r))
    ?_ ?_ h
  · intro r hr
    split <;> rename_i hrb
    · rw [hrb]
      exact Rooted.head (rootStep_set_self hne) (rooted_self haroot)
    · exact rooted_self (by rw [rootStep_set_ne hrb]; exact hr)
  · intro k q r hk _ ih
    have hkb : k ≠ b := by
      rintro rfl
      rw [Step, hb] at hk
      cases hk
    refine Rooted.head ?_ ih
    rw [Step, rootStep_set_ne hkb]
    exact hk

/-! ## Forests

Every parent is a key and never compares above its child. -/

structure Forest (cmp : κ → κ → Ordering) (p : Parents κ) : Prop where
  mem : ∀ {k q}, p.get? k = some q → q ∈ p.keys
  le : ∀ {k q}, p.get? k = some q → (cmp q k).isLE

variable {cmp : κ → κ → Ordering}

theorem forest_empty : Forest cmp (OMap.empty : Parents κ) where
  mem h := by simp at h
  le h := by simp at h

section

variable [Std.TransCmp cmp] [Std.LawfulEqCmp cmp]

theorem lt_of_isLE_of_ne {a b : κ} (h : (cmp a b).isLE) (hne : a ≠ b) : cmp a b = .lt := by
  cases hc : cmp a b with
  | lt => rfl
  | eq => exact absurd (Std.LawfulEqCmp.eq_of_compare hc) hne
  | gt => rw [hc] at h; exact absurd h (by decide)

theorem Forest.lt {p : Parents κ} (hf : Forest cmp p) {k q : κ} (h : Step p k q) :
    q ∈ p.keys ∧ cmp q k = .lt := by
  obtain ⟨hq, hne⟩ := rootStep_eq_some.mp h
  exact ⟨hf.mem hq, lt_of_isLE_of_ne (hf.le hq) hne⟩

/-- Where the parents lead never compares above where they start, and is a key
when the start is one. -/
theorem Forest.rooted {p : Parents κ} (hf : Forest cmp p) {k r : κ} (h : Rooted p k r) :
    (cmp r k).isLE ∧ (k ∈ p.keys → r ∈ p.keys) := by
  refine Rooted.ind (motive := fun k r => (cmp r k).isLE ∧ (k ∈ p.keys → r ∈ p.keys)) ?_ ?_ h
  · exact fun r _ => ⟨Std.ReflCmp.isLE_rfl, id⟩
  · rintro k q r hk _ ⟨hle, hmem⟩
    obtain ⟨hq, hlt⟩ := hf.lt hk
    refine ⟨Std.TransCmp.isLE_trans hle (by rw [hlt]; rfl), fun _ => hmem hq⟩

/-- The keys below `k`: what a search from `k` may still visit. -/
def below (cmp : κ → κ → Ordering) (p : Parents κ) (k : κ) : Nat :=
  (p.keys.toFinset.filter fun j => cmp j k = .lt).card

theorem below_le_size (p : Parents κ) (k : κ) : below cmp p k ≤ p.size := by
  refine (Finset.card_filter_le _ _).trans ((List.toFinset_card_le _).trans ?_)
  simp [OMap.keys, OMap.size]

theorem below_lt {p : Parents κ} {k q : κ} (hq : q ∈ p.keys) (hlt : cmp q k = .lt) :
    below cmp p q < below cmp p k := by
  refine Finset.card_lt_card (Finset.ssubset_iff_of_subset ?_ |>.mpr ⟨q, ?_, ?_⟩)
  · intro j hj
    rw [Finset.mem_filter] at hj ⊢
    exact ⟨hj.1, Std.TransCmp.lt_trans hj.2 hlt⟩
  · rw [Finset.mem_filter, List.mem_toFinset]
    exact ⟨hq, hlt⟩
  · rw [Finset.mem_filter]
    rintro ⟨_, hqq⟩
    exact absurd (@Std.ReflCmp.compare_self _ cmp _ q) (by rw [hqq]; decide)

/-- The search ends, and at the root. -/
theorem rooted_findRoot {p : Parents κ} (hf : Forest cmp p) (k : κ) :
    Rooted p k (findRoot p k) := by
  exact Loop.run_spec (fun q => Relation.ReflTransGen (Step p) k q) (below cmp p)
    (fun q q' hq hstep => ⟨hq.tail hstep, below_lt (hf.lt hstep).1 (hf.lt hstep).2⟩)
    .refl (below_le_size p k)

theorem findRoot_eq {p : Parents κ} (hf : Forest cmp p) {k r : κ} (h : Rooted p k r) :
    findRoot p k = r := (rooted_findRoot hf k).unique h

/-- Two forests with the same keys whose parents lead to the same roots. -/
structure Agree (cmp : κ → κ → Ordering) (p p' : Parents κ) : Prop where
  forest : Forest cmp p'
  keys : ∀ k, k ∈ p'.keys ↔ k ∈ p.keys
  rooted : ∀ k r, Rooted p k r → Rooted p' k r

theorem Agree.refl {p : Parents κ} (hf : Forest cmp p) : Agree cmp p p :=
  ⟨hf, fun _ => Iff.rfl, fun _ _ h => h⟩

theorem Agree.trans {p p' p'' : Parents κ} (h : Agree cmp p p') (h' : Agree cmp p' p'') :
    Agree cmp p p'' :=
  ⟨h'.forest, fun k => (h'.keys k).trans (h.keys k),
    fun k r hr => h'.rooted k r (h.rooted k r hr)⟩

theorem forest_set {p : Parents κ} (hf : Forest cmp p) {k q : κ} (hq : q ∈ p.keys)
    (hle : (cmp q k).isLE) : Forest cmp (p.set k q) where
  mem {j q'} h := by
    rw [OMap.get?_set] at h
    rw [OMap.mem_keys_set]
    split at h
    · cases h; exact Or.inl hq
    · exact Or.inl (hf.mem h)
  le {j q'} h := by
    rw [OMap.get?_set] at h
    split at h
    · next hj => cases h; rw [hj]; exact hle
    · exact hf.le h

theorem agree_compress {p : Parents κ} (hf : Forest cmp p) {node root : κ}
    (hn : Rooted p node root) (hne : node ≠ root) (hmem : node ∈ p.keys) :
    Agree cmp p (p.set node root) where
  forest := forest_set hf ((hf.rooted hn).2 hmem) (hf.rooted hn).1
  keys k := by
    rw [OMap.mem_keys_set]
    exact ⟨fun h => h.elim id (fun h => h ▸ hmem), Or.inl⟩
  rooted _ _ h := rooted_compress hn hne h

/-- What a search keeps while it compresses its way: the roots, and that the way goes on
to the root. -/
structure Compressing (cmp : κ → κ → Ordering) (p : Parents κ) (root : κ) (s : κ × Parents κ) :
    Prop where
  agree : Agree cmp p s.2
  mem : s.1 ∈ p.keys
  rooted : Rooted s.2 s.1 root

theorem Compressing.step {p : Parents κ} {root : κ} {s s' : κ × Parents κ}
    (h : Compressing cmp p root s) (hstep : compressStep root s = some s') :
    Compressing cmp p root s' ∧ below cmp p s'.1 < below cmp p s.1 := by
  obtain ⟨node, q⟩ := s
  obtain ⟨hagree, hmem, hroot⟩ := h
  simp only [compressStep] at hstep
  split at hstep
  · cases hstep
  · next hne =>
      split at hstep
      · cases hstep
      · next above hnext =>
          cases hstep
          have hmem' : node ∈ q.keys := (hagree.keys node).mpr hmem
          have hset := agree_compress hagree.forest hroot hne hmem'
          have hup : Step q node above := by
            refine rootStep_eq_some.mpr ⟨hnext, ?_⟩
            rintro rfl
            exact hne (hroot.unique (rooted_self (by simp [rootStep, hnext]))).symm
          have hnextRoot : Rooted q above root := by
            have hr := rooted_findRoot hagree.forest above
            rwa [hroot.unique (Rooted.head hup hr)]
          have habove := (hagree.keys _).mp (hagree.forest.mem hnext)
          exact ⟨⟨hagree.trans hset, habove, hset.rooted _ _ hnextRoot⟩,
            below_lt habove (hagree.forest.lt hup).2⟩

theorem compressing_start {p : Parents κ} (hf : Forest cmp p) {k : κ} (hk : k ∈ p.keys) :
    Compressing cmp p (findRoot p k) (k, p) :=
  ⟨Agree.refl hf, hk, rooted_findRoot hf k⟩

/-- Compression changes no root. -/
theorem find_agree {p : Parents κ} (hf : Forest cmp p) {k : κ} (hk : k ∈ p.keys) :
    Agree cmp p (find p k).2 :=
  (Loop.run_inv (Compressing cmp p (findRoot p k)) (fun _ _ h hstep => (h.step hstep).1)
    (compressing_start hf hk)).agree

theorem findRoot_of_notMem {p : Parents κ} {k : κ} (hk : k ∉ p.keys) : findRoot p k = k := by
  have hnone : rootStep p k = none := by
    rw [rootStep, OMap.get?_eq_none.mpr hk]
  rw [findRoot, Loop.run_of_none hnone]

/-- Compression ends, and at the root. -/
theorem compress_ends {p : Parents κ} (hf : Forest cmp p) (k : κ) :
    (Loop.run (compressStep (findRoot p k)) p.size (k, p)).1 = findRoot p k := by
  by_cases hk : k ∈ p.keys
  · obtain ⟨h, hend⟩ := Loop.run_spec (Compressing cmp p (findRoot p k))
      (fun s => below cmp p s.1) (fun _ _ h hstep => h.step hstep) (compressing_start hf hk)
      (below_le_size p k)
    by_contra hne
    rw [compressStep, if_neg hne] at hend
    split at hend
    · next hnone =>
      -- a key without a parent is its own root
      refine hne (h.rooted.unique (rooted_self ?_)).symm
      rw [rootStep, hnone]
    · cases hend
  · rw [findRoot_of_notMem hk, Loop.run_of_none]
    rw [compressStep, if_pos rfl]

theorem agree_own {p : Parents κ} (hf : Forest cmp p) (k : κ) :
    Forest cmp (own p k) ∧ (∀ j, j ∈ (own p k).keys ↔ j ∈ p.keys ∨ j = k) ∧
      ∀ j r, Rooted p j r ↔ Rooted (own p k) j r := by
  refine ⟨?_, ?_, fun j r => (Rooted.congr (rootStep_own p k)).symm⟩
  · rw [own]
    split <;> rename_i h
    · exact hf
    · constructor
      · intro j q hj
        rw [OMap.get?_set] at hj
        rw [OMap.mem_keys_set]
        split at hj
        · cases hj; exact Or.inr rfl
        · exact Or.inl (hf.mem hj)
      · intro j q hj
        rw [OMap.get?_set] at hj
        split at hj
        · next hjk => cases hj; rw [hjk]; exact Std.ReflCmp.isLE_rfl
        · exact hf.le hj
  · intro j
    rw [own]
    split <;> rename_i h
    · rw [OMap.has_eq_true] at h
      exact ⟨Or.inl, fun hj => hj.elim id (fun hj => hj ▸ h)⟩
    · exact OMap.mem_keys_set

/-! ## Unions -/

/-- Which of two roots goes under the other: the greater, first, under the
smaller. -/
def linked (cmp : κ → κ → Ordering) (ra rb : κ) : κ × κ :=
  if cmp ra rb = .lt then (rb, ra) else (ra, rb)

theorem union_spec {p : Parents κ} (hf : Forest cmp p) (a b : κ) :
    Forest cmp (union cmp p a b) ∧
      (∀ j, j ∈ (union cmp p a b).keys ↔ j ∈ p.keys ∨ j = a ∨ j = b) ∧
      ∀ k, findRoot (union cmp p a b) k =
        if findRoot p k = (linked cmp (findRoot p a) (findRoot p b)).1
        then (linked cmp (findRoot p a) (findRoot p b)).2 else findRoot p k := by
  obtain ⟨hf₁, hk₁, hr₁⟩ := agree_own hf a
  obtain ⟨hf₂, hk₂, hr₂⟩ := agree_own hf₁ b
  have hown : ∀ k, findRoot (own (own p a) b) k = findRoot p k := fun k =>
    findRoot_eq hf₂ ((hr₂ _ _).mp ((hr₁ _ _).mp (rooted_findRoot hf k)))
  have hkeys : ∀ j, j ∈ (own (own p a) b).keys ↔ j ∈ p.keys ∨ j = a ∨ j = b := by
    intro j; rw [hk₂, hk₁, or_assoc]
  have ha := find_agree hf₂ ((hkeys a).mpr (Or.inr (Or.inl rfl)))
  have hb := find_agree ha.forest
    ((ha.keys b).mpr ((hkeys b).mpr (Or.inr (Or.inr rfl))))
  set q := (find (find (own (own p a) b) a).2 b).2 with hq
  have hagree : Agree cmp (own (own p a) b) q := ha.trans hb
  have hroot : ∀ k, findRoot q k = findRoot p k := by
    intro k
    rw [← hown k]
    exact findRoot_eq hagree.forest (hagree.rooted _ _ (rooted_findRoot hf₂ k))
  have hkq : ∀ j, j ∈ q.keys ↔ j ∈ p.keys ∨ j = a ∨ j = b := fun j =>
    (hagree.keys j).trans (hkeys j)
  have hra : (find (own (own p a) b) a).1 = findRoot p a := hown a
  have hrb : (find (find (own (own p a) b) a).2 b).1 = findRoot p b := by
    refine (findRoot_eq ha.forest (ha.rooted _ _ ?_)).trans (hown b)
    exact rooted_findRoot hf₂ b
  have hunion : union cmp p a b =
      if findRoot p a = findRoot p b then q
      else if cmp (findRoot p a) (findRoot p b) = .lt
        then q.set (findRoot p b) (findRoot p a)
        else q.set (findRoot p a) (findRoot p b) := by
    rw [← hra, ← hrb]; rfl
  -- linking `lo` under `hi`, two different roots of `q` with `hi` the smaller
  have hlink : ∀ lo hi : κ, lo ∈ q.keys → hi ∈ q.keys → rootStep q lo = none →
      rootStep q hi = none → hi ≠ lo → (cmp hi lo).isLE →
      Forest cmp (q.set lo hi) ∧
        (∀ j, j ∈ (q.set lo hi).keys ↔ j ∈ p.keys ∨ j = a ∨ j = b) ∧
        ∀ k, findRoot (q.set lo hi) k =
          if findRoot p k = lo then hi else findRoot p k := by
    intro lo hi hlo hhi hslo hshi hne hle
    have hfs := forest_set hagree.forest (k := lo) (q := hi) hhi hle
    refine ⟨hfs, ?_, ?_⟩
    · intro j
      rw [OMap.mem_keys_set, ← hkq]
      exact ⟨fun h => h.elim id (fun h => h ▸ hlo), Or.inl⟩
    · intro k
      rw [← hroot k]
      exact findRoot_eq hfs
        (rooted_link hshi hslo hne (rooted_findRoot hagree.forest k))
  have hamem : findRoot p a ∈ q.keys := by
    rw [← hroot a]
    exact (hagree.forest.rooted (rooted_findRoot hagree.forest a)).2
      ((hkq a).mpr (Or.inr (Or.inl rfl)))
  have hbmem : findRoot p b ∈ q.keys := by
    rw [← hroot b]
    exact (hagree.forest.rooted (rooted_findRoot hagree.forest b)).2
      ((hkq b).mpr (Or.inr (Or.inr rfl)))
  have hastep : rootStep q (findRoot p a) = none := by
    rw [← hroot a]; exact (rooted_findRoot hagree.forest a).2
  have hbstep : rootStep q (findRoot p b) = none := by
    rw [← hroot b]; exact (rooted_findRoot hagree.forest b).2
  rw [hunion]
  by_cases hab : findRoot p a = findRoot p b
  · rw [if_pos hab]
    refine ⟨hagree.forest, hkq, fun k => ?_⟩
    rw [hroot k, linked, hab]
    split <;> split <;> simp_all
  · rw [if_neg hab, linked]
    by_cases hlt : cmp (findRoot p a) (findRoot p b) = .lt
    · rw [if_pos hlt, if_pos hlt]
      exact hlink _ _ hbmem hamem hbstep hastep hab (by rw [hlt]; rfl)
    · rw [if_neg hlt, if_neg hlt]
      refine hlink _ _ hamem hbmem hastep hbstep (Ne.symm hab) ?_
      rw [@Std.OrientedCmp.eq_swap _ cmp]
      cases hc : cmp (findRoot p a) (findRoot p b) with
      | lt => exact absurd hc hlt
      | eq => rfl
      | gt => rfl

/-- The pairs of a list, as a relation. -/
def Paired (pairs : List (κ × κ)) (a b : κ) : Prop := (a, b) ∈ pairs

/-- A forest in which two keys have one root exactly when the pairs connect them. -/
structure Connects (cmp : κ → κ → Ordering) (p : Parents κ) (pairs : List (κ × κ)) : Prop where
  forest : Forest cmp p
  same : ∀ a b, findRoot p a = findRoot p b ↔ Relation.EqvGen (Paired pairs) a b

theorem connects_empty : Connects cmp (OMap.empty : Parents κ) [] := by
  refine ⟨forest_empty, fun a b => ?_⟩
  have hself : ∀ k : κ, findRoot (OMap.empty : Parents κ) k = k := fun _ => rfl
  rw [hself, hself]
  constructor
  · rintro rfl; exact .refl _
  · intro h
    induction h with
    | rel _ _ h => simp [Paired] at h
    | refl _ => rfl
    | symm _ _ _ ih => exact ih.symm
    | trans _ _ _ _ _ ih ih' => exact ih.trans ih'

/-- The root of a key is connected to it. -/
theorem Connects.self {p : Parents κ} {pairs : List (κ × κ)} (h : Connects cmp p pairs) (k : κ) :
    Relation.EqvGen (Paired pairs) k (findRoot p k) :=
  (h.same k _).mp (findRoot_eq h.forest (rooted_self (rooted_findRoot h.forest k).2)).symm

/-- A search leaves the roots as they are. -/
theorem Connects.find {p : Parents κ} {pairs : List (κ × κ)} (h : Connects cmp p pairs) {k : κ}
    (hk : k ∈ p.keys) : Connects cmp (find p k).2 pairs := by
  have hagree := find_agree h.forest hk
  refine ⟨hagree.forest, fun a b => ?_⟩
  rw [findRoot_eq hagree.forest (hagree.rooted _ _ (rooted_findRoot h.forest a)),
    findRoot_eq hagree.forest (hagree.rooted _ _ (rooted_findRoot h.forest b))]
  exact h.same a b

/-- A union connects its two keys and nothing else. -/
theorem Connects.union {p : Parents κ} {pairs : List (κ × κ)} (h : Connects cmp p pairs)
    (x y : κ) : Connects cmp (union cmp p x y) (pairs ++ [(x, y)]) := by
  obtain ⟨hf', _, hroot⟩ := union_spec h.forest x y
  refine ⟨hf', fun a b => ?_⟩
  have hsub : ∀ {a b}, Relation.EqvGen (Paired pairs) a b →
      Relation.EqvGen (Paired (pairs ++ [(x, y)])) a b := fun h =>
    h.mono fun _ _ h => List.mem_append_left _ h
  have hxy : Relation.EqvGen (Paired (pairs ++ [(x, y)])) x y :=
    .rel _ _ (List.mem_append_right _ (List.mem_singleton.mpr rfl))
  have hends : linked cmp (findRoot p x) (findRoot p y) = (findRoot p y, findRoot p x) ∨
      linked cmp (findRoot p x) (findRoot p y) = (findRoot p x, findRoot p y) := by
    rw [linked]; split
    · exact Or.inl rfl
    · exact Or.inr rfl
  constructor
  · -- every key is connected to the root the union gives it
    have hconn : ∀ k, Relation.EqvGen (Paired (pairs ++ [(x, y)])) k
        (findRoot (UnionFind.union cmp p x y) k) := by
      intro k
      have hk := hsub (h.self k)
      have hx := hsub (h.self x)
      have hy := hsub (h.self y)
      rw [hroot k]
      rcases hends with he | he <;> rw [he] <;> split <;> rename_i hkr
      · rw [hkr] at hk
        exact hk.trans _ _ _ (hy.symm _ _ |>.trans _ _ _
          (hxy.symm _ _ |>.trans _ _ _ hx))
      · exact hk
      · rw [hkr] at hk
        exact hk.trans _ _ _ (hx.symm _ _ |>.trans _ _ _ (hxy.trans _ _ _ hy))
      · exact hk
    intro hab
    exact (hconn a).trans _ _ _ (hab ▸ (hconn b).symm _ _)
  · intro hab
    induction hab with
    | rel a b hab =>
        rcases List.mem_append.mp hab with hab | hab
        · rw [hroot a, hroot b, (h.same a b).mpr (.rel _ _ hab)]
        · cases List.mem_singleton.mp hab
          rw [hroot, hroot]
          rcases hends with he | he <;> rw [he] <;> simp
    | refl _ => rfl
    | symm _ _ _ ih => exact ih.symm
    | trans _ _ _ _ _ ih ih' => exact ih.trans ih'

theorem connects_ofPairs (pairs : List (κ × κ)) : Connects cmp (ofPairs cmp pairs) pairs := by
  induction pairs using List.reverseRecOn with
  | nil => exact connects_empty
  | append_singleton pairs xy ih =>
      have hof : ofPairs cmp (pairs ++ [xy]) = UnionFind.union cmp (ofPairs cmp pairs) xy.1 xy.2 := by
        rw [ofPairs, List.foldl_append]; rfl
      rw [hof]
      exact ih.union xy.1 xy.2

theorem root_eq_findRoot (p : Parents κ) (k : κ) : root p k = findRoot p k := by
  rw [root]
  split
  · rfl
  · next h =>
    rw [Bool.not_eq_true, OMap.has_eq_false] at h
    exact (findRoot_of_notMem h).symm

/-- Two keys have one root exactly when the pairs united connect them. -/
theorem Connects.root_eq_root {p : Parents κ} {pairs : List (κ × κ)} (h : Connects cmp p pairs)
    {a b : κ} : root p a = root p b ↔ Relation.EqvGen (Paired pairs) a b := by
  rw [root_eq_findRoot, root_eq_findRoot]
  exact h.same a b

/-- The root is the least key of its class. -/
theorem Connects.root_le {p : Parents κ} {pairs : List (κ × κ)} (h : Connects cmp p pairs)
    {a b : κ} (hab : Relation.EqvGen (Paired pairs) a b) : (cmp (root p a) b).isLE := by
  rw [h.root_eq_root.mpr hab, root_eq_findRoot]
  exact (h.forest.rooted (rooted_findRoot h.forest b)).1

/-- The root is in the class. -/
theorem Connects.root_mem {p : Parents κ} {pairs : List (κ × κ)} (h : Connects cmp p pairs)
    (a : κ) : Relation.EqvGen (Paired pairs) a (root p a) := by
  rw [root_eq_findRoot]
  exact h.self a

theorem root_eq_root {pairs : List (κ × κ)} {a b : κ} :
    root (ofPairs cmp pairs) a = root (ofPairs cmp pairs) b ↔
      Relation.EqvGen (Paired pairs) a b :=
  (connects_ofPairs pairs).root_eq_root

end

end UnionFind
