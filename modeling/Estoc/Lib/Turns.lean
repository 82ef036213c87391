import Mathlib.Data.List.Basic

/-!
# Turns

Work that is chained promise by promise: each piece waits for the one asked before it,
runs, settles, and then lets the next go. Where a chain stands is the phase of each piece
of work, in the order it was asked for. When a piece goes on is not said, so that what is
proved holds of every order in which the open steps are taken.
-/

namespace Turns

inductive Phase where
  | waiting
  | running
  | settled
  | released
deriving DecidableEq

/-- In its turn, from its first step until the next is let go. -/
def Phase.holds : Phase → Bool
  | .waiting => false
  | .running => true
  | .settled => true
  | .released => false

/-- Is the promise resolved that was the last of the chain when `n` pieces were asked? -/
def resolved (phases : List Phase) (n : Nat) : Bool :=
  match n with
  | 0 => true
  | n + 1 => phases[n]? == some .released

/-- A piece of work goes from one phase to the next. -/
def move (a b : Phase) (phases : List Phase) (i : Nat) : Option (List Phase) :=
  if phases[i]? = some a then some (phases.set i b) else none

def ask (phases : List Phase) : List Phase := phases ++ [.waiting]

def start (phases : List Phase) (i : Nat) : Option (List Phase) :=
  if resolved phases i then move .waiting .running phases i else none

def settle : List Phase → Nat → Option (List Phase) := move .running .settled

def release : List Phase → Nat → Option (List Phase) := move .settled .released

/-- What began did so when all that was asked before was over. -/
def Ordered (phases : List Phase) : Prop :=
  phases.Pairwise fun a b => b = .waiting ∨ a = .released

variable {phases phases' : List Phase} {i j n : Nat} {a b : Phase}

theorem ordered_iff : Ordered phases ↔ ∀ (i j : Nat) (a b : Phase), i < j → phases[i]? = some a →
    phases[j]? = some b → b = .waiting ∨ a = .released := by
  rw [Ordered, List.pairwise_iff_getElem]
  constructor
  · intro h i j a b hij ha hb
    obtain ⟨hi, rfl⟩ := List.getElem?_eq_some_iff.mp ha
    obtain ⟨hj, rfl⟩ := List.getElem?_eq_some_iff.mp hb
    exact h i j hi hj hij
  · intro h i j hi hj hij
    exact h i j _ _ hij (List.getElem?_eq_getElem hi) (List.getElem?_eq_getElem hj)

theorem move_eq_some (h : move a b phases i = some phases') :
    phases[i]? = some a ∧ phases' = phases.set i b := by
  unfold move at h
  split at h
  · next hi => exact ⟨hi, (Option.some.inj h).symm⟩
  · cases h

theorem start_eq_some (h : start phases i = some phases') :
    resolved phases i = true ∧ phases[i]? = some .waiting ∧ phases' = phases.set i .running := by
  unfold start at h
  split at h
  · next hres => exact ⟨hres, move_eq_some h⟩
  · cases h

/-- The promise that was last is resolved only when all asked until then is over. -/
theorem Ordered.resolved (h : Ordered phases) (hres : resolved phases n = true) (hj : j < n) :
    phases[j]? = some .released := by
  cases n with
  | zero => omega
  | succ n =>
      have hlast : phases[n]? = some .released := beq_iff_eq.mp hres
      rcases Nat.lt_succ_iff_lt_or_eq.mp hj with hlt | rfl
      · have hlen : n < phases.length := (List.getElem?_eq_some_iff.mp hlast).1
        have hthere : j < phases.length := by omega
        rcases ordered_iff.mp h j n _ _ hlt (List.getElem?_eq_getElem hthere) hlast with hw | hr
        · cases hw
        · rw [List.getElem?_eq_getElem hthere, hr]
      · exact hlast

/-- All that was asked before what began is over. -/
theorem Ordered.before (h : Ordered phases) (hi : phases[i]? = some a) (hbegan : a ≠ .waiting)
    (hj : j < i) : phases[j]? = some .released := by
  have hlen : i < phases.length := (List.getElem?_eq_some_iff.mp hi).1
  have hthere : j < phases.length := by omega
  rcases ordered_iff.mp h j i _ _ hj (List.getElem?_eq_getElem hthere) hi with hw | hr
  · exact absurd hw hbegan
  · rw [List.getElem?_eq_getElem hthere, hr]

/-- One piece of work is in its turn. -/
theorem Ordered.unique (h : Ordered phases) (hi : phases[i]? = some a) (hj : phases[j]? = some b)
    (ha : a.holds = true) (hb : b.holds = true) : i = j := by
  have hne : ∀ {p : Phase}, p.holds = true → p ≠ .waiting ∧ p ≠ .released := by
    intro p hp
    cases p <;> simp [Phase.holds] at hp ⊢
  rcases Nat.lt_trichotomy i j with hlt | heq | hgt
  · rw [h.before hj (hne hb).1 hlt] at hi
    exact absurd (Option.some.inj hi).symm (hne ha).2
  · exact heq
  · rw [h.before hi (hne ha).1 hgt] at hj
    exact absurd (Option.some.inj hj).symm (hne hb).2

theorem Ordered.count_le_one (h : Ordered phases) : phases.countP Phase.holds ≤ 1 := by
  induction phases with
  | nil => exact Nat.zero_le 1
  | cons a phases ih =>
      obtain ⟨hfirst, hrest⟩ := List.pairwise_cons.mp h
      rw [List.countP_cons]
      split
      · next hholds =>
          -- nothing behind what is in its turn has begun
          have hnone : phases.countP Phase.holds = 0 := by
            refine List.countP_eq_zero.mpr fun b hb => ?_
            rcases hfirst b hb with rfl | rfl
            · exact Bool.false_ne_true
            · cases hholds
          omega
      · exact ih hrest

/-! ## The steps keep the order -/

theorem ordered_ask (h : Ordered phases) : Ordered (ask phases) :=
  List.pairwise_append.mpr ⟨h, List.pairwise_singleton _ _, fun _ _ _ hb =>
    .inl (List.mem_singleton.mp hb)⟩

/-- What has all before it over may change, as long as it was not over itself. -/
theorem Ordered.set (h : Ordered phases) (hi : phases[i]? = some a) (hlive : a ≠ .released)
    (hbefore : ∀ j < i, phases[j]? = some .released) : Ordered (phases.set i b) := by
  rw [ordered_iff] at h ⊢
  intro j k c d hjk hc hd
  rw [List.getElem?_set] at hc hd
  split at hc
  · next hij =>
      -- what is behind it had not begun
      subst hij
      rw [if_neg (by omega)] at hd
      rcases h i k a d hjk hi hd with hw | hr
      · exact .inl hw
      · exact absurd hr hlive
  · split at hd
    · next hik =>
        subst hik
        rw [hbefore j hjk] at hc
        exact .inr (Option.some.inj hc).symm
    · exact h j k c d hjk hc hd

theorem ordered_start (h : Ordered phases) (hs : start phases i = some phases') :
    Ordered phases' := by
  obtain ⟨hres, hi, rfl⟩ := start_eq_some hs
  exact h.set hi (by decide) fun j hj => h.resolved hres hj

theorem ordered_move (h : Ordered phases) (hbegan : a ≠ .waiting) (hlive : a ≠ .released)
    (hm : move a b phases i = some phases') : Ordered phases' := by
  obtain ⟨hi, rfl⟩ := move_eq_some hm
  exact h.set hi hlive fun j hj => h.before hi hbegan hj

/-- How many are in their turn, when one changes its phase. -/
theorem count_set (hi : phases[i]? = some a) :
    (phases.set i b).countP Phase.holds + (if a.holds then 1 else 0) =
      phases.countP Phase.holds + (if b.holds then 1 else 0) := by
  obtain ⟨hlen, rfl⟩ := List.getElem?_eq_some_iff.mp hi
  have hpos : (if phases[i].holds then 1 else 0) ≤ phases.countP Phase.holds := by
    split
    · next hholds => exact List.countP_pos_iff.mpr ⟨_, List.getElem_mem hlen, hholds⟩
    · exact Nat.zero_le _
  rw [List.countP_set hlen]
  omega

end Turns
