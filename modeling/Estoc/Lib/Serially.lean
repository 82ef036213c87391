import Estoc.Lib.OMap
import Estoc.Lib.Turns

/-!
# One at a time under a key

Work asked for under keys: a piece goes behind the last asked under its key, and the last of
each key is kept only as long as it runs. That a key is forgotten loses no order, because it
is forgotten only when the last of it is over. What a piece of work is stands beside its
phase and plays no part.
-/

set_option linter.unusedSectionVars false

namespace Serially

open Turns (Phase)

structure Call (κ ω : Type) where
  key : κ
  /-- What it goes behind; nothing where the key was not kept. -/
  previous : Option Nat
  phase : Phase
  work : ω

structure Queue (κ ω : Type) where
  calls : List (Call κ ω)
  /-- The last asked under each key that is kept. -/
  tails : OMap κ Nat

section
variable {κ ω : Type} [DecidableEq κ]

namespace Queue

def empty : Queue κ ω := ⟨[], OMap.empty⟩

variable (q : Queue κ ω)

def ask (key : κ) (work : ω) : Queue κ ω where
  calls := q.calls ++ [⟨key, q.tails.get? key, .waiting, work⟩]
  tails := q.tails.set key q.calls.length

def isOver (i : Nat) : Bool := q.calls[i]?.any fun call => call.phase == .released

/-- May it begin? -/
def ready (call : Call κ ω) : Bool :=
  match call.previous with
  | none => true
  | some previous => q.isOver previous

/-- A call goes on, with the work that is left of it. -/
def move (i : Nat) (phase : Phase) (work : ω) : Queue κ ω :=
  match q.calls[i]? with
  | some call => { q with calls := q.calls.set i { call with phase := phase, work := work } }
  | none => q

/-- The key of a call that is over is forgotten, unless another was asked under it. -/
def sweep (i : Nat) : Queue κ ω :=
  match q.calls[i]? with
  | some call =>
    if q.tails.get? call.key = some i then { q with tails := q.tails.erase call.key } else q
  | none => q

/-- Under one key, what began did so when all asked before was over. -/
structure Ordered : Prop where
  turns : ∀ (i j : Nat) (a b : Call κ ω), i < j → q.calls[i]? = some a →
    q.calls[j]? = some b → a.key = b.key →
    b.phase = .waiting ∨ a.phase = .released
  linked : ∀ (j : Nat) (b : Call κ ω) (p : Nat), q.calls[j]? = some b → b.previous = some p →
    (∃ a : Call κ ω, q.calls[p]? = some a ∧ a.key = b.key) ∧
      ∀ (i : Nat) (a : Call κ ω), p < i → i < j → q.calls[i]? = some a → a.key ≠ b.key
  first : ∀ (j : Nat) (b : Call κ ω), q.calls[j]? = some b → b.previous = none →
    ∀ (i : Nat) (a : Call κ ω), i < j → q.calls[i]? = some a → a.key = b.key → a.phase = .released
  kept : ∀ (key : κ) (p : Nat), q.tails.get? key = some p →
    (∃ a : Call κ ω, q.calls[p]? = some a ∧ a.key = key) ∧
      ∀ (i : Nat) (a : Call κ ω), p < i → q.calls[i]? = some a → a.key ≠ key
  forgotten : ∀ key : κ, q.tails.get? key = none →
    ∀ (i : Nat) (a : Call κ ω), q.calls[i]? = some a → a.key = key → a.phase = .released

end Queue

open Queue (Ordered)

variable {q : Queue κ ω} {i j : Nat} {a b : Call κ ω} {key : κ} {work : ω} {phase : Phase}

theorem ordered_empty : Ordered (Queue.empty : Queue κ ω) where
  turns _ _ _ _ _ h := by cases h
  linked _ _ _ h := by cases h
  first _ _ h := by cases h
  kept _ _ h := by cases h
  forgotten _ _ _ _ h := by cases h

theorem Queue.Ordered.ready (h : q.Ordered) (ha : q.calls[i]? = some a) (hready : q.ready a = true)
    {c : Call κ ω} (hj : j < i) (hc : q.calls[j]? = some c) (hkey : c.key = a.key) :
    c.phase = .released := by
  rw [Queue.ready] at hready
  split at hready
  · next hnone => exact h.first i a ha hnone j c hj hc hkey
  · next p hp =>
      obtain ⟨⟨d, hd, hdkey⟩, hbetween⟩ := h.linked i a p ha hp
      have hover : d.phase = .released := by
        rw [Queue.isOver, hd] at hready
        exact beq_iff_eq.mp hready
      rcases Nat.lt_trichotomy j p with hlt | rfl | hgt
      · rcases h.turns j p c d hlt hc hd (hkey.trans hdkey.symm) with hw | hr
        · cases hover.symm.trans hw
        · exact hr
      · cases hc.symm.trans hd
        exact hover
      · exact absurd hkey (hbetween j c hgt hj hc)

/-- All that was asked before what began is over. -/
theorem Queue.Ordered.before (h : q.Ordered) (ha : q.calls[i]? = some a) (hbegan : a.phase ≠ .waiting)
    {c : Call κ ω} (hj : j < i) (hc : q.calls[j]? = some c) (hkey : c.key = a.key) :
    c.phase = .released :=
  (h.turns j i c a hj hc ha hkey).resolve_left hbegan

/-- Under one key, one call is in its turn. -/
theorem Queue.Ordered.unique (h : q.Ordered) (ha : q.calls[i]? = some a) (hb : q.calls[j]? = some b)
    (hkey : a.key = b.key) (hai : a.phase.holds = true) (hbj : b.phase.holds = true) : i = j := by
  have hne : ∀ {p : Phase}, p.holds = true → p ≠ .waiting ∧ p ≠ .released := by
    intro p hp
    cases p <;> simp [Phase.holds] at hp ⊢
  rcases Nat.lt_trichotomy i j with hlt | heq | hgt
  · exact absurd (h.before hb (hne hbj).1 hlt ha hkey) (hne hai).2
  · exact heq
  · exact absurd (h.before ha (hne hai).1 hgt hb hkey.symm) (hne hbj).2

/-! ## The steps keep the order -/

theorem ordered_ask (h : q.Ordered) (key : κ) (work : ω) : (q.ask key work).Ordered := by
  have hold : ∀ {i : Nat} {a : Call κ ω}, (q.ask key work).calls[i]? = some a →
      q.calls[i]? = some a ∧ i < q.calls.length ∨
        i = q.calls.length ∧ a = ⟨key, q.tails.get? key, .waiting, work⟩ := by
    intro i a ha
    rw [Queue.ask] at ha
    rcases Nat.lt_trichotomy i q.calls.length with hlt | heq | hgt
    · rw [List.getElem?_append_left hlt] at ha
      exact .inl ⟨ha, hlt⟩
    · subst heq
      rw [List.getElem?_concat_length] at ha
      exact .inr ⟨rfl, (Option.some.inj ha).symm⟩
    · rw [List.getElem?_eq_none (by simp; omega)] at ha
      cases ha
  have hnew : ∀ {i : Nat} {a : Call κ ω}, q.calls[i]? = some a →
      (q.ask key work).calls[i]? = some a := by
    intro i a ha
    rw [Queue.ask, List.getElem?_append_left (List.getElem?_eq_some_iff.mp ha).1, ha]
  refine ⟨?_, ?_, ?_, ?_, ?_⟩
  · intro i j a b hij ha hb hkey
    rcases hold hb with ⟨hb, -⟩ | ⟨-, rfl⟩
    · rcases hold ha with ⟨ha, -⟩ | ⟨rfl, -⟩
      · exact h.turns i j a b hij ha hb hkey
      · have := (List.getElem?_eq_some_iff.mp hb).1
        omega
    · exact .inl rfl
  · intro j b p hb hp
    rcases hold hb with ⟨hb, hj⟩ | ⟨rfl, rfl⟩
    · obtain ⟨⟨a, ha, hkey⟩, hbetween⟩ := h.linked j b p hb hp
      refine ⟨⟨a, hnew ha, hkey⟩, fun i c hpi hij hc => ?_⟩
      rcases hold hc with ⟨hc, -⟩ | ⟨rfl, -⟩
      · exact hbetween i c hpi hij hc
      · omega
    · obtain ⟨⟨a, ha, hkey⟩, hlast⟩ := h.kept key p hp
      refine ⟨⟨a, hnew ha, hkey⟩, fun i c hpi hij hc => ?_⟩
      rcases hold hc with ⟨hc, -⟩ | ⟨rfl, -⟩
      · exact hlast i c hpi hc
      · omega
  · intro j b hb hnone i a hij ha hkey
    rcases hold hb with ⟨hb, hj⟩ | ⟨rfl, rfl⟩
    · rcases hold ha with ⟨ha, -⟩ | ⟨rfl, -⟩
      · exact h.first j b hb hnone i a hij ha hkey
      · omega
    · rcases hold ha with ⟨ha, -⟩ | ⟨rfl, -⟩
      · exact h.forgotten key hnone i a ha hkey
      · omega
  · intro other p hp
    rw [Queue.ask, OMap.get?_set] at hp
    split at hp
    · next heq =>
        cases hp
        refine ⟨⟨_, List.getElem?_concat_length, heq.symm⟩, fun i a hi ha => ?_⟩
        rcases hold ha with ⟨-, hlt⟩ | ⟨rfl, -⟩
        · omega
        · omega
    · next hne =>
        obtain ⟨⟨a, ha, hkey⟩, hlast⟩ := h.kept other p hp
        refine ⟨⟨a, hnew ha, hkey⟩, fun i c hi hc => ?_⟩
        rcases hold hc with ⟨hc, -⟩ | ⟨-, rfl⟩
        · exact hlast i c hi hc
        · exact fun heq => hne heq.symm
  · intro other hnone i a ha hkey
    rw [Queue.ask, OMap.get?_set] at hnone
    split at hnone
    · cases hnone
    · next hne =>
        rcases hold ha with ⟨ha, -⟩ | ⟨-, rfl⟩
        · exact h.forgotten other hnone i a ha hkey
        · exact absurd hkey.symm hne

/-- What a call goes on as: itself, in another phase and with other work. -/
theorem calls_move (ha : q.calls[i]? = some a) (phase : Phase) (work : ω) :
    (q.move i phase work).calls = q.calls.set i { a with phase := phase, work := work } ∧
      (q.move i phase work).tails = q.tails := by
  rw [Queue.move, ha]
  exact ⟨rfl, rfl⟩

/-- Where a call stands after one of them moved. -/
theorem get?_move (ha : q.calls[i]? = some a) (hb : (q.move i phase work).calls[j]? = some b) :
    ∃ c, q.calls[j]? = some c ∧ b.key = c.key ∧ b.previous = c.previous ∧
      (j = i ∧ c = a ∧ b.phase = phase ∧ b.work = work ∨ j ≠ i ∧ b = c) := by
  rw [(calls_move ha phase work).1, List.getElem?_set] at hb
  split at hb
  · next heq =>
      subst heq
      split at hb
      · cases hb
        exact ⟨a, ha, rfl, rfl, .inl ⟨rfl, rfl, rfl, rfl⟩⟩
      · cases hb
  · next hne => exact ⟨b, hb, rfl, rfl, .inr ⟨Ne.symm hne, rfl⟩⟩

theorem get?_move_of (ha : q.calls[i]? = some a) (hb : q.calls[j]? = some b)
    (phase : Phase) (work : ω) :
    ∃ c, (q.move i phase work).calls[j]? = some c ∧ c.key = b.key ∧
      (b.phase = .released → i ≠ j → c.phase = .released) := by
  rw [(calls_move ha phase work).1, List.getElem?_set]
  by_cases heq : i = j
  · subst heq
    cases ha.symm.trans hb
    rw [if_pos rfl, if_pos (List.getElem?_eq_some_iff.mp ha).1]
    exact ⟨_, rfl, rfl, fun _ hne => absurd rfl hne⟩
  · rw [if_neg heq]
    exact ⟨b, hb, rfl, fun h _ => h⟩

/-- What is not over goes on, once all before it is over. -/
theorem Queue.Ordered.move (h : q.Ordered) (ha : q.calls[i]? = some a) (hlive : a.phase ≠ .released)
    (hbefore : ∀ (j : Nat) (c : Call κ ω), j < i → q.calls[j]? = some c → c.key = a.key →
      c.phase = .released) : (q.move i phase work).Ordered := by
  have hover : ∀ {j : Nat} {b c : Call κ ω}, q.calls[j]? = some c → c.phase = .released →
      (j = i ∧ c = a ∧ b.phase = phase ∧ b.work = work ∨ j ≠ i ∧ b = c) →
      b.phase = .released := by
    rintro j b c hc hr (⟨rfl, rfl, -, -⟩ | ⟨-, rfl⟩)
    · exact absurd hr hlive
    · exact hr
  refine ⟨?_, ?_, ?_, ?_, ?_⟩
  · intro j k b c hjk hb hc hkey
    obtain ⟨b', hb', hbkey, -, hbwhich⟩ := get?_move ha hb
    obtain ⟨c', hc', hckey, -, hcwhich⟩ := get?_move ha hc
    have hkey' : b'.key = c'.key := by rw [← hbkey, ← hckey, hkey]
    rcases hcwhich with ⟨rfl, rfl, -, -⟩ | ⟨-, rfl⟩
    · exact .inr (hover hb' (hbefore j b' hjk hb' hkey') hbwhich)
    · rcases h.turns j k b' c hjk hb' hc' hkey' with hw | hr
      · exact .inl hw
      · exact .inr (hover hb' hr hbwhich)
  · intro j b p hb hp
    obtain ⟨b', hb', hbkey, hprevious, -⟩ := get?_move ha hb
    obtain ⟨⟨c, hc, hckey⟩, hbetween⟩ := h.linked j b' p hb' (hprevious ▸ hp)
    obtain ⟨d, hd, hdkey, -⟩ := get?_move_of ha hc phase work
    refine ⟨⟨d, hd, by rw [hdkey, hckey, hbkey]⟩, fun k e hpk hkj he => ?_⟩
    obtain ⟨e', he', hekey, -, -⟩ := get?_move ha he
    rw [hekey, hbkey]
    exact hbetween k e' hpk hkj he'
  · intro j b hb hnone k c hkj hc hkey
    obtain ⟨b', hb', hbkey, hprevious, -⟩ := get?_move ha hb
    obtain ⟨c', hc', hckey, -, hcwhich⟩ := get?_move ha hc
    exact hover hc' (h.first j b' hb' (hprevious ▸ hnone) k c' hkj hc'
      (by rw [← hckey, hkey, hbkey])) hcwhich
  · intro key p hp
    rw [(calls_move ha phase work).2] at hp
    obtain ⟨⟨c, hc, hckey⟩, hlast⟩ := h.kept key p hp
    obtain ⟨d, hd, hdkey, -⟩ := get?_move_of ha hc phase work
    refine ⟨⟨d, hd, hdkey.trans hckey⟩, fun k e hpk he => ?_⟩
    obtain ⟨e', he', hekey, -, -⟩ := get?_move ha he
    rw [hekey]
    exact hlast k e' hpk he'
  · intro key hnone k c hc hkey
    rw [(calls_move ha phase work).2] at hnone
    obtain ⟨c', hc', hckey, -, hcwhich⟩ := get?_move ha hc
    exact hover hc' (h.forgotten key hnone k c' hc' (hckey ▸ hkey)) hcwhich

theorem ordered_sweep (h : q.Ordered) (ha : q.calls[i]? = some a) (hover : a.phase = .released) :
    (q.sweep i).Ordered := by
  rw [Queue.sweep, ha]
  simp only []
  split
  · next hlast =>
      refine ⟨h.turns, h.linked, h.first, ?_, ?_⟩
      · intro key p hp
        rw [OMap.get?_erase] at hp
        split at hp
        · cases hp
        · exact h.kept key p hp
      · intro key hnone j c hc hkey
        rw [OMap.get?_erase] at hnone
        split at hnone
        · next heq =>
            subst heq
            -- the last of the key is over, and with it all that was asked before
            rcases Nat.lt_trichotomy j i with hlt | rfl | hgt
            · rcases h.turns j i c a hlt hc ha hkey with hw | hr
              · cases hover.symm.trans hw
              · exact hr
            · cases hc.symm.trans ha
              exact hover
            · exact absurd hkey ((h.kept _ i hlast).2 j c hgt hc)
        · exact h.forgotten key hnone j c hc hkey
  · exact h

end

end Serially
