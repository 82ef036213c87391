import Mathlib.Data.List.Basic

/-!
# Outboxes

What is to be handed over waits in a queue and is handed over from its front, when it fits. Some of
what waits may be dropped, or give its place to something newer; what stands at the front may be
amended. That is all, but for the end: then what waits is let go, whatever it is.

An entry may answer something. The answers to one thing, handed over or waiting, are as many as were
put there, and after the end no more than that: nothing else adds an answer or takes one away.
-/

set_option linter.unusedSectionVars false

namespace Outbox

variable {ε κ : Type}

structure Box (ε : Type) where
  queue : List ε
  handed : List ε

/-- What may be done to what waits. -/
structure Rules (ε : Type) where
  fits : ε → Prop
  droppable : ε → Bool
  /-- The first takes the place of the second. -/
  supersedes : ε → ε → Prop
  /-- The first stands in for the second. -/
  amends : ε → ε → Prop

/-- What is put there is `put`, if anything; only the end, where `isOver`, lets go of the rest. -/
inductive Step (rules : Rules ε) (isOver : Prop) : (put : List ε) → Box ε → Box ε → Prop
  | put (e : ε) {queue handed : List ε} : Step rules isOver [e] ⟨queue, handed⟩ ⟨queue ++ [e], handed⟩
  | supersede {e old : ε} {front back handed : List ε} (h : rules.supersedes e old) :
      Step rules isOver [e] ⟨front ++ old :: back, handed⟩ ⟨front ++ e :: back, handed⟩
  | drop {queue handed : List ε} : Step rules isOver [] ⟨queue, handed⟩
      ⟨queue.filter fun e => !rules.droppable e, handed⟩
  | hand {e : ε} {queue handed : List ε} (h : rules.fits e) :
      Step rules isOver [] ⟨e :: queue, handed⟩ ⟨queue, handed ++ [e]⟩
  | amend {e old : ε} {queue handed : List ε} (h : rules.amends e old) :
      Step rules isOver [] ⟨old :: queue, handed⟩ ⟨e :: queue, handed⟩
  | clear {queue handed : List ε} (h : isOver) : Step rules isOver [] ⟨queue, handed⟩ ⟨[], handed⟩

/-- Some steps, and what they put there. -/
inductive Steps (rules : Rules ε) (isOver : Prop) : List ε → Box ε → Box ε → Prop
  | refl (box : Box ε) : Steps rules isOver [] box box
  | step {put more : List ε} {box box' box'' : Box ε} (h : Step rules isOver put box box')
      (hs : Steps rules isOver more box' box'') : Steps rules isOver (put ++ more) box box''

variable {rules : Rules ε} {isOver isOver' : Prop} {put more : List ε} {box box' box'' : Box ε}

theorem Step.single (h : Step rules isOver put box box') : Steps rules isOver put box box' := by
  have hs := Steps.step h (.refl box')
  rw [List.append_nil] at hs
  exact hs

theorem Steps.trans (h : Steps rules isOver put box box') (h' : Steps rules isOver more box' box'') :
    Steps rules isOver (put ++ more) box box'' := by
  induction h with
  | refl box => exact h'
  | step hstep _ ih =>
      rw [List.append_assoc]
      exact .step hstep (ih h')

theorem Step.mono (h : Step rules isOver put box box') (hover : isOver → isOver') :
    Step rules isOver' put box box' := by
  cases h with
  | put e => exact .put e
  | supersede h => exact .supersede h
  | drop => exact .drop
  | hand h => exact .hand h
  | amend h => exact .amend h
  | clear h => exact .clear (hover h)

theorem Steps.mono (h : Steps rules isOver put box box') (hover : isOver → isOver') :
    Steps rules isOver' put box box' := by
  induction h with
  | refl box => exact .refl box
  | step hstep _ ih => exact .step (hstep.mono hover) ih

/-- What was handed over stays so, and what is handed over fits. -/
theorem Steps.handed (h : Steps rules isOver put box box') :
    ∃ new, box'.handed = box.handed ++ new ∧ ∀ e ∈ new, rules.fits e := by
  induction h with
  | refl box => exact ⟨[], (List.append_nil _).symm, fun e he => by cases he⟩
  | step hstep _ ih =>
      obtain ⟨new, hnew, hfits⟩ := ih
      cases hstep with
      | @hand e queue handed h =>
          refine ⟨e :: new, by rw [hnew, List.append_assoc]; rfl, ?_⟩
          exact List.forall_mem_cons.mpr ⟨h, hfits⟩
      | _ => exact ⟨new, hnew, hfits⟩

/-- What waits was waiting or was put there, or stands in for something. -/
theorem Steps.origin (h : Steps rules isOver put box box') {e : ε} (he : e ∈ box'.queue) :
    e ∈ box.queue ∨ e ∈ put ∨ ∃ old, rules.amends e old := by
  induction h with
  | refl box => exact .inl he
  | step hstep _ ih =>
      rcases ih he with hin | hmore | hamends
      · cases hstep with
        | put e' =>
            rcases List.mem_append.mp hin with hin | hin
            · exact .inl hin
            · exact .inr (.inl (List.mem_append_left _ hin))
        | supersede h =>
            rcases List.mem_append.mp hin with hin | hin
            · exact .inl (List.mem_append_left _ hin)
            · rcases List.mem_cons.mp hin with rfl | hin
              · exact .inr (.inl (List.mem_append_left _ (List.mem_singleton_self _)))
              · exact .inl (List.mem_append_right _ (List.mem_cons_of_mem _ hin))
        | drop => exact .inl (List.mem_filter.mp hin).1
        | hand h => exact .inl (List.mem_cons_of_mem _ hin)
        | amend h =>
            rcases List.mem_cons.mp hin with rfl | hin
            · exact .inr (.inr ⟨_, h⟩)
            · exact .inl (List.mem_cons_of_mem _ hin)
        | clear h => cases hin
      · exact .inr (.inl (List.mem_append_right _ hmore))
      · exact .inr (.inr hamends)

/-- What may be dropped, or gives its place, answers nothing. -/
structure Rules.Answers (rules : Rules ε) (answers : ε → Option κ) : Prop where
  dropped : ∀ {e}, rules.droppable e = true → answers e = none
  superseded : ∀ {e old}, rules.supersedes e old → answers e = none ∧ answers old = none
  amended : ∀ {e old}, rules.amends e old → answers e = answers old

variable [DecidableEq κ] {answers : ε → Option κ}

/-- How many of some entries answer `key`. -/
def tally (answers : ε → Option κ) (key : κ) (entries : List ε) : Nat :=
  entries.countP fun e => answers e = some key

@[simp] theorem tally_nil (key : κ) : tally answers key [] = 0 := rfl

@[simp] theorem tally_append (key : κ) (l l' : List ε) :
    tally answers key (l ++ l') = tally answers key l + tally answers key l' := List.countP_append

theorem tally_cons (key : κ) (e : ε) (l : List ε) :
    tally answers key (e :: l) = tally answers key [e] + tally answers key l := by
  rw [← tally_append]
  rfl

theorem tally_singleton_of_none {e : ε} (h : answers e = none) (key : κ) :
    tally answers key [e] = 0 := by
  simp [tally, h]

theorem tally_filter (h : rules.Answers answers) (key : κ) (l : List ε) :
    tally answers key (l.filter fun e => !rules.droppable e) = tally answers key l := by
  rw [tally, tally, List.countP_filter]
  refine List.countP_congr fun e _ => ?_
  simp only [Bool.and_eq_true, decide_eq_true_eq, Bool.not_eq_true', and_iff_left_iff_imp]
  intro hkey
  by_contra hdrop
  rw [h.dropped (Bool.not_eq_false _ ▸ hdrop)] at hkey
  cases hkey

/-- The answers handed over and waiting. -/
def Box.tally (answers : ε → Option κ) (key : κ) (box : Box ε) : Nat :=
  Outbox.tally answers key box.handed + Outbox.tally answers key box.queue

theorem Step.tally (h : rules.Answers answers) (hstep : Step rules isOver put box box') (key : κ) :
    box'.tally answers key ≤ box.tally answers key + Outbox.tally answers key put ∧
      (¬ isOver → box'.tally answers key = box.tally answers key + Outbox.tally answers key put) := by
  have hexact (heq : box'.tally answers key = box.tally answers key + Outbox.tally answers key put) :
      box'.tally answers key ≤ box.tally answers key + Outbox.tally answers key put ∧
        (¬ isOver → box'.tally answers key = box.tally answers key + Outbox.tally answers key put) :=
    ⟨Nat.le_of_eq heq, fun _ => heq⟩
  cases hstep with
  | put e => exact hexact (by simp only [Box.tally, tally_append]; omega)
  | @supersede e old front back handed hsupersedes =>
      obtain ⟨hnew, hold⟩ := h.superseded hsupersedes
      refine hexact ?_
      simp only [Box.tally, tally_append, tally_cons key e back, tally_cons key old back,
        tally_singleton_of_none hnew, tally_singleton_of_none hold]
      omega
  | drop => exact hexact (by simp only [Box.tally, tally_filter h, tally_nil]; omega)
  | @hand e queue handed hfits =>
      refine hexact ?_
      simp only [Box.tally, tally_append, tally_cons key e queue, tally_nil]
      omega
  | @amend e old queue handed hamends =>
      refine hexact ?_
      have hsame : Outbox.tally answers key [e] = Outbox.tally answers key [old] := by
        simp only [Outbox.tally, List.countP_singleton, h.amended hamends]
      simp only [Box.tally, tally_cons key e queue, tally_cons key old queue, tally_nil, hsame]
      omega
  | clear hover =>
      refine ⟨?_, fun hnot => absurd hover hnot⟩
      simp only [Box.tally, tally_nil]
      omega

/-- Nothing but what is put there adds an answer, and nothing but the end takes one away. -/
theorem Steps.tally (h : rules.Answers answers) (hsteps : Steps rules isOver put box box') (key : κ) :
    box'.tally answers key ≤ box.tally answers key + Outbox.tally answers key put ∧
      (¬ isOver → box'.tally answers key = box.tally answers key + Outbox.tally answers key put) := by
  induction hsteps with
  | refl box => exact ⟨Nat.le_refl _, fun _ => rfl⟩
  | step hstep _ ih =>
      obtain ⟨hle, heq⟩ := hstep.tally h key
      obtain ⟨hle', heq'⟩ := ih
      rw [tally_append]
      exact ⟨by omega, fun hnot => by rw [heq' hnot, heq hnot, Nat.add_assoc]⟩

end Outbox
