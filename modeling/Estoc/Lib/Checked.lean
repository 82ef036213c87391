/-!
# Checked computations

Computations that throw, as values of `Except`: a refusal as a step of its own, and
what it means that a sequence of steps returned. With these a proof takes a run
that returned apart step by step, and puts one together the same way.
-/

namespace Checked

variable {ε α β : Type}

/-- Throw where a condition holds. -/
def refuse (c : Prop) [Decidable c] (error : ε) : Except ε Unit :=
  if c then .error error else .ok ()

/-- A sequence returned what its second part made of what the first returned. -/
theorem bind_eq_ok {x : Except ε α} {f : α → Except ε β} {b : β} :
    (x >>= f) = .ok b ↔ ∃ a, x = .ok a ∧ f a = .ok b := by
  cases x with
  | error e =>
      constructor
      · intro h; cases h
      · rintro ⟨_, h, _⟩; cases h
  | ok a =>
      constructor
      · intro h; exact ⟨a, rfl, h⟩
      · rintro ⟨_, ha, hb⟩; cases ha; exact hb

@[simp] theorem ok_bind (a : α) (f : α → Except ε β) : (Except.ok a >>= f) = f a := by
  simp only [bind, Except.bind]

@[simp] theorem pure_eq_ok (a : α) : (pure a : Except ε α) = .ok a := rfl

@[simp] theorem refuse_eq_ok {c : Prop} [Decidable c] {error : ε} {u : Unit} :
    refuse c error = .ok u ↔ ¬ c := by
  unfold refuse
  split <;> simp_all

theorem refuse_of_not {c : Prop} [Decidable c] {error : ε} (h : ¬ c) :
    refuse c error = .ok () := if_neg h

/-- A refusal that let the rest return did not hold. -/
theorem refuse_bind_eq_ok {c : Prop} [Decidable c] {error : ε} {f : Unit → Except ε β} {b : β} :
    (refuse c error >>= f) = .ok b ↔ ¬ c ∧ f () = .ok b := by
  rw [bind_eq_ok]
  constructor
  · rintro ⟨⟨⟩, h, hf⟩; exact ⟨refuse_eq_ok.mp h, hf⟩
  · rintro ⟨h, hf⟩; exact ⟨(), refuse_eq_ok.mpr h, hf⟩

end Checked
