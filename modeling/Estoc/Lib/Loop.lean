import Mathlib.Data.Nat.Basic
import Mathlib.Logic.Relation

/-!
# Loops that run on fuel

A `while` loop whose body may refuse to go on is a partial function: `none`
when the loop is over, the next state otherwise. `run` iterates it on fuel, so
that it computes and so that nothing has to be known of the body to define it.

The fuel is bookkeeping. `run_spec` is the one rule every loop here is proved
by: an invariant the body keeps, a measure the body lowers, and fuel that
covers the measure give a final state that satisfies the invariant and at
which the loop really is over, never one it merely ran out of fuel at.
-/

namespace Loop

variable {σ : Type*}

/-- At most `fuel` rounds of `step`, stopping at the first state it refuses. -/
def run (step : σ → Option σ) : Nat → σ → σ
  | 0, s => s
  | fuel + 1, s =>
    match step s with
    | none => s
    | some s' => run step fuel s'

@[simp] theorem run_zero (step : σ → Option σ) (s : σ) : run step 0 s = s := rfl

theorem run_of_none {step : σ → Option σ} {s : σ} (h : step s = none) :
    ∀ fuel, run step fuel s = s
  | 0 => rfl
  | _ + 1 => by rw [run, h]

theorem run_of_some {step : σ → Option σ} {s s' : σ} (h : step s = some s')
    (fuel : Nat) : run step (fuel + 1) s = run step fuel s' := by
  rw [run, h]

/-- The rule for loops: what the body keeps, the loop keeps, and with fuel for
the measure it ends where the body refuses. -/
theorem run_spec {step : σ → Option σ} (Inv : σ → Prop) (μ : σ → Nat)
    (hstep : ∀ s s', Inv s → step s = some s' → Inv s' ∧ μ s' < μ s) :
    ∀ {fuel : Nat} {s : σ}, Inv s → μ s ≤ fuel →
      Inv (run step fuel s) ∧ step (run step fuel s) = none := by
  intro fuel
  induction fuel with
  | zero =>
      intro s hs hμ
      refine ⟨hs, ?_⟩
      cases h : step s with
      | none => exact h
      | some s' =>
          have := (hstep s s' hs h).2
          omega
  | succ fuel ih =>
      intro s hs hμ
      cases h : step s with
      | none => rw [run_of_none h]; exact ⟨hs, h⟩
      | some s' =>
          obtain ⟨hs', hlt⟩ := hstep s s' hs h
          rw [run_of_some h]
          exact ih hs' (by omega)

/-- The part of the rule that needs no fuel: what the body keeps holds of
whatever state the loop stops at. -/
theorem run_inv {step : σ → Option σ} (Inv : σ → Prop)
    (hstep : ∀ s s', Inv s → step s = some s' → Inv s') :
    ∀ {fuel : Nat} {s : σ}, Inv s → Inv (run step fuel s) := by
  intro fuel
  induction fuel with
  | zero => intro s hs; exact hs
  | succ fuel ih =>
      intro s hs
      cases h : step s with
      | none => rw [run_of_none h]; exact hs
      | some s' => rw [run_of_some h]; exact ih (hstep s s' hs h)

end Loop
