import Mathlib.Data.List.Basic

/-!
# Machines that answer

A machine takes one input at a time, answers it and goes on from the state it left. Two
machines answer alike where a relation of their states is kept by every input they are
given, with the same answer.
-/

set_option linter.unusedSectionVars false

namespace Machine

variable {σ τ ι ω : Type}

/-- The answers to some inputs, and the state after them. -/
def run (step : σ → ι → ω × σ) : σ → List ι → List ω × σ
  | s, [] => ([], s)
  | s, i :: is =>
    let (answer, s) := step s i
    let (answers, s) := run step s is
    (answer :: answers, s)

theorem run_singleton (step : σ → ι → ω × σ) (s : σ) (i : ι) :
    run step s [i] = ([(step s i).1], (step s i).2) := rfl

/-- One machine follows another on the inputs it may be given. -/
structure Follows (step : σ → ι → ω × σ) (step' : τ → ι → ω × τ) (R : σ → τ → Prop)
    (may : ι → Prop) : Prop where
  answers : ∀ {s t i}, R s t → may i → (step s i).1 = (step' t i).1
  keeps : ∀ {s t i}, R s t → may i → R (step s i).2 (step' t i).2

variable {step : σ → ι → ω × σ} {step' : τ → ι → ω × τ} {R : σ → τ → Prop} {may : ι → Prop}

theorem Follows.run (h : Follows step step' R may) {s : σ} {t : τ} {is : List ι} (hR : R s t)
    (hmay : ∀ i ∈ is, may i) :
    (run step s is).1 = (run step' t is).1 ∧ R (run step s is).2 (run step' t is).2 := by
  induction is generalizing s t with
  | nil => exact ⟨rfl, hR⟩
  | cons i is ih =>
      obtain ⟨hi, his⟩ := List.forall_mem_cons.mp hmay
      obtain ⟨hanswers, hkeeps⟩ := ih (h.keeps hR hi) his
      exact ⟨congrArg₂ List.cons (h.answers hR hi) hanswers, hkeeps⟩

/-- What holds of the state and of all the machine has put out so far, where each step
keeps it. -/
theorem run_collects {α : Type} {step : σ → ι → List α × σ} {I : σ → List α → Prop}
    (hstep : ∀ s out i, I s out → I (step s i).2 (out ++ (step s i).1)) {s : σ} {out : List α}
    (is : List ι) (h : I s out) : I (Machine.run step s is).2 (out ++ (Machine.run step s is).1.flatten) := by
  induction is generalizing s out with
  | nil =>
      rw [Machine.run, List.flatten_nil, List.append_nil]
      exact h
  | cons i is ih =>
      have hrest := ih (hstep s out i h)
      rw [List.append_assoc] at hrest
      exact hrest

theorem run_append (s : σ) (is js : List ι) :
    Machine.run step s (is ++ js) =
      ((Machine.run step s is).1 ++ (Machine.run step (Machine.run step s is).2 js).1,
        (Machine.run step (Machine.run step s is).2 js).2) := by
  induction is generalizing s with
  | nil => rfl
  | cons i is ih =>
      have hcons (is : List ι) : Machine.run step s (i :: is) =
          ((step s i).1 :: (Machine.run step (step s i).2 is).1, (Machine.run step (step s i).2 is).2) := rfl
      rw [List.cons_append, hcons, hcons, ih]
      rfl

end Machine
