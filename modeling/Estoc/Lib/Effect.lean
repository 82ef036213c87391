import Mathlib.Order.Defs.Unbundled
import Estoc.Lib.Checked

/-!
# Computations that throw and keep what they wrote

A computation on a state that may throw: what it wrote before it threw stays written.
A transaction is the exception, for the part of the state it is about. A run that is
known not to throw is taken apart with `bind_run`, one that throws with `bind_throw`.
-/

/-- A computation over a state. -/
abbrev Effect (σ ε α : Type) := ExceptT ε (StateM σ) α

namespace Effect

variable {σ ε α β : Type}

/-- Change the state. -/
def change (f : σ → σ) : Effect σ ε Unit := fun s => (.ok (), f s)

/-- Read the state. -/
def read (f : σ → α) : Effect σ ε α := fun s => (.ok (f s), s)

/-- What cannot touch the state. -/
def lift (x : Except ε α) : Effect σ ε α := fun s => (x, s)

/-- Run as one: what throws has `undo` of the state before and the state it left. -/
def atomically (undo : σ → σ → σ) (x : Effect σ ε α) : Effect σ ε α := fun s =>
  match x s with
  | (.ok a, s') => (.ok a, s')
  | (.error e, s') => (.error e, undo s s')

variable {x : Effect σ ε α} {f : α → Effect σ ε β} {s s' : σ} {a : α} {e : ε}

theorem bind_run (h : x s = (.ok a, s')) : (x >>= f) s = f a s' := by
  simp [bind, ExceptT.bind, ExceptT.mk, StateT.bind, ExceptT.bindCont, h]

theorem bind_throw (h : x s = (.error e, s')) : (x >>= f) s = (.error e, s') := by
  simp only [bind, ExceptT.bind, ExceptT.mk, StateT.bind, h]
  rfl

/-- What does not throw did not throw halfway. -/
theorem bind_ok {b : β} {s'' : σ} (h : (x >>= f) s = (.ok b, s'')) :
    ∃ a s', x s = (.ok a, s') ∧ f a s' = (.ok b, s'') := by
  rcases hrun : x s with ⟨_ | a, s'⟩
  · rw [bind_throw hrun] at h
    cases h
  · rw [bind_run hrun] at h
    exact ⟨a, s', rfl, h⟩

theorem pure_run (a : α) (s : σ) : (pure a : Effect σ ε α) s = (.ok a, s) := rfl

theorem throw_run (e : ε) (s : σ) : (throw e : Effect σ ε α) s = (.error e, s) := rfl

theorem change_run (g : σ → σ) (s : σ) : (change g : Effect σ ε Unit) s = (.ok (), g s) := rfl

theorem read_run (f : σ → α) (s : σ) : (read f : Effect σ ε α) s = (.ok (f s), s) := rfl

theorem lift_run (x : Except ε α) (s : σ) : (lift x : Effect σ ε α) s = (x, s) := rfl

/-- What does not throw and leaves the state is what follows it. -/
theorem lift_bind_ok (a : α) (f : α → Effect σ ε β) (s : σ) : (lift (.ok a) >>= f) s = f a s :=
  bind_run (lift_run (.ok a) s)

theorem lift_bind_error (e : ε) (f : α → Effect σ ε β) (s : σ) :
    (lift (.error e) >>= f) s = (.error e, s) := bind_throw (lift_run (.error e) s)

theorem read_bind (g : σ → α) (f : α → Effect σ ε β) (s : σ) : (read g >>= f) s = f (g s) s :=
  bind_run (read_run g s)

theorem change_bind (g : σ → σ) (f : Unit → Effect σ ε β) (s : σ) :
    (change g >>= f) s = f () (g s) := bind_run (change_run g s)

/-! ## What a computation keeps -/

/-- However it ends, what is written stands in a relation to what there was. -/
def Keeps (R : σ → σ → Prop) (x : Effect σ ε α) : Prop := ∀ s, R s (x s).2

section
variable {R : σ → σ → Prop}

theorem Keeps.run {result : Except ε α} (hx : Keeps R x) (h : x s = (result, s')) : R s s' := by
  have hs := hx s
  rwa [h] at hs

theorem Keeps.bind [IsTrans σ R] (hx : Keeps R x) (hf : ∀ a, Keeps R (f a)) :
    Keeps R (x >>= f) := by
  intro s
  have hs := hx s
  rcases hrun : x s with ⟨_ | a, s'⟩
  · rw [hrun] at hs
    rw [bind_throw hrun]
    exact hs
  · rw [hrun] at hs
    rw [bind_run hrun]
    exact IsTrans.trans s s' _ hs (hf a s')

theorem Keeps.pure [Std.Refl R] (a : α) : Keeps R (pure a : Effect σ ε α) := fun s => Std.Refl.refl s

theorem Keeps.throw [Std.Refl R] (e : ε) : Keeps R (throw e : Effect σ ε α) := fun s => Std.Refl.refl s

theorem Keeps.lift [Std.Refl R] (x : Except ε α) : Keeps R (lift x) := fun s => Std.Refl.refl s

theorem Keeps.read [Std.Refl R] (g : σ → α) : Keeps R (read g : Effect σ ε α) :=
  fun s => Std.Refl.refl s

theorem Keeps.change {g : σ → σ} (h : ∀ s, R s (g s)) : Keeps R (change g : Effect σ ε Unit) := h

end

/-! ## What never throws -/

def Runs (x : Effect σ ε α) : Prop := ∀ s, ∃ a s', x s = (.ok a, s')

theorem Runs.bind (hx : Runs x) (hf : ∀ a, Runs (f a)) : Runs (x >>= f) := by
  intro s
  obtain ⟨a, s', hrun⟩ := hx s
  rw [bind_run hrun]
  exact hf a s'

theorem Runs.pure (a : α) : Runs (pure a : Effect σ ε α) := fun s => ⟨a, s, rfl⟩

theorem Runs.change (g : σ → σ) : Runs (change g : Effect σ ε Unit) := fun s => ⟨(), g s, rfl⟩

end Effect
