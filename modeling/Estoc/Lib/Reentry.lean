import Mathlib.Data.List.Basic

/-!
# Code called back while it runs

What is to be done at once is a stack: a thing done may put others before what was left, as a
function does that calls back whoever listens. The outside is let in when nothing is left to do.
A move is an event of the outside or the next thing done, with whatever the code called back
chooses; so a list of moves is any run, and it may stop in the middle of an event.

An invariant of a state and of what is left to do holds of every run where an event and a thing
done keep it, or of every run whose moves are of those that may be made.
-/

set_option linter.unusedSectionVars false

namespace Reentry

variable {σ ι ε α : Type}

structure Busy (σ ι : Type) where
  state : σ
  /-- What is left to do, the next first. -/
  due : List ι

inductive Move (ε α : Type) where
  | event (event : ε)
  | goes (choice : α)

/-- What an event and a thing done make of the state, and what they leave to do. -/
structure Machine (σ ι ε α : Type) where
  takes : σ → ε → σ × List ι
  does : σ → ι → α → σ × List ι

namespace Machine

variable (machine : Machine σ ι ε α)

def step (busy : Busy σ ι) : Move ε α → Busy σ ι
  | .event event =>
    match busy.due with
    | [] => ⟨(machine.takes busy.state event).1, (machine.takes busy.state event).2⟩
    | _ :: _ => busy
  | .goes choice =>
    match busy.due with
    | [] => busy
    | next :: rest =>
      ⟨(machine.does busy.state next choice).1, (machine.does busy.state next choice).2 ++ rest⟩

def run (busy : Busy σ ι) (moves : List (Move ε α)) : Busy σ ι := moves.foldl machine.step busy

/-- Every move of a run is one that may be made where it is made. -/
def Meets (may : Busy σ ι → Prop) : Busy σ ι → List (Move ε α) → Prop
  | _, [] => True
  | busy, move :: moves => may busy ∧ Meets may (machine.step busy move) moves

/-- What an event and a thing done keep, where they may be. -/
structure Keeps (may : Busy σ ι → Prop) (I : σ → List ι → Prop) : Prop where
  takes : ∀ {s} event, may ⟨s, []⟩ → I s [] → I (machine.takes s event).1 (machine.takes s event).2
  does : ∀ {s next rest} choice, may ⟨s, next :: rest⟩ → I s (next :: rest) →
    I (machine.does s next choice).1 ((machine.does s next choice).2 ++ rest)

variable {machine} {may : Busy σ ι → Prop} {I : σ → List ι → Prop} {busy : Busy σ ι}

theorem Keeps.step (h : machine.Keeps may I) (hmay : may busy) (hI : I busy.state busy.due)
    (move : Move ε α) : I (machine.step busy move).state (machine.step busy move).due := by
  obtain ⟨s, due⟩ := busy
  cases move with
  | event event =>
      cases due with
      | nil => exact h.takes event hmay hI
      | cons next rest => exact hI
  | goes choice =>
      cases due with
      | nil => exact hI
      | cons next rest => exact h.does choice hmay hI

theorem Keeps.run (h : machine.Keeps may I) {moves : List (Move ε α)}
    (hmeets : machine.Meets may busy moves) (hI : I busy.state busy.due) :
    I (machine.run busy moves).state (machine.run busy moves).due := by
  induction moves generalizing busy with
  | nil => exact hI
  | cons move moves ih => exact ih hmeets.2 (h.step hmeets.1 hI move)

/-- Where every move may be made. -/
theorem meets_all (busy : Busy σ ι) (moves : List (Move ε α)) :
    machine.Meets (fun _ => True) busy moves := by
  induction moves generalizing busy with
  | nil => trivial
  | cons move moves ih => exact ⟨trivial, ih _⟩

end Machine

end Reentry
