import Estoc.Lib.Turns

/-!
# The writer lock

One lock for all writes of a vault, and inside an operation that holds it another for the
mutations that it issues through its views. Both are chains of promises. What the runtime
is told of is when promises settle and what is called; between two of these steps any
others may fall, so a run is any list of steps each of which is open where it stands.
-/

set_option linter.unusedSectionVars false

namespace Estoc.EventStore

open Turns (Phase resolved)

/-- What was asked of the lock, in order, and how many hold it. -/
structure WriterLock where
  asked : List Phase
  holders : Nat
deriving DecidableEq

namespace WriterLock

def new : WriterLock := ⟨[], 0⟩

variable (lock : WriterLock)

def run : WriterLock := { lock with asked := Turns.ask lock.asked }

def start (i : Nat) : Option WriterLock :=
  (Turns.start lock.asked i).map fun asked => ⟨asked, lock.holders + 1⟩

/-- The promise of what runs settles, either way. -/
def settle (i : Nat) : Option WriterLock :=
  (Turns.settle lock.asked i).map fun asked => { lock with asked }

def release (i : Nat) : Option WriterLock :=
  (Turns.release lock.asked i).map fun asked => ⟨asked, lock.holders - 1⟩

def held : Bool := 0 < lock.holders

end WriterLock

/-! ## Operations -/

/-- The span of one operation, as its views see it. -/
structure Operation where
  mutations : WriterLock
  returned : Bool
  ended : Bool
deriving DecidableEq

/-- A call that is refused, with what it was. -/
structure UnsupportedOperation where
  what : String
deriving DecidableEq

namespace Operation

def new : Operation := ⟨.new, false, false⟩

variable (operation : Operation)

def check : Except UnsupportedOperation Unit :=
  if operation.ended then .error ⟨"a call through a held view after its operation ended"⟩ else .ok ()

/-- A mutation is taken in behind those before it. -/
def mutate : Except UnsupportedOperation Operation := do
  operation.check
  if operation.returned then
    .error ⟨"a mutation through a held view after its operation returned"⟩
  else .ok { operation with mutations := operation.mutations.run }

end Operation

/-! ## What is asked of a runtime -/

/-- How far a call has come: it waits for the lock; it runs, by itself or as the callback
of an operation; the callback's promise has settled; the operation's end waits for the
mutations there were; the call's own promise is about to settle. -/
inductive Stage where
  | queued
  | direct
  | callback
  | settled
  | ending (mutations : Nat)
  | over
deriving DecidableEq

/-- A call that takes the lock: through `locked`, whose callback gets a view, or directly. -/
structure Call where
  locked : Bool
  stage : Stage
  operation : Option Operation
deriving DecidableEq

/-- A step of a call that has the lock. A promise that settles says whether it failed. -/
inductive Inside where
  | directSettles (failed : Bool)
  | callbackSettles (failed : Bool)
  | resumes
  | mutationsIdle
  | mutation
  | mutationStarts (k : Nat)
  | mutationSettles (k : Nat) (failed : Bool)
  | mutationReleases (k : Nat)
  | read
deriving DecidableEq

namespace Call

variable (call : Call)

/-- A step of the mutations' own lock. -/
def mutating (change : WriterLock → Option WriterLock) : Option Call := do
  let operation ← call.operation
  let mutations ← change operation.mutations
  some { call with operation := some { operation with mutations } }

def inside : Inside → Option Call
  | .directSettles _ => if call.stage = .direct then some { call with stage := .over } else none
  | .callbackSettles _ => if call.stage = .callback then some { call with stage := .settled } else none
  -- `end` is called: it takes no more mutations and waits for those it has
  | .resumes => do
    let operation ← call.operation
    if call.stage = .settled then
      some { call with
        stage := .ending operation.mutations.asked.length
        operation := some { operation with returned := true } }
    else none
  | .mutationsIdle => do
    let operation ← call.operation
    match call.stage with
    | .ending n =>
      if resolved operation.mutations.asked n then
        some { call with stage := .over, operation := some { operation with ended := true } }
      else none
    | _ => none
  -- a refused call changes nothing
  | .mutation => do
    let operation ← call.operation
    match operation.mutate with
    | .ok operation => some { call with operation := some operation }
    | .error _ => some call
  | .mutationStarts k => call.mutating (·.start k)
  | .mutationSettles k _ => call.mutating (·.settle k)
  | .mutationReleases k => call.mutating (·.release k)
  | .read => call.operation.map fun _ => call

/-- What the lock lets go: the guard may refuse it, or its callback gets a view. -/
def begin (refused : Bool) : Call :=
  if refused then { call with stage := .over }
  else if call.locked then { call with stage := .callback, operation := some .new }
  else { call with stage := .direct }

end Call

/-- The lock, and the calls that were let queue for it. -/
structure Runtime where
  lock : WriterLock
  calls : List Call
deriving DecidableEq

inductive Step where
  | enter (locked refused : Bool)
  | starts (i : Nat) (refused : Bool)
  | inside (i : Nat) (step : Inside)
  | settles (i : Nat)
  | releases (i : Nat)
deriving DecidableEq

namespace Runtime

def new : Runtime := ⟨.new, []⟩

variable (runtime : Runtime)

def step : Step → Option Runtime
  | .enter locked refused =>
    if refused then some runtime
    else some ⟨runtime.lock.run, runtime.calls ++ [⟨locked, .queued, none⟩]⟩
  | .starts i refused => do
    let call ← runtime.calls[i]?
    let lock ← runtime.lock.start i
    some ⟨lock, runtime.calls.set i (call.begin refused)⟩
  | .inside i step => do
    let call ← runtime.calls[i]?
    let call ← call.inside step
    some { runtime with calls := runtime.calls.set i call }
  | .settles i => do
    let call ← runtime.calls[i]?
    let lock ← runtime.lock.settle i
    if call.stage = .over then some { runtime with lock } else none
  | .releases i => do
    let lock ← runtime.lock.release i
    some { runtime with lock }

def run : List Step → Runtime → Option Runtime
  | [], runtime => some runtime
  | step :: steps, runtime => do
    let runtime ← runtime.step step
    run steps runtime

end Runtime

end Estoc.EventStore
