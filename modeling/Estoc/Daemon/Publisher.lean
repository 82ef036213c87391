import Estoc.Lib.Utf16

/-!
# The publisher

One publisher orders the daemon's state for every view: one value under an epoch and a
revision, the runtime's lines under a revision of their own in the same epoch. The open
state is read off the runtime in one cut, once for a burst of changes. A read takes its
time: between its start and its end the runtime may change, be closed or be replaced, so
each call of the publisher, each cut and each end of a read is a step of its own, and a
run is any list of them. What the publisher does is kept in the order it does it.

An epoch is drawn at random and never twice: here it is how many were drawn before it.
-/

set_option linter.unusedSectionVars false

namespace Estoc.Daemon

open Utf16 (JsString)

abbrev Hold := JsString

/-- The phases that show no runtime. -/
inductive Phase where
  | booting
  | unreadable
  | elsewhere
  | onboarding
  | foreign
  | damaged
  | locked
deriving DecidableEq

structure NonOpenValue where
  phase : Phase
  hold : Option Hold
  detail : Option JsString
deriving DecidableEq

inductive StateValueOf (S : Type) where
  | nonOpen (value : NonOpenValue)
  | opened (hold : Hold) (snapshot : S)
deriving DecidableEq

structure StateOf (S : Type) where
  epoch : Nat
  revision : Nat
  value : StateValueOf S
deriving DecidableEq

structure LinesStateOf (L : Type) where
  epoch : Nat
  revision : Nat
  value : L
deriving DecidableEq

structure LogLine where
  epoch : Nat
  line : JsString
deriving DecidableEq

structure RevisionMarker where
  epoch : Nat
  revision : Nat
deriving DecidableEq

/-- What a view starts from: the state and the lines as published. -/
structure BaselineOf (S L : Type) where
  state : StateOf S
  lines : LinesStateOf L
deriving DecidableEq

def markerOf {S : Type} (state : StateOf S) : RevisionMarker := ⟨state.epoch, state.revision⟩

structure PublisherOptions (L : Type) where
  noLines : L
  maxRevision : Nat

/-- The runtime shown, by its place among those opened; `lines` are those said while its
first read was under way. -/
structure Opened (L : Type) where
  runtime : Nat
  hold : Hold
  installed : Bool
  lines : Option L
deriving DecidableEq

/-- A refresh that waits, by its place among those asked. -/
structure Waiter where
  refresh : Nat
  target : Nat
deriving DecidableEq

/-- A read of a runtime, what it covers, and whether it has ended. The publisher hears of
its end one step later. -/
structure Build where
  runtime : Nat
  covering : Nat
  settled : Bool
deriving DecidableEq

/-- Why a runtime was left before it was shown. -/
inductive Left where
  | closed
  | replaced
deriving DecidableEq

inductive Failure (E : Type) where
  | read (error : E)
  | stateChanged
  | left (why : Left)
deriving DecidableEq

/-- What the publisher does: what it tells every subscriber, that a read failed, how the
promises it made settle, and the reads it begins. -/
inductive Effect (S L E : Type) where
  | state (state : StateOf S)
  | lines (lines : LinesStateOf L)
  | log (line : LogLine)
  | unavailable (error : E)
  | failed (error : E)
  | ready (runtime : Nat)
  | notReady (runtime : Nat) (failure : Failure E)
  | answered (refresh : Nat) (marker : RevisionMarker)
  | refused (refresh : Nat) (failure : Failure E)
  | capture (runtime : Nat)
deriving DecidableEq

structure Publisher (S L E : Type) where
  state : StateOf S
  linesState : LinesStateOf L
  changes : Nat
  covered : Nat
  /-- The last read that failed, and how many changes it would have covered. -/
  failure : Option (Nat × E)
  opened : Option (Opened L)
  build : Option Build
  waiters : List Waiter
  /-- How many epochs were drawn, runtimes opened and refreshes asked. -/
  drawn : Nat
  runtimes : Nat
  refreshes : Nat
  effects : List (Effect S L E)
deriving DecidableEq

inductive Op (S L E : Type) where
  | set (value : NonOpenValue)
  | «open» (hold : Hold)
  | close (runtime : Nat)
  | invalidate
  | lines (value : L)
  | log (line : JsString)
  | refresh
  | cut
  | captured (snapshot : S)
  | captureFailed (error : E)
  | built
deriving DecidableEq

namespace Publisher

variable {S L E : Type} (options : PublisherOptions L)

def new (initial : NonOpenValue) : Publisher S L E where
  state := ⟨0, 1, .nonOpen initial⟩
  linesState := ⟨0, 1, options.noLines⟩
  changes := 0
  covered := 0
  failure := none
  opened := none
  build := none
  waiters := []
  drawn := 1
  runtimes := 0
  refreshes := 0
  effects := []

variable (p : Publisher S L E)

def current : BaselineOf S L := ⟨p.state, p.linesState⟩

/-- What a view that attaches now starts from; the failure, while the state is stale. -/
def attach : Except E (BaselineOf S L) :=
  match p.failure with
  | some (_, error) => .error error
  | none => .ok p.current

def does (effects : List (Effect S L E)) : Publisher S L E :=
  { p with effects := p.effects ++ effects }

/-- Every refresh that waits is refused. -/
def refuse (failure : Failure E) : Publisher S L E :=
  { p with
    waiters := []
    effects := p.effects ++ p.waiters.map fun waiter => .refused waiter.refresh failure }

/-- The runtime shown is gone. -/
def abandon (why : Left) : Publisher S L E :=
  match p.opened with
  | none => p
  | some opened =>
    if opened.installed then refuse { p with opened := none } .stateChanged
    else does { p with opened := none } [.notReady opened.runtime (.left why)]

def leave : Publisher S L E := p.abandon .replaced

def schedule : Publisher S L E :=
  match p.build, p.opened with
  | none, some opened =>
    if opened.installed = true ∧ (p.changes ≤ p.covered ∨
        (∃ failure ∈ p.failure, p.changes ≤ failure.1) ∧ p.waiters = []) then p
    else does { p with build := some ⟨opened.runtime, p.changes, false⟩ } [.capture opened.runtime]
  | _, _ => p

def renew (value : StateValueOf S) : Publisher S L E :=
  does { refuse p .stateChanged with
    state := ⟨p.drawn, 1, value⟩
    linesState := ⟨p.drawn, 1, options.noLines⟩
    drawn := p.drawn + 1
    failure := none }
    [.state ⟨p.drawn, 1, value⟩, .lines ⟨p.drawn, 1, options.noLines⟩]

def publishState (value : StateValueOf S) : Publisher S L E :=
  if options.maxRevision ≤ p.state.revision then p.renew options value
  else
    let state : StateOf S := ⟨p.state.epoch, p.state.revision + 1, value⟩
    does { p with state } [.state state]

/-- The lines under the next revision, whatever it is. -/
def sayLines (value : L) : Publisher S L E :=
  let linesState : LinesStateOf L := ⟨p.state.epoch, p.linesState.revision + 1, value⟩
  does { p with linesState } [.lines linesState]

def publishLines (value : L) : Publisher S L E :=
  if options.maxRevision ≤ p.linesState.revision then
    (p.renew options p.state.value).sayLines value
  else p.sayLines value

def answer : Publisher S L E :=
  does { p with waiters := p.waiters.filter fun waiter => p.covered < waiter.target }
    ((p.waiters.filter fun waiter => waiter.target ≤ p.covered).map fun waiter =>
      .answered waiter.refresh (markerOf p.state))

/-! ## What is asked of it -/

def set (value : NonOpenValue) : Publisher S L E :=
  match p.state.value with
  | .nonOpen current =>
    if current.phase = value.phase ∧ current.hold = value.hold then
      if current.detail = value.detail then p.leave
      else p.leave.publishState options (.nonOpen value)
    else p.leave.renew options (.nonOpen value)
  | .opened _ _ => p.leave.renew options (.nonOpen value)

def «open» (hold : Hold) : Publisher S L E :=
  schedule { p.leave with opened := some ⟨p.runtimes, hold, false, none⟩, runtimes := p.runtimes + 1 }

def close (runtime : Nat) : Publisher S L E :=
  match p.opened with
  | some opened => if opened.runtime = runtime then p.abandon .closed else p
  | none => p

def invalidate : Publisher S L E := schedule { p with changes := p.changes + 1 }

def lines (value : L) : Publisher S L E :=
  match p.opened with
  | none => p
  | some opened =>
    if opened.installed then p.publishLines options value
    else { p with opened := some { opened with lines := some value } }

def log (line : JsString) : Publisher S L E := p.does [.log ⟨p.state.epoch, line⟩]

/-- Whether a runtime is shown whose first read stands published. -/
def installed : Bool := p.opened.any (·.installed)

def refresh : Publisher S L E :=
  if p.installed = false ∨ p.changes ≤ p.covered then
    does { p with refreshes := p.refreshes + 1 } [.answered p.refreshes (markerOf p.state)]
  else
    schedule { p with
      waiters := p.waiters ++ [⟨p.refreshes, p.changes⟩]
      refreshes := p.refreshes + 1 }

/-! ## How a read goes -/

def cut : Publisher S L E :=
  { p with build := p.build.map fun build => { build with covering := p.changes } }

/-- The first read stands published, and the lines said meanwhile follow it. -/
def install (opened : Opened L) (value : StateValueOf S) : Publisher S L E :=
  let shown := renew options { p with opened := some { opened with installed := true } } value
  match opened.lines with
  | some lines => (shown.publishLines options lines).does [.ready opened.runtime]
  | none => shown.does [.ready opened.runtime]

/-- A snapshot read, published as the open state. -/
def publishRead (opened : Opened L) (snapshot : S) : Publisher S L E :=
  if opened.installed then p.publishState options (.opened opened.hold snapshot)
  else p.install options opened (.opened opened.hold snapshot)

/-- So many changes are covered by what is published. -/
def covers (covering : Nat) : Publisher S L E :=
  answer { p with covered := covering, failure := none }

/-- The state published stands, stale, and every view is told. -/
def fails (covering : Nat) (error : E) : Publisher S L E :=
  (refuse { p with failure := some (covering, error) } (.read error)).does
    [.unavailable error, .failed error]

/-- The read that ends, if one is under way, its end taken note of. -/
def settle : Option (Build × Publisher S L E) :=
  match p.build with
  | some build =>
    if build.settled then none else some (build, { p with build := some { build with settled := true } })
  | none => none

/-- The runtime shown, if it is this one. -/
def shows (runtime : Nat) : Option (Opened L) :=
  p.opened.filter fun opened => opened.runtime = runtime

def captured (snapshot : S) : Publisher S L E :=
  match p.settle with
  | none => p
  | some (build, p) =>
    match p.shows build.runtime with
    | none => p
    | some opened => (p.publishRead options opened snapshot).covers build.covering

def captureFailed (error : E) : Publisher S L E :=
  match p.settle with
  | none => p
  | some (build, p) =>
    match p.shows build.runtime with
    | none => p
    | some opened =>
      if opened.installed then p.fails build.covering error
      else does { p with opened := none } [.notReady opened.runtime (.read error)]

/-- The publisher hears that a read has ended. -/
def built : Publisher S L E :=
  match p.build with
  | some build => if build.settled then schedule { p with build := none } else p
  | none => p

def step : Op S L E → Publisher S L E
  | .set value => p.set options value
  | .open hold => p.open hold
  | .close runtime => p.close runtime
  | .invalidate => p.invalidate
  | .lines value => p.lines options value
  | .log line => p.log line
  | .refresh => p.refresh
  | .cut => p.cut
  | .captured snapshot => p.captured options snapshot
  | .captureFailed error => p.captureFailed error
  | .built => p.built

end Publisher

end Estoc.Daemon
