import Estoc.Daemon.Notified

/-!
# A client that outlives its connections

A client over the ports that are opened for it, one after another, each with a session of its own.
When a session ends another port is opened after a delay. A daemon that cannot speak the API ends
the retrying, as does the view closing.

The client listens to the session it made last and passes on what that one says; the session says it
in the middle of what it does, and the client's own listeners may call the client in the middle of
that. So what is left to do is a stack, as it is for a session. A port comes or is refused, a timer
fires and a frame arrives when nothing is left to do.

A port is told apart by how many were opened before it, and so is the session on it. What is passed
on is marked with the session it is from.
-/

set_option linter.unusedSectionVars false

namespace Estoc.Daemon

open Json (lit)
open Utf16 (JsString)
open Promises (Ledger)

namespace Reconnecting

inductive Event (F Data Input : Type) where
  | opened
  | refuses
  | fires (timer : Nat)
  | receives (port : Nat) (data : Data)
  | portCloses (port : Nat)
  | sendFails (port : Nat)
  | acts (act : Notified.Act F Input)

/-- What is to be done at once. -/
inductive Due (F Input Limits S L : Type) where
  | emits (said : Said Limits S L) (source : Option Nat)
  | tells (listener : F) (said : Said Limits S L) (source : Option Nat)
  | does (act : Notified.Act F Input)
  /-- A session says something to the client. -/
  | hears (session : Nat) (said : Said Limits S L)
  | sets (connection : Connection Limits)
  | loses (because : Option CallError)
  | resolves
  | rejects
  | schedules
  | opens
  /-- The client is closed, or incompatible, and has said so. -/
  | returns

end Reconnecting

structure Reconnecting (F Data Limits S L V : Type) where
  connection : Connection Limits
  state : Option (StateOf S)
  lines : Option (LinesStateOf L)
  current : Option Nat
  stopped : Bool
  timer : Option Nat
  /-- The timers set that neither fired nor were cleared. -/
  timers : List Nat
  nextTimer : Nat
  /-- How many ports are being opened. -/
  openings : Nat
  /-- The ports opened, each with its session; none where it was closed at once. -/
  ports : List (Option (Client Data Limits S L V))
  waiting : List Nat
  ledger : Ledger (Outcome V)
  listeners : Kind → Listeners F
  told : List (F × Said Limits S L)
  /-- The baselines the sessions were attached with. -/
  baselines : List (Nat × BaselineOf S L)
  /-- The call of `close` that stopped the client has returned, or it is incompatible and said so. -/
  finished : Bool

namespace Reconnecting

variable {F Data Input Raw Limits S L V : Type} [DecidableEq F]
  (sdk : Sdk Data Input Raw Limits S L V) (s : Reconnecting F Data Limits S L V)

def NOT_CONNECTED : CallError :=
  clientError (lit "NotConnected") (lit "no attachment has completed on the current connection") .none

/-- A client whose first port is being opened. -/
def new : Reconnecting F Data Limits S L V where
  connection := .connecting
  state := none
  lines := none
  current := none
  stopped := false
  timer := none
  timers := []
  nextTimer := 0
  openings := 1
  ports := []
  waiting := []
  ledger := .empty
  listeners _ := ⟨[], List.nodup_nil⟩
  told := []
  baselines := []
  finished := false

def session (i : Nat) : Option (Client Data Limits S L V) := s.ports[i]?.join

/-- A port is closed by its session when that ends, or was closed as it came. -/
def closed (port : Option (Client Data Limits S L V)) : Bool := port.all Client.ended

/-- What a session does, and says to the client. -/
def atSession (i : Nat) (change : Client Data Limits S L V → Says.Change Data Limits S L V) :
    Reconnecting F Data Limits S L V × List (Due F Input Limits S L) :=
  match s.session i with
  | none => (s, [])
  | some client =>
    ({ s with ports := s.ports.set i (some (change client).1) }, (change client).2.map (.hears i))

/-! ## What a view does -/

def stoppedWith : CallError :=
  match s.connection with
  | .incompatible _ message => clientError (lit "Incompatible") message .none
  | _ => clientError (lit "TransportDisconnected") (lit "the view closed the client") .none

/-- A call or a refresh is the current session's. -/
def asks (asked : Client Data Limits S L V → Client Data Limits S L V) :
    Reconnecting F Data Limits S L V × List (Due F Input Limits S L) :=
  match s.current with
  | none => ({ s with ledger := s.ledger.handSettled (.rejected NOT_CONNECTED) }, [])
  | some i => s.atSession i fun client => (asked client, [])

def isConnected : Bool := s.connection matches .connected _ _

def connected : Reconnecting F Data Limits S L V :=
  if s.isConnected then { s with ledger := s.ledger.handSettled .done }
  else if s.stopped then { s with ledger := s.ledger.handSettled (.rejected s.stoppedWith) }
  else { s with waiting := s.waiting ++ [s.ledger.handed], ledger := s.ledger.hand }

def settleWaiting (outcome : Outcome V) : Reconnecting F Data Limits S L V :=
  { s with
    waiting := []
    ledger := s.ledger.settleAll (s.waiting.map fun promise => (promise, outcome)) }

def close : Reconnecting F Data Limits S L V × List (Due F Input Limits S L) :=
  if s.stopped then (s, [])
  else
    let stopped : Reconnecting F Data Limits S L V := { s with
      stopped := true
      timers := s.timers.filter fun timer => s.timer ≠ some timer
      current := none }
    let ended := match s.current with
      | none => (stopped, [])
      | some i => stopped.atSession i Says.close
    (ended.1, ended.2 ++ [.sets (.disconnected none), .rejects, .returns])

def listen (kind : Kind) (change : Listeners F → Listeners F) : Reconnecting F Data Limits S L V :=
  { s with listeners := fun other =>
      if other = kind then change (s.listeners other) else s.listeners other }

def act : Notified.Act F Input → Reconnecting F Data Limits S L V × List (Due F Input Limits S L)
  | .call name input => s.asks fun client => client.call sdk name input
  | .refresh => s.asks fun client => client.refresh sdk
  | .connected => (s.connected, [])
  | .close => s.close
  | .on kind listener => (s.listen kind fun listeners => listeners.add listener, [])
  | .off kind listener => (s.listen kind fun listeners => listeners.delete listener, [])

/-! ## What the sessions say, and the ports and the timer -/

def set (connection : Connection Limits) (source : Option Nat) :
    Reconnecting F Data Limits S L V × List (Due F Input Limits S L) :=
  ({ s with connection := connection }, [.emits (.connection connection) source])

def lost (because : Option CallError) :
    Reconnecting F Data Limits S L V × List (Due F Input Limits S L) :=
  let (s, due) := s.set (.disconnected because) none
  (s, due ++ [.schedules])

/-- The session's baseline is taken before its connection is announced. -/
def follow (i : Nat) (session : Client Data Limits S L V) (connection : Connection Limits) :
    Reconnecting F Data Limits S L V × List (Due F Input Limits S L) :=
  match connection with
  | .connecting => s.set connection (some i)
  | .connected _ _ =>
    let (s, due) := set { s with state := session.state, lines := session.lines } connection (some i)
    (s, due ++ [.resolves])
  | .incompatible _ _ =>
    let (s, due) := set { s with stopped := true, current := none } connection (some i)
    (s, due ++ [.rejects, .returns])
  | .disconnected because => lost { s with current := none } because

/-- The client's listener at a session, which is deaf once another is current. -/
def hears (i : Nat) (said : Said Limits S L) :
    Reconnecting F Data Limits S L V × List (Due F Input Limits S L) :=
  match s.session i with
  | none => (s, [])
  | some session =>
    if s.current ≠ some i then (s, [])
    else
      match said with
      | .connection connection => s.follow i session connection
      | .state state => ({ s with state := some state }, [.emits said (some i)])
      | .lines lines => ({ s with lines := some lines }, [.emits said (some i)])
      | .log _ => (s, [.emits said (some i)])

/-- The delay after which another port is opened is no time here. -/
def schedule : Reconnecting F Data Limits S L V :=
  if s.stopped then s
  else { s with
    timer := some s.nextTimer
    timers := s.timers ++ [s.nextTimer]
    nextTimer := s.nextTimer + 1 }

def gives : Reconnecting F Data Limits S L V :=
  if s.stopped then { s with ports := s.ports ++ [none] }
  else { s with ports := s.ports ++ [some (Client.opened sdk)], current := some s.ports.length }

/-- The baseline a frame attaches a session with is kept to be compared. -/
def receives (port : Nat) (data : Data) :
    Reconnecting F Data Limits S L V × List (Due F Input Limits S L) :=
  let baseline := (s.session port).bind fun client => Says.baselineOf sdk client data
  atSession { s with baselines := s.baselines ++ (baseline.map fun baseline => (port, baseline)).toList }
    port fun client => Says.receive sdk client data

def takes : Event F Data Input → Reconnecting F Data Limits S L V × List (Due F Input Limits S L)
  | .opened =>
    if s.openings = 0 then (s, []) else (gives sdk { s with openings := s.openings - 1 }, [])
  | .refuses =>
    if s.openings = 0 then (s, [])
    else ({ s with openings := s.openings - 1 },
      [.loses (some (clientError (lit "TransportDisconnected") (lit "no port could be opened") .none))])
  | .fires timer =>
    if timer ∉ s.timers then (s, [])
    else
      let (s, due) := set { s with timers := s.timers.erase timer } .connecting none
      (s, due ++ [.opens])
  | .receives port data => s.receives sdk port data
  | .portCloses port => s.atSession port Says.portCloses
  | .sendFails port => s.atSession port Says.sendFails
  | .acts act => s.act sdk act

/-- The next thing to be done; a listener told does `acts`. -/
def does (acts : List (Notified.Act F Input)) :
    Due F Input Limits S L → Reconnecting F Data Limits S L V × List (Due F Input Limits S L)
  | .emits said source =>
    (s, (s.listeners said.kind).registered.map fun listener => .tells listener said source)
  | .tells listener said _ => ({ s with told := s.told ++ [(listener, said)] }, acts.map .does)
  | .does act => s.act sdk act
  | .hears session said => s.hears session said
  | .sets connection => s.set connection none
  | .loses because => s.lost because
  | .resolves => (s.settleWaiting .done, [])
  | .rejects => (s.settleWaiting (.rejected s.stoppedWith), [])
  | .schedules => (s.schedule, [])
  | .opens => ({ s with openings := s.openings + 1 }, [])
  | .returns => ({ s with finished := true }, [])

def machine : Reentry.Machine (Reconnecting F Data Limits S L V) (Due F Input Limits S L)
    (Event F Data Input) (List (Notified.Act F Input)) where
  takes := takes sdk
  does s due acts := s.does sdk acts due

/-- The client after some moves, in the middle of an event or not. -/
def after (moves : List (Reentry.Move (Event F Data Input) (List (Notified.Act F Input)))) :
    Reentry.Busy (Reconnecting F Data Limits S L V) (Due F Input Limits S L) :=
  (machine sdk).run ⟨new, []⟩ moves

end Reconnecting

end Estoc.Daemon
