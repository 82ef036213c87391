import Estoc.Daemon.Served
import Estoc.Lib.OMap
import Estoc.Lib.Promises

/-!
# What a session owes its view

A session on the view's side, with the promises it hands out. A call is owed its reply, a refresh
a state that meets the reply's marker, and a view that waits for the connection the attachment.
Each is held until then: the calls by their ID, the rest in order. The session ends in one place,
which may be come to from a reply, a publication, a frame the port refused, a fault, the port or
the view, and settles all of them.

What is emitted is heard by listeners at once, which may call the session again before it goes on;
what they do then is an argument of what is emitted. How a frame reads and what a call is written
as are parameters.
-/

set_option linter.unusedSectionVars false

namespace Estoc.Daemon

open Json (lit)
open Utf16 (JsString)
open Promises (Ledger)

inductive Origin where
  | daemon
  | client
deriving DecidableEq

structure CallError extends ApiError where
  origin : Origin
deriving DecidableEq

/-- A failure of the SDK's own. -/
def clientError (code message : JsString) (effect : Consequence) : CallError :=
  ⟨⟨code, message, effect, none⟩, .client⟩

inductive Connection (Limits : Type) where
  | connecting
  | connected (implementation : JsString) (limits : Limits)
  /-- `because` is none when the view closed the connection. -/
  | disconnected (because : Option CallError)
  | incompatible (supported : List Nat) (message : JsString)
deriving DecidableEq

inductive Bootstrap (Limits : Type) where
  | hello
  | welcome (api : Nat) (implementation : JsString) (limits : Limits)
  | incompatible (supported : List Nat) (message : JsString)

inductive EventName where
  | state
  | lines
  | log
deriving DecidableEq

def EventName.text : EventName → JsString
  | .state => lit "state"
  | .lines => lit "lines"
  | .log => lit "log"

inductive RawFrame (Raw : Type) where
  | result (id : Nat) (value : Raw)
  | error (id : Nat) (error : Raw)
  | event (name : EventName) (value : Raw)
  | fault (error : Raw)
  | call

/-- A value as its schema reads it, or what the reading of it says; none where it reads and is
not of the schema. -/
abbrev Schema (Raw α : Type) := Raw → Except (Option JsString) α

/-- How frames read and calls are written. -/
structure Sdk (Data Input Raw Limits S L V : Type) where
  API_VERSION : Nat
  isMethodName : JsString → Bool
  hello : Data
  noInput : Input
  readBootstrap : Data → Option (Bootstrap Limits)
  readFrame : Data → Option (RawFrame Raw)
  /-- The frame of a call within the limits, or the local refusal. -/
  writeCall : Limits → Nat → JsString → Input → Except CallError Data
  baseline : Limits → Schema Raw (BaselineOf S L)
  marker : Limits → Schema Raw RevisionMarker
  result : Limits → JsString → Schema Raw V
  apiError : Schema Raw ApiError
  state : Schema Raw (StateOf S)
  lines : Schema Raw (LinesStateOf L)
  log : Schema Raw LogLine

/-- How a promise is settled. -/
inductive Outcome (V : Type) where
  | answered (value : V)
  | done
  | rejected (error : CallError)
deriving DecidableEq

/-- What a reply to a call is told. -/
inductive Pending (Limits : Type) where
  | attach (connection : Connection Limits)
  | refresh (promise : Nat)
  | call (name : JsString) (promise : Nat)
deriving DecidableEq

namespace Pending

variable {Limits : Type}

def name : Pending Limits → JsString
  | .attach _ => lit "attach"
  | .refresh _ => lit "refresh"
  | .call name _ => name

/-- The promise of a call; the attachment has none. -/
def promise : Pending Limits → Option Nat
  | .attach _ => none
  | .refresh promise => some promise
  | .call _ promise => some promise

end Pending

structure Barrier where
  target : RevisionMarker
  promise : Nat
deriving DecidableEq

/-- What a lost reply means for the call. -/
def effectOf (name : JsString) : Consequence :=
  if name = lit "attach" ∨ name = lit "refresh" then .none else .possible

def lost (name message : JsString) : CallError :=
  clientError (lit "TransportDisconnected") message (effectOf name)

def NOT_CONNECTED : CallError :=
  clientError (lit "NotConnected") (lit "no attachment has completed on this connection") .none

structure Client (Data Limits S L V : Type) where
  connection : Connection Limits
  state : Option (StateOf S)
  lines : Option (LinesStateOf L)
  limits : Option Limits
  nextId : Nat
  ended : Bool
  closing : Bool
  pending : OMap Nat (Pending Limits)
  barriers : List Barrier
  waiting : List Nat
  /-- The promises handed out and settled. -/
  ledger : Ledger (Outcome V)
  /-- What was handed to the port, calls under their ID. -/
  sent : List (Option Nat × Data)

/-- What a listener told of the end does: a session that ended ends no more. -/
inductive Late (Input : Type) where
  | call (name : JsString) (input : Input)
  | refresh
  | connected
  | close

/-- What a view does, with what listeners do at the end where it closes the session. -/
inductive Act (Input : Type) where
  | call (name : JsString) (input : Input)
  | refresh
  | connected
  | close (heard : List (Late Input))

/-- What the listeners do at each emission of one frame. -/
structure Heard (Input : Type) where
  connection : List (Act Input)
  state : List (Act Input)
  lines : List (Act Input)
  log : List (Act Input)
  ended : List (Late Input)

/-- A frame received, the port's close, a frame the port refused, or what the view does. -/
inductive ClientTurn (Data Input : Type) where
  | receives (data : Data) (heard : Heard Input)
  | portCloses (heard : List (Late Input))
  | sendFails (heard : List (Late Input))
  | acts (act : Act Input)

namespace Client

variable {Data Input Raw Limits S L V : Type} (sdk : Sdk Data Input Raw Limits S L V)
  (client : Client Data Limits S L V)

/-- A session on a port, hello said. -/
def opened : Client Data Limits S L V where
  connection := .connecting
  state := none
  lines := none
  limits := none
  nextId := 1
  ended := false
  closing := false
  pending := .empty
  barriers := []
  waiting := []
  ledger := .empty
  sent := [(none, sdk.hello)]

def connectionError : CallError :=
  match client.connection with
  | .incompatible _ message => clientError (lit "Incompatible") message .none
  | .disconnected (some because) => because
  | _ => clientError (lit "TransportDisconnected") (lit "the view closed the connection") .none

def isConnected : Bool := client.connection matches .connected _ _

def isCalledMethod (name : JsString) : Bool :=
  sdk.isMethodName name && name != lit "attach" && name != lit "refresh"

/-! ## What a view does -/

/-- A promise handed out settled. -/
def handSettled (outcome : Outcome V) : Client Data Limits S L V :=
  { client with ledger := client.ledger.handSettled outcome }

/-- Hands a call to the port under a new ID; or gives the local refusal, nothing sent. -/
def send (name : JsString) (input : Input) (answered : Pending Limits) :
    Option CallError × Client Data Limits S L V :=
  match client.limits with
  | none => (some NOT_CONNECTED, client)
  | some limits =>
    let id := client.nextId
    let client := { client with nextId := id + 1 }
    match sdk.writeCall limits id name input with
    | .error refused => (some refused, client)
    | .ok data => (none, { client with
        pending := client.pending.set id answered
        sent := client.sent ++ [(some id, data)] })

/-- A call of a promise handed out for it. -/
def dispatch (name : JsString) (input : Input) (answered : Nat → Pending Limits) :
    Client Data Limits S L V :=
  let promise := client.ledger.handed
  match send sdk { client with ledger := client.ledger.hand } name input (answered promise) with
  | (some refused, client) => { client with ledger := client.ledger.settle promise (.rejected refused) }
  | (none, client) => client

def call (name : JsString) (input : Input) : Client Data Limits S L V :=
  if isCalledMethod sdk name = false then
    client.handSettled (.rejected (clientError (lit "InvalidArgument")
      (name ++ lit " is no method a view calls") .none))
  else if client.isConnected = false then client.handSettled (.rejected NOT_CONNECTED)
  else client.dispatch sdk name input (.call name)

def refresh : Client Data Limits S L V :=
  if client.isConnected = false then client.handSettled (.rejected NOT_CONNECTED)
  else client.dispatch sdk (lit "refresh") sdk.noInput .refresh

def connected : Client Data Limits S L V :=
  if client.isConnected then client.handSettled .done
  else if client.ended then client.handSettled (.rejected client.connectionError)
  else { client with
    waiting := client.waiting ++ [client.ledger.handed]
    ledger := client.ledger.hand }

/-! ## The end -/

def lateAct : Late Input → Client Data Limits S L V
  | .call name input => client.call sdk name input
  | .refresh => client.refresh sdk
  | .connected => client.connected
  | .close => { client with closing := true }

/-- How a barrier is done: met by the state shown, or lost with its epoch or the connection. -/
def settled (barrier : Barrier) : Option (Nat × Outcome V) :=
  if client.ended then
    some (barrier.promise, .rejected (lost (lit "refresh")
      (lit "the connection ended before the state arrived")))
  else
    match client.state with
    | none => none
    | some state =>
      if state.epoch ≠ barrier.target.epoch then
        some (barrier.promise, .rejected (clientError (lit "StateChanged")
          (lit "the state moved to another epoch before the barrier was met") .none))
      else if state.revision < barrier.target.revision then none
      else some (barrier.promise, .done)

/-- Every call, barrier and waiter is lost with the session. -/
def lose : Client Data Limits S L V :=
  let error := client.connectionError
  { client with
    pending := .empty
    barriers := []
    waiting := []
    ledger := client.ledger.settleAll
      ((client.pending.values.filterMap fun pending => pending.promise.map fun promise =>
          (promise, .rejected (lost pending.name error.message))) ++
        client.barriers.filterMap client.settled ++
        client.waiting.map fun promise => (promise, .rejected error)) }

def finish (connection : Connection Limits) (heard : List (Late Input)) : Client Data Limits S L V :=
  if client.ended then client
  else heard.foldl (lateAct sdk) (lose { client with ended := true, connection := connection })

def close (heard : List (Late Input)) : Client Data Limits S L V :=
  finish sdk { client with closing := true } (.disconnected none) heard

def act : Act Input → Client Data Limits S L V
  | .call name input => client.call sdk name input
  | .refresh => client.refresh sdk
  | .connected => client.connected
  | .close heard => client.close sdk heard

/-- What listeners do at an emission. -/
def emit (heard : List (Act Input)) : Client Data Limits S L V := heard.foldl (act sdk) client

/-! ## What the daemon sends -/

/-- A call told its error. -/
def rejectCall (pending : Pending Limits) (error : CallError) (heard : List (Late Input)) :
    Client Data Limits S L V :=
  match pending with
  | .attach _ => client.finish sdk (.disconnected (some error)) heard
  | .refresh promise => { client with ledger := client.ledger.settle promise (.rejected error) }
  | .call _ promise => { client with ledger := client.ledger.settle promise (.rejected error) }

/-- The end as a protocol error; `culprit` is the call the reading answered, refused as that
error. -/
def protocolError (message : JsString) (culprit : Option (Pending Limits)) (heard : List (Late Input)) :
    Client Data Limits S L V :=
  let error := clientError (lit "ProtocolError") message .none
  let client := match culprit with
    | none => client
    | some pending =>
      client.rejectCall sdk pending { error with effect := effectOf pending.name } heard
  client.finish sdk (.disconnected (some error)) heard

/-- What an unreadable value is said to be. -/
def unreadable (what : JsString) (reading : Option JsString) : JsString :=
  match reading with
  | none => what
  | some message => what ++ lit ": " ++ message

def attached (baseline : BaselineOf S L) (connection : Connection Limits) (heard : Heard Input) :
    Client Data Limits S L V :=
  if baseline.state.epoch ≠ baseline.lines.epoch then
    client.protocolError sdk (lit "a baseline whose state and lines are of different epochs") none
      heard.ended
  else
    let client : Client Data Limits S L V := { client with
      state := some baseline.state
      lines := some baseline.lines
      connection := connection
      waiting := []
      ledger := client.ledger.settleAll (client.waiting.map fun promise => (promise, .done)) }
    emit sdk (emit sdk (emit sdk client heard.connection) heard.state) heard.lines

/-- The state shown meets the barrier, or the barrier waits. -/
def refreshed (promise : Nat) (target : RevisionMarker) : Client Data Limits S L V :=
  match client.settled ⟨target, promise⟩ with
  | some (promise, outcome) => { client with ledger := client.ledger.settle promise outcome }
  | none => { client with barriers := client.barriers ++ [⟨target, promise⟩] }

def replied (limits : Limits) (pending : Pending Limits) (value : Raw) (heard : Heard Input) :
    Client Data Limits S L V :=
  let what := lit "a " ++ pending.name ++ lit " result the SDK cannot read"
  match pending with
  | .attach connection =>
    match sdk.baseline limits value with
    | .error reading => client.protocolError sdk (unreadable what reading) (some pending) heard.ended
    | .ok baseline => client.attached sdk baseline connection heard
  | .refresh promise =>
    match sdk.marker limits value with
    | .error reading => client.protocolError sdk (unreadable what reading) (some pending) heard.ended
    | .ok target => client.refreshed promise target
  | .call name promise =>
    match sdk.result limits name value with
    | .error reading => client.protocolError sdk (unreadable what reading) (some pending) heard.ended
    | .ok value => { client with ledger := client.ledger.settle promise (.answered value) }

def failed (pending : Pending Limits) (error : Raw) (heard : Heard Input) : Client Data Limits S L V :=
  match sdk.apiError error with
  | .error reading =>
    client.protocolError sdk (unreadable (lit "an error the SDK cannot read") reading) (some pending)
      heard.ended
  | .ok error => client.rejectCall sdk pending ⟨error, .daemon⟩ heard.ended

/-- The call a reply answers is taken off those that wait for one, and is told it. -/
def answer (id : Nat) (reply : Client Data Limits S L V → Pending Limits → Client Data Limits S L V) :
    Client Data Limits S L V :=
  match client.pending.get? id with
  | none => client
  | some pending => reply { client with pending := client.pending.erase id } pending

def applyState (current state : StateOf S) (heard : Heard Input) : Client Data Limits S L V :=
  if state.epoch = current.epoch ∧ state.revision < current.revision then
    client.protocolError sdk (lit "a state older than the one shown") none heard.ended
  else if state.epoch = current.epoch ∧ state.revision = current.revision then client
  else
    let client := { client with state := some state }
    emit sdk { client with
      barriers := client.barriers.filter fun barrier => (client.settled barrier).isNone
      ledger := client.ledger.settleAll (client.barriers.filterMap client.settled) } heard.state

def applyLines (state : StateOf S) (lines : LinesStateOf L) (heard : Heard Input) :
    Client Data Limits S L V :=
  if lines.epoch ≠ state.epoch then
    client.protocolError sdk (lit "lines of another epoch than the state shown") none heard.ended
  else if client.lines.any fun current =>
      lines.epoch = current.epoch ∧ lines.revision < current.revision then
    client.protocolError sdk (lit "lines older than the ones shown") none heard.ended
  else if client.lines.any fun current =>
      lines.epoch = current.epoch ∧ lines.revision = current.revision then client
  else emit sdk { client with lines := some lines } heard.lines

def applyLog (state : StateOf S) (line : LogLine) (heard : Heard Input) : Client Data Limits S L V :=
  if line.epoch ≠ state.epoch then
    client.protocolError sdk (lit "a log line of another epoch than the state shown") none heard.ended
  else emit sdk client heard.log

def publish (name : EventName) (value : Raw) (heard : Heard Input) : Client Data Limits S L V :=
  let what := lit "a " ++ name.text ++ lit " event the SDK cannot read"
  match client.state with
  | none => client.protocolError sdk (lit "a publication before the baseline") none heard.ended
  | some current =>
    match name with
    | .state =>
      match sdk.state value with
      | .error reading => client.protocolError sdk (unreadable what reading) none heard.ended
      | .ok state => client.applyState sdk current state heard
    | .lines =>
      match sdk.lines value with
      | .error reading => client.protocolError sdk (unreadable what reading) none heard.ended
      | .ok lines => client.applyLines sdk current lines heard
    | .log =>
      match sdk.log value with
      | .error reading => client.protocolError sdk (unreadable what reading) none heard.ended
      | .ok line => client.applyLog sdk current line heard

def faulted (error : Raw) (heard : Heard Input) : Client Data Limits S L V :=
  match sdk.apiError error with
  | .error reading =>
    client.protocolError sdk (unreadable (lit "a fault the SDK cannot read") reading) none heard.ended
  | .ok error => client.finish sdk (.disconnected (some ⟨error, .daemon⟩)) heard.ended

def negotiate (data : Data) (heard : Heard Input) : Client Data Limits S L V :=
  match sdk.readBootstrap data with
  | none => client.protocolError sdk (lit "no welcome") none heard.ended
  | some .hello => client.protocolError sdk (lit "no welcome") none heard.ended
  | some (.incompatible supported message) => client.finish sdk (.incompatible supported message) heard.ended
  | some (.welcome api implementation limits) =>
    if api ≠ sdk.API_VERSION then
      client.protocolError sdk (lit "the daemon selected API " ++ lit (toString api) ++
        lit ", which the view did not offer") none heard.ended
    else
      match send sdk { client with limits := some limits } (lit "attach") sdk.noInput
          (.attach (.connected implementation limits)) with
      | (some refused, client) => client.finish sdk (.disconnected (some refused)) heard.ended
      | (none, client) => client

def receive (data : Data) (heard : Heard Input) : Client Data Limits S L V :=
  if client.ended then client
  else
    match client.limits with
    | none => client.negotiate sdk data heard
    | some limits =>
      match sdk.readFrame data with
      | none => client.protocolError sdk (lit "a frame the SDK cannot read") none heard.ended
      | some (.result id value) =>
        client.answer id fun client pending => client.replied sdk limits pending value heard
      | some (.error id error) =>
        client.answer id fun client pending => client.failed sdk pending error heard
      | some (.event name value) => client.publish sdk name value heard
      | some (.fault error) => client.faulted sdk error heard
      | some .call => client.protocolError sdk (lit "a call in the daemon's direction") none heard.ended

/-! ## The session -/

def turn : ClientTurn Data Input → Client Data Limits S L V
  | .receives data heard => client.receive sdk data heard
  | .portCloses heard =>
    client.finish sdk (.disconnected (if client.closing then none
      else some (clientError (lit "TransportDisconnected") (lit "the port closed") .none))) heard
  | .sendFails heard =>
    client.finish sdk (.disconnected (some (clientError (lit "TransportDisconnected")
      (lit "the port refused a frame") .none))) heard
  | .acts act => client.act sdk act

/-- The session after some turns, in any order. -/
def after (turns : List (ClientTurn Data Input)) : Client Data Limits S L V :=
  turns.foldl (turn sdk) (opened sdk)

end Client

end Estoc.Daemon
