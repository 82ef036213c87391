import Estoc.Daemon.Served

/-!
# A view's session

One port's lifetime on the view's side: hello, the welcome, the attachment whose result is
the first state, then calls answered under their numbers and publications applied in the
order they come. A daemon that stops speaking the contract ends the session. Once ended it
hears nothing more.
-/

set_option linter.unusedSectionVars false

namespace Estoc.Daemon

open Utf16 (JsString)

/-- How a daemon stops speaking the contract. -/
inductive ProtocolError where
  | noWelcome
  | unreadable
  | mixedBaseline
  | beforeBaseline
  | olderState
  | linesOfAnotherEpoch
  | olderLines
  | logOfAnotherEpoch
deriving DecidableEq

/-- Whether the daemon got what it published wrong. -/
def ProtocolError.published : ProtocolError → Bool
  | .noWelcome | .unreadable => false
  | _ => true

inductive Because where
  | closed
  | transport
  | protocol (error : ProtocolError)
  | daemon (error : ApiError)
deriving DecidableEq

inductive ConnectionState where
  | connecting
  | connected
  | disconnected (because : Because)
deriving DecidableEq

/-- What a view sees of its session, in order: what it is shown, and how its refreshes end. -/
inductive Seen (S L : Type) where
  | state (state : StateOf S)
  | lines (lines : LinesStateOf L)
  | log (line : LogLine)
  | refreshed (target : RevisionMarker)
  | notRefreshed
deriving DecidableEq

structure Session (S L : Type) where
  connection : ConnectionState
  state : Option (StateOf S)
  lines : Option (LinesStateOf L)
  /-- Whether the welcome came, with its limits. -/
  limits : Bool
  nextId : Nat
  ended : Bool
  pending : List (Nat × Method)
  barriers : List RevisionMarker
  seen : List (Seen S L)
  /-- What was handed to the port and the daemon has not received. -/
  port : List Request
deriving DecidableEq

variable {S L R : Type}

namespace Session

/-- A session on a port, hello said. -/
def new : Session S L := ⟨.connecting, none, none, false, 1, false, [], [], [], [.hello]⟩

variable (reads : Frame S L R → Bool) (session : Session S L)

def sees (seen : List (Seen S L)) : Session S L := { session with seen := session.seen ++ seen }

/-- Whoever waits is told the connection is lost. -/
def finish (because : Because) : Session S L :=
  if session.ended then session
  else
    { session with
      ended := true
      connection := .disconnected because
      pending := []
      barriers := []
      seen := session.seen ++ session.barriers.map fun _ => .notRefreshed }

def protocolError (error : ProtocolError) : Session S L := session.finish (.protocol error)

def send (method : Method) : Session S L :=
  { session with
    nextId := session.nextId + 1
    pending := session.pending ++ [(session.nextId, method)]
    port := session.port ++ [.call session.nextId method] }

/-- A call the view makes, a refresh among them; attaching is none of them. -/
def call (method : Method) : Session S L :=
  if method ≠ .attach ∧ session.connection = .connected then session.send method else session

/-- A barrier done: met by the state shown, or lost with its epoch. -/
def settled (target : RevisionMarker) : Option (Seen S L) :=
  match session.state with
  | none => none
  | some shown =>
    if shown.epoch ≠ target.epoch then some .notRefreshed
    else if shown.revision < target.revision then none
    else some (.refreshed target)

/-- A refresh that the daemon answered. -/
def refreshed (target : RevisionMarker) : Session S L :=
  match session.settled target with
  | some seen => session.sees [seen]
  | none => { session with barriers := session.barriers ++ [target] }

def attached (baseline : BaselineOf S L) : Session S L :=
  if baseline.state.epoch ≠ baseline.lines.epoch then session.protocolError .mixedBaseline
  else
    { session with
      state := some baseline.state
      lines := some baseline.lines
      connection := .connected
      seen := session.seen ++ [.state baseline.state, .lines baseline.lines] }

/-- The state shown, and the barriers it ends. -/
def shows (state : StateOf S) : Session S L :=
  let session := sees { session with state := some state } [.state state]
  { session with
    barriers := session.barriers.filter fun target => (session.settled target).isNone
    seen := session.seen ++ session.barriers.filterMap session.settled }

def applyState (current state : StateOf S) : Session S L :=
  if state.epoch = current.epoch then
    if state.revision < current.revision then session.protocolError .olderState
    else if state.revision = current.revision then session
    else session.shows state
  else session.shows state

def showsLines (lines : LinesStateOf L) : Session S L :=
  sees { session with lines := some lines } [.lines lines]

def applyLines (state : StateOf S) (lines : LinesStateOf L) : Session S L :=
  if lines.epoch ≠ state.epoch then session.protocolError .linesOfAnotherEpoch
  else
    match session.lines with
    | some current =>
      if lines.epoch = current.epoch then
        if lines.revision < current.revision then session.protocolError .olderLines
        else if lines.revision = current.revision then session
        else session.showsLines lines
      else session.showsLines lines
    | none => session.showsLines lines

def applyLog (state : StateOf S) (line : LogLine) : Session S L :=
  if line.epoch ≠ state.epoch then session.protocolError .logOfAnotherEpoch
  else session.sees [.log line]

def publish (event : Event S L) : Session S L :=
  match session.state with
  | none => session.protocolError .beforeBaseline
  | some current =>
    if reads (.event event) then
      match event with
      | .state state => session.applyState current state
      | .lines lines => session.applyLines current lines
      | .log line => session.applyLog current line
    else session.protocolError .unreadable

/-- The call a reply is to, taken off those that wait for one. -/
def taken (id : Nat) : Option (Method × Session S L) :=
  (session.pending.find? fun call => call.1 = id).map fun call =>
    (call.2, { session with pending := session.pending.filter fun call => call.1 ≠ id })

def answer (id : Nat) (value : Result S L R) : Session S L :=
  match session.taken id with
  | none => session
  | some (method, session) =>
    if reads (.result id value) then
      match method, value with
      | .attach, .baseline baseline => session.attached baseline
      | .refresh, .marker target => session.refreshed target
      | .other _, .other _ => session
      -- a result of another method's schema
      | _, _ => session.protocolError .unreadable
    else session.protocolError .unreadable

def refused (id : Nat) (error : ApiError) : Session S L :=
  match session.taken id with
  | none => session
  | some (method, session) =>
    if reads (.error id error) then
      match method with
      | .attach => session.finish (.daemon error)
      | .refresh => session.sees [.notRefreshed]
      | .other _ => session
    else session.protocolError .unreadable

def negotiate (frame : Frame S L R) : Session S L :=
  match frame with
  | .welcome => send { session with limits := true } .attach
  | _ => session.protocolError .noWelcome

def receive (frame : Frame S L R) : Session S L :=
  if session.ended then session
  else if session.limits = false then session.negotiate frame
  else
    match frame with
    | .welcome => session.protocolError .unreadable
    | .result id value => session.answer reads id value
    | .error id error => session.refused reads id error
    | .event event => session.publish reads event
    | .fault error =>
      if reads (.fault error) then session.finish (.daemon error) else session.protocolError .unreadable

end Session

/-! ## The publisher, a session served and a view -/

/-- What the environment settles: what is written, refused and read, and which failures of a
read are damage. -/
structure Wire (S L E R : Type) where
  publisher : PublisherOptions L
  serve : ServeOptions S L R
  reads : Frame S L R → Bool
  damaged : E → Bool

structure World (S L E R : Type) where
  publisher : Publisher S L E
  served : Served S L R
  session : Session S L
  /-- The refreshes that calls wait for, each under its call's number. -/
  refreshes : List (Nat × Nat)

/-- One step: of the publisher, of the session served, of the view, or of the port. -/
inductive Turn (S L E R : Type) where
  | publisher (op : Op S L E)
  | receives
  | replies (id : Nat) (outcome : Except ApiError R)
  | answers (id : Nat)
  | sent
  | sendFails
  | times
  | faults (error : ApiError)
  | closes
  | viewReceives
  | viewCalls (method : Method)
  | viewCloses
  | viewPortCloses

namespace World

variable {E : Type} (wire : Wire S L E R) (w : World S L E R)

def new (initial : NonOpenValue) : World S L E R :=
  ⟨Publisher.new wire.publisher initial, .new, .new, []⟩

/-- What the publisher did, told to the session in the order it was done. -/
def publishes (publisher : Publisher S L E) : World S L E R :=
  { w with
    publisher
    served := (publisher.effects.drop w.publisher.effects.length).foldl
      (fun served effect => served.hear wire.serve wire.damaged effect) w.served }

/-- The session attaches to the publisher, or is ended and has it read again while its state
is stale. -/
def attachTo (id : Nat) : World S L E R :=
  match w.publisher.attach with
  | .ok baseline => { w with served := w.served.attach wire.serve id baseline }
  | .error _ =>
    let w := w.publishes wire w.publisher.refresh
    { w with served :=
        (w.served.fault wire.serve unavailable).reply wire.serve id (.error id couldNotAttach) }

def serveCall (id : Nat) (method : Method) : World S L E R :=
  let refuse (error : ApiError) : World S L E R :=
    { w with served := w.served.reply wire.serve id (.error id error) }
  if method = .attach ∧ w.served.attached = true then refuse alreadyAttached
  else if method ≠ .attach ∧ w.served.attached = false then refuse notAttached
  else
    match wire.serve.refuses id method with
    | some error => refuse error
    | none =>
      match method with
      | .attach => w.attachTo wire id
      | .refresh =>
        publishes wire { w with refreshes := w.refreshes ++ [(id, w.publisher.refreshes)] }
          w.publisher.refresh
      | .other _ => w

def request (request : Request) : World S L E R :=
  if w.served.closed || w.served.ending then w
  else
    match request with
    | .hello =>
      if w.served.negotiated then { w with served := w.served.close }
      else { w with served := enqueueWelcome w.served }
    | .call id method =>
      if w.served.negotiated = false ∨ id ∈ w.served.inFlight then { w with served := w.served.close }
      else serveCall wire { w with served := { w.served with inFlight := w.served.inFlight ++ [id] } } id method
where
  enqueueWelcome (served : Served S L R) : Served S L R :=
    Served.enqueue wire.serve { served with negotiated := true } .welcome

/-- How the publisher answered a refresh, if it has. -/
def answerOf (refresh : Nat) : Option (Except ApiError RevisionMarker) :=
  w.publisher.effects.findSome? fun effect =>
    match effect with
    | .answered asked marker => if asked = refresh then some (.ok marker) else none
    | .refused asked failure =>
      if asked = refresh then
        match failure with
        | .stateChanged => some (.error stateChanged)
        | _ => some (.error readFailed)
      else none
    | _ => none
where
  stateChanged : ApiError :=
    ⟨Json.lit "StateChanged", Json.lit "the state moved to another epoch before the refresh was answered",
      .none, none⟩
  readFailed : ApiError :=
    ⟨Json.lit "OperationFailed", Json.lit "a read of the vault failed; the state published stands, stale",
      .none, none⟩

/-- The reply to a refresh, once the publisher has answered it. -/
def answers (id : Nat) : World S L E R :=
  match w.refreshes.find? fun call => call.1 = id with
  | none => w
  | some call =>
    match w.answerOf call.2 with
    | none => w
    | some outcome =>
      let entry : Queued S L R :=
        match outcome with
        | .ok marker => .result id (.marker marker) false
        | .error error => .error id error
      { w with
        served := w.served.reply wire.serve id entry
        refreshes := w.refreshes.filter fun call => call.1 ≠ id }

def replies (id : Nat) (outcome : Except ApiError R) : World S L E R :=
  if id ∈ w.served.inFlight ∧ (w.refreshes.find? fun call => call.1 = id) = none then
    let entry : Queued S L R :=
      match outcome with
      | .ok value => .result id (.other value) false
      | .error error => .error id error
    { w with served := w.served.reply wire.serve id entry }
  else w

def step : Turn S L E R → World S L E R
  | .publisher op => w.publishes wire (w.publisher.step wire.publisher op)
  | .receives =>
    match w.session.port with
    | [] => w
    | request :: port => World.request wire { w with session := { w.session with port } } request
  | .replies id outcome => w.replies wire id outcome
  | .answers id => w.answers wire id
  | .sent => { w with served := w.served.sent wire.serve }
  | .sendFails => if w.served.writing.isSome then { w with served := w.served.close } else w
  | .times => if w.served.negotiated then w else { w with served := w.served.close }
  | .faults error => { w with served := w.served.fault wire.serve error }
  | .closes => { w with served := w.served.close }
  | .viewReceives =>
    match w.served.port with
    | [] => w
    | frame :: port =>
      { w with served := { w.served with port }, session := w.session.receive wire.reads frame }
  | .viewCalls method => { w with session := w.session.call method }
  | .viewCloses => { w with session := w.session.finish .closed }
  | .viewPortCloses => { w with session := w.session.finish .transport }

def run (initial : NonOpenValue) (turns : List (Turn S L E R)) : World S L E R :=
  turns.foldl (step wire) (new wire initial)

end World

end Estoc.Daemon
