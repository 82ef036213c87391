import Estoc.Lib.Json
import Estoc.Daemon.Publisher

/-!
# A session served

The daemon's side of a port: the bootstrap, then calls answered, and publications from the
baseline on. What the port does not take at once is queued: a newer state or lines of an
epoch takes the place of the one queued, logs are dropped when the queue is full, and a
session owed more than the queue holds is closed. A frame the port has taken is on its way
until the view receives it.

Calls are read against the schemas and budgets of the contract, and frames are written by
the transport; what comes of either is a parameter.
-/

set_option linter.unusedSectionVars false

namespace Estoc.Daemon

open Json (lit)
open Utf16 (JsString)

/-- What a call may have done, of one that failed. -/
inductive Consequence where
  | none
  | possible
deriving DecidableEq

structure ApiError where
  code : JsString
  message : JsString
  effect : Consequence
  messageId : Option JsString
deriving DecidableEq

inductive Method where
  | attach
  | refresh
  | other (name : JsString)
deriving DecidableEq

inductive Request where
  | hello
  | call (id : Nat) (method : Method)
deriving DecidableEq

inductive Result (S L R : Type) where
  | baseline (baseline : BaselineOf S L)
  | marker (marker : RevisionMarker)
  | other (value : R)
deriving DecidableEq

inductive Event (S L : Type) where
  | state (state : StateOf S)
  | lines (lines : LinesStateOf L)
  | log (line : LogLine)
deriving DecidableEq

inductive Frame (S L R : Type) where
  | welcome
  | result (id : Nat) (value : Result S L R)
  | error (id : Nat) (error : ApiError)
  | event (event : Event S L)
  | fault (error : ApiError)
deriving DecidableEq

/-- What an event takes the place of: a state of its epoch, or lines of it. -/
inductive Replaces where
  | state (epoch : Nat)
  | lines (epoch : Nat)
deriving DecidableEq

structure Queued (S L R : Type) where
  frame : Frame S L R
  id : Option Nat
  publication : Bool
  replaces : Option Replaces
  droppable : Bool
  terminal : Bool
deriving DecidableEq

structure Served (S L R : Type) where
  negotiated : Bool
  attached : Bool
  closed : Bool
  ending : Bool
  writing : Option (Queued S L R)
  queue : List (Queued S L R)
  inFlight : List Nat
  /-- Whether the publisher tells it of what it publishes. -/
  subscribed : Bool
  /-- What the port has taken and the view has not received. -/
  port : List (Frame S L R)
deriving DecidableEq

def unexpected : ApiError :=
  ⟨lit "OperationFailed", lit "the daemon could not complete the call", .possible, none⟩

def unpublishable : ApiError :=
  ⟨lit "StateUnavailable", lit "the daemon could not send its state", .none, none⟩

def unavailable : ApiError :=
  ⟨lit "StateUnavailable",
    lit "the daemon could not read its state; what it published last stands, stale", .none, none⟩

def alreadyAttached : ApiError := ⟨lit "AlreadyAttached", lit "this port is attached", .none, none⟩

def notAttached : ApiError := ⟨lit "NotAttached", lit "attach first", .none, none⟩

def couldNotAttach : ApiError :=
  ⟨lit "OperationFailed", lit "the daemon could not attach the port", .none, none⟩

structure ServeOptions (S L R : Type) where
  maxQueuedFrames : Nat
  /-- Whether the transport can write a frame. -/
  writes : Frame S L R → Bool
  /-- Why a call is refused unread: its method, its size, its input. -/
  refuses : Nat → Method → Option ApiError

variable {S L R : Type}

namespace Event

def replaces : Event S L → Option Replaces
  | .state said => some (.state said.epoch)
  | .lines said => some (.lines said.epoch)
  | .log _ => none

def droppable : Event S L → Bool
  | .log _ => true
  | _ => false

end Event

namespace Queued

def welcome : Queued S L R := ⟨.welcome, none, false, none, false, false⟩

def event (event : Event S L) : Queued S L R :=
  ⟨.event event, none, true, event.replaces, event.droppable, false⟩

def result (id : Nat) (value : Result S L R) (publication : Bool) : Queued S L R :=
  ⟨.result id value, some id, publication, none, false, false⟩

def error (id : Nat) (error : ApiError) : Queued S L R :=
  ⟨.error id error, some id, false, none, false, false⟩

def fault (error : ApiError) : Queued S L R := ⟨.fault error, none, false, none, false, true⟩

/-- What takes the place of a reply that could not be written. -/
def unwritten (id : Nat) : Queued S L R := ⟨.error id unexpected, none, false, none, false, false⟩

/-- An entry queued: in place of the one it replaces, else at the end. -/
def place (entry : Queued S L R) : List (Queued S L R) → List (Queued S L R)
  | [] => [entry]
  | queued :: queue =>
    if entry.replaces.isSome = true ∧ queued.replaces = entry.replaces then entry :: queue
    else queued :: place entry queue

end Queued

namespace Served

def new : Served S L R := ⟨false, false, false, false, none, [], [], false, []⟩

variable (options : ServeOptions S L R) (served : Served S L R)

def finish : Served S L R :=
  if served.closed then served else { served with closed := true, queue := [], subscribed := false }

def close : Served S L R := served.finish

/-- A frame handed to the port, the rest still queued. -/
def send (entry : Queued S L R) (rest : List (Queued S L R)) : Served S L R :=
  { served with queue := rest, writing := some entry, port := served.port ++ [entry.frame] }

/-- An entry for which nothing more can be said when it cannot be written. -/
def sendOrClose (entry : Queued S L R) (rest : List (Queued S L R)) : Served S L R :=
  if options.writes entry.frame then served.send entry rest else served.close

/-- What is done about an entry that cannot be written, `rest` queued behind it. -/
def unwritable (entry : Queued S L R) (rest : List (Queued S L R)) : Served S L R :=
  if entry.publication then
    sendOrClose options { served with ending := true, queue := [] } (.fault unpublishable) []
  else
    match entry.id with
    | some id => sendOrClose options served (.unwritten id) rest
    | none => served.close

def pump : Served S L R :=
  if served.writing.isSome || served.closed then served
  else
    match served.queue with
    | [] => served
    | next :: rest =>
      if options.writes next.frame then served.send next rest else served.unwritable options next rest

def enqueue (entry : Queued S L R) : Served S L R :=
  if served.closed || served.ending then served
  else
    let queue := entry.place served.queue
    if options.maxQueuedFrames < queue.length then
      let owed := queue.filter fun queued => !queued.droppable
      if options.maxQueuedFrames < owed.length then served.close
      else pump options { served with queue := owed }
    else pump options { served with queue }

def endWith (entry : Queued S L R) : Served S L R :=
  pump options { served with ending := true, queue := served.queue ++ [entry] }

def fault (error : ApiError) : Served S L R :=
  if served.closed || served.ending then served else served.endWith options (.fault error)

def event (event : Event S L) : Served S L R :=
  if served.attached then served.enqueue options (.event event) else served

/-- An entry that answers a call. -/
def reply (id : Nat) (entry : Queued S L R) : Served S L R :=
  enqueue options { served with inFlight := served.inFlight.erase id } entry

/-- The port has taken the frame it was sent. -/
def sent : Served S L R :=
  match served.writing with
  | some entry =>
    if entry.terminal then close { served with writing := none }
    else pump options { served with writing := none }
  | none => served

/-- What it starts from, when attaching went well. -/
def attach (id : Nat) (baseline : BaselineOf S L) : Served S L R :=
  reply options { served with attached := true, subscribed := true } id
    (.result id (.baseline baseline) true)

/-- One publication, as the publisher tells it; a read that failed ends the session unless
it failed over damage. -/
def hear {E : Type} (damaged : E → Bool) : Effect S L E → Served S L R
  | .state said => if served.subscribed then served.event options (.state said) else served
  | .lines said => if served.subscribed then served.event options (.lines said) else served
  | .log line => if served.subscribed then served.event options (.log line) else served
  | .unavailable error =>
    if served.subscribed = true ∧ damaged error = false then served.fault options unavailable else served
  | _ => served

end Served

end Estoc.Daemon
