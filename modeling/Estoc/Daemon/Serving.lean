import Estoc.Daemon.Client
import Estoc.Wire.Values

/-!
# A session that is served

The daemon's side of a port, frame by frame: the bootstrap, then each call read and answered, by the
session itself, by the attachment or by a handler that comes back whenever it does; publications
from the baseline on; and the queue between them and a port that takes one frame at a time. A frame
is written when it comes to the front of the queue and not before, so that what cannot be written is
found out late: a reply is answered as a failure in its place, a publication ends the session with a
fault, ahead of anything else that waits.

How a frame received is read is a parameter. The host is whatever it does: its turns come in any
order, and those taken while it attaches a session are told apart.
-/

set_option linter.unusedSectionVars false

namespace Estoc.Daemon.Serving

open Json (lit)
open Utf16 (JsString)
open EventStore (decimal)
open Estoc.Wire (Raw readValue)

/-! ## Frames -/

def API_VERSION : Nat := 1

def DEFAULT_QUEUE : Nat := 64

/-- An event of the API, with the epoch it is of. -/
structure Event where
  name : EventName
  epoch : JsString
  value : Raw

inductive Out where
  | welcome
  | incompatible
  | result (id : Nat) (value : Raw) (bytesAt : List JsString)
  | error (id : Nat) (error : ApiError)
  | event (event : Event)
  | fault (error : ApiError)

def effectText : Consequence → JsString
  | .none => lit "none"
  | .possible => lit "possible"

def rawOf (error : ApiError) : Raw :=
  .record none true [
    (lit "code", true, .scalar (.string error.code)),
    (lit "message", true, .scalar (.string error.message)),
    (lit "effect", true, .scalar (.string (effectText error.effect))),
    (lit "messageId", true, .scalar (match error.messageId with
      | none => .null
      | some messageId => .string messageId))]

/-- Whether a frame can be written: its payload is wire data. -/
def Out.writes : Out → Bool
  | .welcome => true
  | .incompatible => true
  | .result _ value bytesAt => (readValue none bytesAt value).isOk
  | .error _ said => (readValue none [] (rawOf said)).isOk
  | .event said => (readValue none [] said.value).isOk
  | .fault said => (readValue none [] (rawOf said)).isOk

/-- The call a frame replies to. -/
def Out.replies : Out → Option Nat
  | .result id _ _ => some id
  | .error id _ => some id
  | _ => none

/-- Is it the last a port is handed? -/
def Out.isLast : Out → Bool
  | .incompatible => true
  | .fault _ => true
  | _ => false

structure Entry where
  write : Out
  /-- A reply's call: what it is answered under when it cannot be written. -/
  id : Option Nat
  /-- State of the daemon's own, the baseline included. -/
  publication : Bool
  /-- What a newer value of the same epoch takes the place of. -/
  replaces : Option (EventName × JsString)
  droppable : Bool
  terminal : Bool

/-- A call read: its ID and method, and what reading its input refuses, if anything. -/
structure Call where
  id : Nat
  method : JsString
  refused : Option (JsString × JsString)

structure Options (Data : Type) where
  maxQueuedFrames : Option Nat
  maxFrameBytes : Option Nat
  isMethodName : JsString → Bool
  /-- The members of a method's result that carry bytes. -/
  resultBytes : JsString → List JsString
  /-- The text of a frame, on a text port. -/
  text : Data → Option JsString
  /-- The APIs a hello offers. -/
  readHello : Data → Option (List Nat)
  /-- The frame as a call; none where it is another frame or none. -/
  readCall : Data → Option Call

/-- How a handler comes back. -/
inductive Settled where
  | resolves (value : Raw)
  | refuses (error : ApiError)
  | throws

structure Session where
  attached : Bool
  closed : Bool
  negotiated : Bool
  ending : Bool
  /-- What the port is taking. -/
  writing : Option Entry
  queue : List Entry
  inFlight : List Nat
  /-- The handlers that have not come back, with their calls' methods. -/
  running : List (Nat × JsString)
  /-- The call frames read, by their IDs. -/
  calls : List Nat
  /-- What the port was handed. -/
  handed : List Entry
  /-- How many of them it has taken. -/
  taken : Nat

namespace Entry

def welcome : Entry := ⟨.welcome, none, false, none, false, false⟩

def incompatible : Entry := ⟨.incompatible, none, false, none, false, true⟩

def event (event : Event) : Entry :=
  ⟨.event event, none, true, if event.name = .log then none else some (event.name, event.epoch),
    event.name = .log, false⟩

def result (id : Nat) (value : Raw) (bytesAt : List JsString) (publication : Bool) : Entry :=
  ⟨.result id value bytesAt, some id, publication, none, false, false⟩

def error (id : Nat) (error : ApiError) : Entry := ⟨.error id error, some id, false, none, false, false⟩

/-- What stands in for a reply that cannot be written. -/
def unwritten (id : Nat) : Entry := ⟨.error id unexpected, none, false, none, false, false⟩

def fault (error : ApiError) : Entry := ⟨.fault error, none, false, none, false, true⟩

end Entry

namespace Session

variable {Data : Type} (options : Options Data) (s : Session)

def new : Session := ⟨false, false, false, false, none, [], [], [], [], [], 0⟩

/-! ## The queue -/

def finish : Session := if s.closed then s else { s with closed := true, queue := [] }

def close : Session := s.finish

/-- The front of the queue is handed to the port. -/
def send (next : Entry) : Session := { s with writing := some next, handed := s.handed ++ [next] }

/-- The entry taken off the front is one of which nothing else can be said. -/
def sendOrClose (next : Entry) : Session := if next.write.writes then s.send next else s.close

/-- The entry taken off the front cannot be written. -/
def unwritable (next : Entry) : Session :=
  if next.publication then sendOrClose { s with queue := [], ending := true } (.fault unpublishable)
  else
    match next.id with
    | some id => s.sendOrClose (.unwritten id)
    | none => s.close

def pump : Session :=
  if s.writing.isSome || s.closed then s
  else
    match s.queue with
    | [] => s
    | next :: queue =>
      let s := { s with queue := queue }
      if next.write.writes then s.send next else s.unwritable next

def endWith (entry : Entry) : Session := pump { s with ending := true, queue := s.queue ++ [entry] }

def limit : Nat := options.maxQueuedFrames.getD DEFAULT_QUEUE

/-- An entry in the place of the one it replaces, else last. -/
def place (entry : Entry) : List Entry → List Entry
  | [] => [entry]
  | queued :: queue =>
    if entry.replaces.isSome ∧ queued.replaces = entry.replaces then entry :: queue
    else queued :: place entry queue

def enqueue (entry : Entry) : Session :=
  if s.closed || s.ending then s
  else
    let queue := place entry s.queue
    if limit options < queue.length then
      let owed := queue.filter fun queued => !queued.droppable
      if limit options < owed.length then close { s with queue := queue }
      else pump { s with queue := owed }
    else pump { s with queue := queue }

/-! ## What the host does -/

def event (event : Event) : Session := if s.attached then s.enqueue options (.event event) else s

def fault (error : ApiError) : Session := if s.closed || s.ending then s else s.endWith (.fault error)

/-- What a host does with a session, at any time. -/
inductive Act where
  | event (event : Event)
  | fault (error : ApiError)
  | close

def act : Act → Session
  | .event event => s.event options event
  | .fault error => s.fault error
  | .close => s.close

/-! ## Calls -/

def reply (id : Nat) (entry : Entry) : Session :=
  enqueue options { s with inFlight := s.inFlight.erase id } entry

def refuse (id : Nat) (code message : JsString) : Session :=
  s.reply options id (.error id ⟨code, message, .none, none⟩)

/-- What the host does while it attaches the session, and the baseline unless it throws. -/
structure Attaching where
  acts : List Act
  baseline : Option Raw

def attach (id : Nat) (attaching : Attaching) : Session :=
  let s := attaching.acts.foldl (act options) s
  match attaching.baseline with
  | none => s.reply options id (.error id couldNotAttach)
  | some baseline => reply options { s with attached := true } id (.result id baseline [] true)

def serve (call : Call) (attaching : Attaching) : Session :=
  if options.isMethodName call.method = false then
    s.refuse options call.id (lit "NoSuchMethod") (call.method ++ lit " is no method of this API")
  else if call.method = lit "attach" ∧ s.attached then
    s.refuse options call.id (lit "AlreadyAttached") (lit "this port is attached")
  else if call.method ≠ lit "attach" ∧ s.attached = false then
    s.refuse options call.id (lit "NotAttached") (lit "attach first")
  else
    match call.refused with
    | some (code, message) => s.refuse options call.id code message
    | none =>
      if call.method = lit "attach" then s.attach options call.id attaching
      else { s with running := s.running ++ [(call.id, call.method)] }

/-- A handler comes back, its session gone or not. -/
def settles (id : Nat) (settled : Settled) : Session :=
  match s.running.lookup id with
  | none => s
  | some method =>
    let s := { s with running := s.running.filter fun handler => handler.1 ≠ id }
    match settled with
    | .resolves value => s.reply options id (.result id value (options.resultBytes method) false)
    | .refuses error => s.reply options id (.error id error)
    | .throws => s.reply options id (.error id unexpected)

def negotiate (data : Data) : Session :=
  match options.readHello data with
  | none => s.close
  | some apis =>
    let s := { s with negotiated := true }
    if API_VERSION ∉ apis then s.endWith .incompatible else s.enqueue options .welcome

/-- A text frame over the bound is not read for the call it might be. -/
def tooLarge (data : Data) : Option Nat :=
  match options.text data, options.maxFrameBytes with
  | some text, some max => if max < text.length ∨ max < Wire.utf8Length text then some max else none
  | _, _ => none

def receive (data : Data) (attaching : Attaching) : Session :=
  if s.closed || s.ending then s
  else if s.negotiated = false then s.negotiate options data
  else
    match tooLarge options data with
    | some max => s.fault ⟨lit "ResourceLimit", lit "a frame is larger than " ++ decimal max ++
        lit " bytes", .none, none⟩
    | none =>
      match options.readCall data with
      | none => s.close
      | some call =>
        if call.id ∈ s.inFlight then s.close
        else serve options
          { s with inFlight := call.id :: s.inFlight, calls := s.calls ++ [call.id] } call attaching

/-! ## The session -/

/-- The port has taken the frame it was handed. -/
def sent : Session :=
  match s.writing with
  | none => s
  | some entry =>
    let s := { s with writing := none, taken := s.taken + 1 }
    if entry.terminal then s.close else s.pump

/-- The port refuses the frame it was handed. -/
def sendFails : Session :=
  match s.writing with
  | none => s
  | some _ => s.close

inductive Turn (Data : Type) where
  | receives (data : Data) (attaching : Attaching)
  | settles (id : Nat) (settled : Settled)
  | acts (act : Act)
  | sent
  | sendFails
  | portCloses
  | timesOut

def turn : Turn Data → Session
  | .receives data attaching => s.receive options data attaching
  | .settles id settled => s.settles options id settled
  | .acts act => s.act options act
  | .sent => s.sent
  | .sendFails => s.sendFails
  | .portCloses => s.finish
  | .timesOut => if s.negotiated then s else s.close

/-- The session after some turns, in any order. -/
def after (turns : List (Turn Data)) : Session := turns.foldl (turn options) new

end Session

end Estoc.Daemon.Serving
