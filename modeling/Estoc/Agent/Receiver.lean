import Estoc.Agent.Pickup
import Estoc.Lib.Serially

/-!
# The receiver

Every delivery goes through one gate, in turn with every other step for the same delivery.
What is kept of it is kept in memory: why it waits, its bytes while they fit, and how it
ended until the mediator is told. An attempt is written as where it may be suspended, with
what it holds there; what it is answered with, when, and in which order deliveries come,
end, are told of and are cut off by `close` is not decided here.

What the vault, the envelope and the receipt say is a parameter or an answer.
-/

set_option linter.unusedSectionVars false

namespace Estoc.Agent.Receive

open Json (lit)
open Utf16 (JsString encodeUtf8)
open Serially (Queue Call)
open Turns (Phase)

inductive Source where
  | pickup (mediationId deliveryId : JsString)
  | direct
deriving DecidableEq

structure Delivery where
  packed : JsString
  source : Source
deriving DecidableEq

/-- What a delivery is kept under: the text in the source is the JSON of this. -/
inductive Key where
  | pickup (mediationId deliveryId : JsString)
  | direct (cid : JsString)
deriving DecidableEq

abbrev Watch (Fold : Type) := Fold → JsString

inductive Recipients where
  | eligible (kid didId did : JsString)
  | pending (reason : JsString) (waitingOn : List JsString)
  | terminal (reason : JsString)

inductive ReceiptOutcome (Fold : Type) where
  | received (cid : JsString) (live : Option JsString)
  | terminal (reason : JsString)
  | deferred (reason : JsString) (watch : Watch Fold)

inductive Ended where
  | received (cid : JsString) (live : Option JsString)
  | terminal (reason : JsString)
deriving DecidableEq

inductive Received where
  | ended (how : Ended)
  | deferred (reason : JsString)
deriving DecidableEq

/-- What `admit` is asked. -/
structure Ingress where
  source : Source
  recipient : JsString
  sender : Option JsString
  bytes : Nat

structure Wait (Fold : Type) where
  /-- Which object this is: a wait is told apart from a later one of its delivery. -/
  serial : Nat
  source : Source
  reason : JsString
  watch : Watch Fold
  seen : JsString
  retry : Bool

structure HeldDelivery where
  delivery : Delivery
  bytes : Nat

structure Discarded where
  source : Source
  reason : JsString

structure Options (Fold Opened Resolution : Type) where
  maxWaiting : Nat
  maxHeldBytes : Nat
  /-- The CID of a text's canonical form; none where the text is not strict JSON. -/
  cidOf : JsString → Option JsString
  /-- How an envelope is sealed, by its header. -/
  kindOf : JsString → JsString
  classifyRecipients : Fold → JsString → Recipients
  recipientWatch : List JsString → Watch Fold
  /-- The sender's resolution, null for an anonymous seal, or why the sender is refused. -/
  senderProof : Opened → JsString → Option Resolution → Except JsString (Option Resolution)
  didOf : Resolution → JsString
  sameDid : JsString → JsString → Bool
  admits : Ingress → Option JsString
  /-- Is there someone to acknowledge a delivery retried off a pickup's turn? -/
  acknowledges : Bool

def REASON_KEPT : Nat := 4096

def ENDED_KEPT : Nat := 1024

def DISCARDED_KEPT : Nat := 256

def bounded (reason : JsString) : JsString :=
  if reason.length ≤ REASON_KEPT then reason else reason.take REASON_KEPT ++ [0x2026]

/-! ## What is kept -/

structure Kept (Fold : Type) where
  waits : OMap Key (Wait Fold)
  held : OMap Key HeldDelivery
  heldBytes : Int
  ended : OMap Key Ended
  discardedRing : List Discarded
  /-- Counts the local changes told of. -/
  changes : Nat
  closed : Bool
  nextWait : Nat

/-- Forgets the oldest while there are too many. -/
def evict (ended : OMap Key Ended) : OMap Key Ended :=
  ended.keys.foldl (fun ended oldest => if ended.size ≤ ENDED_KEPT then ended else ended.erase oldest)
    ended

namespace Kept

variable {Fold Opened Resolution : Type} (O : Options Fold Opened Resolution) (kept : Kept Fold)

def new : Kept Fold := ⟨OMap.empty, OMap.empty, 0, OMap.empty, [], 0, false, 0⟩

def stopWaiting (key : Key) : Kept Fold := { kept with waits := kept.waits.erase key }

/-- Holds a delivery's bytes while everything held fits. -/
def hold (key : Key) (delivery : Delivery) : Kept Fold :=
  let bytes := (encodeUtf8 delivery.packed).length
  if kept.held.has key then kept
  else if kept.heldBytes + bytes > O.maxHeldBytes then kept
  else { kept with held := kept.held.set key ⟨delivery, bytes⟩, heldBytes := kept.heldBytes + bytes }

def release (key : Key) : Kept Fold :=
  match kept.held.get? key with
  | none => kept
  | some held => { kept with held := kept.held.erase key, heldBytes := kept.heldBytes - held.bytes }

def remember (key : Key) (ended : Ended) : Kept Fold :=
  { kept with ended := evict ((kept.ended.erase key).set key ended) }

def discard (source : Source) (reason : JsString) : Kept Fold :=
  if kept.closed then kept
  else
    let ring := kept.discardedRing ++ [⟨source, bounded reason⟩]
    { kept with discardedRing := if ring.length > DISCARDED_KEPT then ring.tail else ring }

def letGo (key : Key) : Kept Fold := (kept.stopWaiting key).release key

/-- How a delivery ended, remembered unless the receiver is closed. -/
def endWith (key : Key) (ended : Ended) : Kept Fold :=
  let kept := kept.letGo key
  if kept.closed then kept else kept.remember key ended

def wait (key : Key) (delivery : Delivery) (reason : JsString) (watch : Watch Fold)
    (seen : JsString) : Kept Fold :=
  let kept := kept.hold O key delivery
  { kept with
    waits := kept.waits.set key ⟨kept.nextWait, delivery.source, reason, watch, seen, false⟩
    nextWait := kept.nextWait + 1 }

def close : Kept Fold :=
  if kept.closed then kept
  else { kept with
    closed := true
    waits := OMap.empty
    held := OMap.empty
    heldBytes := 0
    ended := OMap.empty }

end Kept

/-! ## One delivery's turn -/

inductive Failure where
  | receiverClosed
  | other (message : JsString)
deriving DecidableEq

/-- Where an attempt is suspended, and what it holds there. -/
inductive Point (Fold Opened Resolution : Type) where
  | scanning (observed : Nat)
  | reloading (observed : Nat) (fold : Fold) (kid didId did : JsString)
  | evidencing (observed : Nat) (fold : Fold) (did : JsString)
  | unpacking (observed : Nat) (fold : Fold) (did : JsString) (resolution : Option Resolution)
  | notingError (message : JsString)
  | notingOpen (observed : Nat) (fold : Fold) (did : JsString)
      (proof : Except JsString (Option Resolution))
  | receiving (observed : Nat) (fold : Fold)
  /-- In `defer`: a local change came meanwhile and the vault is read again. -/
  | comparing (observed : Nat) (reason : JsString) (watch : Watch Fold) (seen : JsString)

/-- What a step waits for is answered with. -/
inductive Answer (Fold Opened Resolution : Type) where
  | scanned (fold : Except JsString Fold)
  /-- Whether the ring has the key in hand once it is reloaded. -/
  | reloaded (inHand : Except JsString Bool)
  /-- Thrown, or why the sender is refused, or its resolution. -/
  | evidence (sender : Except JsString (Except JsString (Option Resolution)))
  | unpacked (opened : Except JsString Opened)
  | noted
  | receipt (outcome : Except JsString (ReceiptOutcome Fold))
  | compared (fold : Option Fold)
  | acknowledged (done : Except JsString Unit)

/-- What a turn is taken for. -/
inductive Task where
  /-- A delivery received, through a pickup handle or not. -/
  | enter (delivery : Delivery) (handle : Bool)
  /-- An attachment that does not read. -/
  | unreadable (source : Source) (why : JsString)
  /-- A wait that may be over, the vault read or not. -/
  | recheck (serial : Nat) (read : Bool)

inductive Outcome where
  | received (received : Received)
  /-- Nothing to say: the wait is another, or goes on. -/
  | null
  | threw (failure : Failure)
deriving DecidableEq

inductive Stage (Fold Opened Resolution : Type) where
  | asked
  | attempting (delivery : Delivery) (point : Point Fold Opened Resolution)
  /-- The diagnostic of an exit. -/
  | telling (source : Source) (received : Received)
  | acknowledging (received : Received)
  | over (outcome : Outcome)

/-- What the outside sees of the receiver. -/
inductive Told where
  | opening (key : Key)
  | receipt (key : Key)
  | recorded (key : Key) (cid : JsString)
  | terminal (key : Key)
  | fate (key : Key) (fate : Fate)
deriving DecidableEq

section
variable {Fold Opened Resolution : Type}

/-- What a step makes of what is kept, where the turn stands then, and what is seen of it. -/
structure Goes (Fold Opened Resolution : Type) where
  kept : Kept Fold
  stage : Stage Fold Opened Resolution
  told : List Told

def Stage.phase : Stage Fold Opened Resolution → Phase
  | .asked => .waiting
  | .over _ => .settled
  | _ => .running

def Received.fate : Received → Fate
  | .ended _ => .acked
  | .deferred _ => .skip

/-- What a pickup handle answers, once the turn it took is over. -/
def fates (key : Key) (task : Task) (outcome : Outcome) : List Told :=
  match task, outcome with
  | .enter _ true, .received received => [.fate key received.fate]
  | .unreadable _ _, .received _ => [.fate key .acked]
  | _, _ => []

variable (O : Options Fold Opened Resolution) (kept : Kept Fold) (key : Key) (task : Task)

def settle (outcome : Outcome) : Goes Fold Opened Resolution :=
  ⟨kept, .over outcome, fates key task outcome⟩

/-- An attempt throws: nothing is kept of it, and a retry cut off by `close` says nothing. -/
def throws (failure : Failure) : Goes Fold Opened Resolution :=
  match task, failure with
  | .recheck _ _, .receiverClosed => settle kept key task .null
  | _, _ => settle kept key task (.threw failure)

def attempt (delivery : Delivery) : Goes Fold Opened Resolution :=
  ⟨kept, .attempting delivery (.scanning kept.changes), []⟩

def leave (source : Source) (reason : JsString) : Goes Fold Opened Resolution :=
  ⟨kept.letGo key, .telling source (.deferred
    (bounded (reason ++ lit "; the delivery is left where it came from"))), []⟩

def record (source : Source) (cid : JsString) (live : Option JsString) :
    Goes Fold Opened Resolution :=
  ⟨kept.endWith key (.received cid live), .telling source (.ended (.received cid live)),
    [.recorded key cid]⟩

def finish (source : Source) (reason : JsString) : Goes Fold Opened Resolution :=
  ⟨(kept.endWith key (.terminal (bounded reason))).discard source reason,
    .telling source (.ended (.terminal (bounded reason))), [.terminal key]⟩

/-- The end of `defer`: no local change is unaccounted for. -/
def deferred (delivery : Delivery) (reason : JsString) (watch : Watch Fold) (seen : JsString) :
    Goes Fold Opened Resolution :=
  if kept.closed then leave kept key delivery.source reason
  else if !kept.waits.has key && O.maxWaiting ≤ kept.waits.size then
    leave kept key delivery.source (reason ++ lit "; as many deliveries wait as may")
  else ⟨kept.wait O key delivery reason watch seen, .telling delivery.source (.deferred reason), []⟩

/-- The loop of `defer`: a change told of since is looked into first. -/
def deferLoop (delivery : Delivery) (observed : Nat) (reason : JsString) (watch : Watch Fold)
    (seen : JsString) : Goes Fold Opened Resolution :=
  if !kept.closed && kept.changes != observed then
    ⟨kept, .attempting delivery (.comparing kept.changes reason watch seen), []⟩
  else deferred O kept key delivery reason watch seen

def defer (delivery : Delivery) (observed : Nat) (reason : JsString) (watch : Watch Fold)
    (fold : Fold) : Goes Fold Opened Resolution :=
  deferLoop O kept key delivery observed (bounded reason) watch (watch fold)

/-- Past the vault read: what the recipients decide. -/
def scanned (delivery : Delivery) (observed : Nat) (fold : Fold) : Goes Fold Opened Resolution :=
  let kind := O.kindOf delivery.packed
  if kind ≠ lit "authcrypt" ∧ kind ≠ lit "anoncrypt" then
    finish kept key delivery.source
      (lit "not an envelope encrypted to its recipients (" ++ kind ++ lit ")")
  else
    match O.classifyRecipients fold delivery.packed with
    | .terminal reason => finish kept key delivery.source reason
    | .pending reason waitingOn =>
      defer O kept key delivery observed reason (O.recipientWatch waitingOn) fold
    | .eligible kid didId did =>
      ⟨kept, .attempting delivery (.reloading observed fold kid didId did), []⟩

/-- Past the opening: what the envelope proves, the host admits and the receipt is handed. -/
def opened (delivery : Delivery) (observed : Nat) (fold : Fold) (did : JsString)
    (proof : Except JsString (Option Resolution)) : Goes Fold Opened Resolution :=
  match proof with
  | .error refused => finish kept key delivery.source refused
  | .ok sender =>
    match sender.map O.didOf with
    | some other =>
      if O.sameDid other did then
        finish kept key delivery.source (lit "the sender " ++ other ++ lit " is the recipient itself")
      else admitted (some other)
    | none => admitted none
where
  admitted (sender : Option JsString) : Goes Fold Opened Resolution :=
    match O.admits ⟨delivery.source, did, sender, (encodeUtf8 delivery.packed).length⟩ with
    | some refused => finish kept key delivery.source refused
    | none => ⟨kept, .attempting delivery (.receiving observed fold), [.receipt key]⟩

def enter (delivery : Delivery) : Goes Fold Opened Resolution :=
  if kept.closed then settle kept key task (.threw .receiverClosed)
  else
    match kept.ended.get? key with
    | some (.received cid _) => settle kept key task (.received (.ended (.received cid none)))
    | some ended => settle kept key task (.received (.ended ended))
    | none =>
      match kept.waits.get? key with
      | some wait =>
        if wait.retry then attempt kept delivery
        else settle (kept.hold O key delivery) key task (.received (.deferred wait.reason))
      | none => attempt kept delivery

/-- A waiting delivery retried off a pickup's turn; without its bytes, at its next redelivery. -/
def retry (wait : Wait Fold) : Goes Fold Opened Resolution :=
  match kept.held.get? key with
  | some held =>
    if kept.closed then later else attempt kept held.delivery
  | none => later
where
  later : Goes Fold Opened Resolution :=
    settle { kept with waits := kept.waits.set key { wait with retry := true } } key task .null

/-- A turn begins. -/
def beginTurn : Goes Fold Opened Resolution :=
  match task with
  | .enter delivery _ => enter O kept key task delivery
  | .unreadable source why =>
    if kept.closed then settle kept key task (.threw .receiverClosed)
    else finish kept key source (lit "the attachment does not read: " ++ why)
  | .recheck serial read =>
    match kept.waits.get? key with
    | some wait =>
      if wait.serial ≠ serial then settle kept key task .null
      else if read then retry kept key task wait
      else leave kept key wait.source (lit "the vault is not read to tell what changed")
    | none => settle kept key task .null

/-- A turn goes on with what it waited for; nothing where it waits for something else. -/
def resumeTurn (stage : Stage Fold Opened Resolution) (answer : Answer Fold Opened Resolution) :
    Option (Goes Fold Opened Resolution) :=
  match stage, answer with
  | .attempting delivery (.scanning observed), .scanned fold =>
    if kept.closed then some (throws kept key task .receiverClosed)
    else
      match fold with
      | .error message =>
        some (leave kept key delivery.source (lit "the vault is not read: " ++ message))
      | .ok fold => some (scanned O kept key delivery observed fold)
  | .attempting delivery (.reloading observed fold kid didId did), .reloaded inHand =>
    match inHand with
    | .error message => some (throws kept key task (.other message))
    | .ok inHand =>
      if kept.closed then some (throws kept key task .receiverClosed)
      else if inHand then some ⟨kept, .attempting delivery (.evidencing observed fold did), []⟩
      else some (defer O kept key delivery observed (lit "no key in hand for " ++ kid)
        (O.recipientWatch [didId]) fold)
  | .attempting delivery (.evidencing observed fold did), .evidence sender =>
    match sender with
    | .error message => some (throws kept key task (.other message))
    | .ok (.error terminal) => some (finish kept key delivery.source terminal)
    | .ok (.ok resolution) =>
      some ⟨kept, .attempting delivery (.unpacking observed fold did resolution), [.opening key]⟩
  | .attempting delivery (.unpacking observed fold did resolution), .unpacked opened =>
    match opened with
    | .error message => some ⟨kept, .attempting delivery (.notingError message), []⟩
    | .ok opened => some ⟨kept, .attempting delivery (.notingOpen observed fold did
        (O.senderProof opened delivery.packed resolution)), []⟩
  | .attempting delivery (.notingError message), .noted =>
    if kept.closed then some (throws kept key task .receiverClosed)
    else some (finish kept key delivery.source (lit "the envelope does not open: " ++ message))
  | .attempting delivery (.notingOpen observed fold did proof), .noted =>
    if kept.closed then some (throws kept key task .receiverClosed)
    else some (opened O kept key delivery observed fold did proof)
  | .attempting delivery (.receiving observed fold), .receipt outcome =>
    match outcome with
    | .error message => some (leave kept key delivery.source (lit "the receipt failed: " ++ message))
    | .ok (.received cid live) => some (record kept key delivery.source cid live)
    | .ok (.terminal reason) => some (finish kept key delivery.source reason)
    | .ok (.deferred reason watch) => some (defer O kept key delivery observed reason watch fold)
  | .attempting delivery (.comparing observed reason watch seen), .compared fold =>
    match fold with
    | none =>
      some (leave kept key delivery.source (lit "the vault is not read to tell what changed"))
    | some fold =>
      if watch fold ≠ seen then some (attempt kept delivery)
      else some (deferLoop O kept key delivery observed reason watch seen)
  | .telling source received, .noted =>
    match task, source, received with
    | .recheck _ _, .pickup _ _, .ended _ =>
      if O.acknowledges then some ⟨kept, .acknowledging received, []⟩
      else some (settle kept key task (.received received))
    | _, _, _ => some (settle kept key task (.received received))
  | .acknowledging received, .acknowledged done =>
    match done with
    | .ok _ => some (settle { kept with ended := kept.ended.erase key } key task (.received received))
    | .error _ => some (settle kept key task (.received received))
  | _, _ => none

/-! ## The receiver -/

variable (Fold Opened Resolution) in
structure Work where
  task : Task
  stage : Stage Fold Opened Resolution

/-- Where a `localStateChanged` is: reading the vault, or in a turn it asked for. -/
inductive Change (Fold : Type) where
  | reading (waiting : List (Key × Wait Fold))
  | turning (turn : Nat) (fold : Option Fold) (rest : List (Key × Wait Fold))
  | over

variable (Fold Opened Resolution) in
structure Receiver extends Kept Fold where
  turns : Queue Key (Work Fold Opened Resolution)
  changing : List (Change Fold)
  told : List Told

def deliveryKey (delivery : Delivery) : Option Key :=
  match delivery.source with
  | .pickup mediationId deliveryId => some (.pickup mediationId deliveryId)
  | .direct => (O.cidOf delivery.packed).map Key.direct

inductive Happening (Fold Opened Resolution : Type) where
  | receive (delivery : Delivery)
  /-- A pickup handle is given an attachment. -/
  | take (mediationId : JsString) (delivered : Delivered)
  /-- It is told which attachments the mediator was told of. -/
  | acknowledged (mediationId : JsString) (attachmentIds : List JsString)
  | localStateChanged
  /-- The vault was read for the change, or was not. -/
  | compared (change : Nat) (fold : Option Fold)
  /-- The turn the change asked for is over. -/
  | wentOn (change : Nat)
  | close
  | begin (turn : Nat)
  | resume (turn : Nat) (answer : Answer Fold Opened Resolution)
  | release (turn : Nat)
  | sweep (turn : Nat)

namespace Receiver

def new : Receiver Fold Opened Resolution := ⟨Kept.new, Queue.empty, [], []⟩

variable (r : Receiver Fold Opened Resolution)

def inTurn (key : Key) (task : Task) : Receiver Fold Opened Resolution :=
  { r with turns := r.turns.ask key ⟨task, .asked⟩ }

/-- What a turn's step did. -/
def went (turn : Nat) (task : Task) (goes : Goes Fold Opened Resolution) :
    Receiver Fold Opened Resolution where
  toKept := goes.kept
  turns := r.turns.move turn goes.stage.phase ⟨task, goes.stage⟩
  changing := r.changing
  told := r.told ++ goes.told

def receive (delivery : Delivery) (handle : Bool) : Receiver Fold Opened Resolution :=
  if r.closed then r
  else
    match deliveryKey O delivery with
    | some key => r.inTurn key (.enter delivery handle)
    | none => { r with
      toKept := r.toKept.discard delivery.source (lit "the envelope is not strict JSON") }

def take (mediationId : JsString) (delivered : Delivered) : Receiver Fold Opened Resolution :=
  let source := Source.pickup mediationId delivered.attachmentId
  match delivered.inside with
  | .ok packed => receive O r ⟨packed, source⟩ true
  | .error unreadable =>
    if r.closed then r
    else r.inTurn (.pickup mediationId delivered.attachmentId) (.unreadable source unreadable)

def acknowledged (mediationId : JsString) (attachmentIds : List JsString) :
    Receiver Fold Opened Resolution :=
  { r with
    ended := attachmentIds.foldl (fun ended id => ended.erase (.pickup mediationId id)) r.ended }

def localStateChanged : Receiver Fold Opened Resolution :=
  let waiting := r.waits.entries
  { r with
    changes := r.changes + 1
    changing := if waiting.isEmpty then r.changing else r.changing ++ [.reading waiting] }

/-- The loop of `localStateChanged`: on to the next wait that may be over. -/
def next (change : Nat) (fold : Option Fold) :
    List (Key × Wait Fold) → Receiver Fold Opened Resolution
  | [] => { r with changing := r.changing.set change .over }
  | (key, wait) :: rest =>
    if r.closed then { r with changing := r.changing.set change .over }
    else if fold.any fun fold => wait.watch fold == wait.seen then next change fold rest
    else { r.inTurn key (.recheck wait.serial fold.isSome) with
      changing := r.changing.set change (.turning r.turns.calls.length fold rest) }

def compared (change : Nat) (fold : Option Fold) : Receiver Fold Opened Resolution :=
  match r.changing[change]? with
  | some (.reading waiting) => next r change fold waiting
  | _ => r

/-- Thrown on where the turn threw; otherwise the next wait. -/
def wentOn (change : Nat) : Receiver Fold Opened Resolution :=
  match r.changing[change]? with
  | some (.turning turn fold rest) =>
    match r.turns.calls[turn]? with
    | some call =>
      match call.work.stage with
      | .over (.threw _) => { r with changing := r.changing.set change .over }
      | .over _ => next r change fold rest
      | _ => r
    | none => r
  | _ => r

def close : Receiver Fold Opened Resolution :=
  { r with toKept := r.toKept.close }

def begin_ (turn : Nat) : Receiver Fold Opened Resolution :=
  match r.turns.calls[turn]? with
  | some call =>
    if call.phase = .waiting ∧ r.turns.ready call = true then
      r.went turn call.work.task (beginTurn O r.toKept call.key call.work.task)
    else r
  | none => r

def resume (turn : Nat) (answer : Answer Fold Opened Resolution) : Receiver Fold Opened Resolution :=
  match r.turns.calls[turn]? with
  | some call =>
    match resumeTurn O r.toKept call.key call.work.task call.work.stage answer with
    | some goes => r.went turn call.work.task goes
    | none => r
  | none => r

/-- What waits behind a turn learns that it is over. -/
def release (turn : Nat) : Receiver Fold Opened Resolution :=
  match r.turns.calls[turn]? with
  | some call =>
    if call.phase = .settled then { r with turns := r.turns.move turn .released call.work } else r
  | none => r

def sweep (turn : Nat) : Receiver Fold Opened Resolution :=
  match r.turns.calls[turn]? with
  | some call => if call.phase = .released then { r with turns := r.turns.sweep turn } else r
  | none => r

/-- One happening; where it cannot happen now, nothing does. -/
def step : Happening Fold Opened Resolution → Receiver Fold Opened Resolution
  | .receive delivery => r.receive O delivery false
  | .take mediationId delivered => r.take O mediationId delivered
  | .acknowledged mediationId attachmentIds => r.acknowledged mediationId attachmentIds
  | .localStateChanged => r.localStateChanged
  | .compared change fold => r.compared change fold
  | .wentOn change => r.wentOn change
  | .close => r.close
  | .begin turn => r.begin_ O turn
  | .resume turn answer => r.resume O turn answer
  | .release turn => r.release turn
  | .sweep turn => r.sweep turn

def run (happenings : List (Happening Fold Opened Resolution)) : Receiver Fold Opened Resolution :=
  happenings.foldl (step O) new

end Receiver

end

end Estoc.Agent.Receive
