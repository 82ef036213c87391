import Estoc.Vault.Inbound

/-!
# The outbound messages

For each message ID the one intent its records must agree on, every preparation of it, the
submissions that say a transport accepted one of them, the termination that ended it unsent,
the receipts that acknowledge it, and what it still needs: a preparation, or a transport call
of one of those it has. Each fact is derived from its own evidence; whatever contradicts it
does so for good, and what is missing leaves it pending.
-/

set_option linter.unusedSectionVars false

namespace Estoc.Vault

open Json (lit)
open Utf16 (JsString)
open Checked (refuse)

def PURE_ACK_EFFECT : JsString := lit "https://estoc.dev/distributed-delivery/1.0#pure-ack"
def PING_RESPONSE_EFFECT : JsString := PING_RESPONSE_TYPE
def ROTATION_NOTIFICATION_EFFECT : JsString :=
  lit "https://estoc.dev/distributed-delivery/1.0#rotation-notification"
def PING_TYPE : JsString := lit "https://didcomm.org/trust-ping/2.0/ping"

/-- The operations whose output intents can be checked field by field. -/
def BUILT_IN_EFFECTS : List JsString :=
  [PURE_ACK_EFFECT, PING_RESPONSE_EFFECT, ROTATION_NOTIFICATION_EFFECT]

/-- Where a record on its own evidence stands. Conflict is for good. -/
inductive Standing where
  | complete
  | pending (because : JsString)
  | conflict (because : JsString)
deriving DecidableEq

namespace Standing

def because : Standing → JsString
  | .complete => []
  | .pending because => because
  | .conflict because => because

def isPending : Standing → Bool
  | .pending _ => true
  | _ => false

def isConflict : Standing → Bool
  | .conflict _ => true
  | _ => false

end Standing

abbrev PreparationStatus := Standing
abbrev SubmissionStatus := Standing
abbrev EffectStatus := Standing
abbrev AcknowledgementStatus := Standing

/-- The first record in canonical order stands for the agreeing records. -/
inductive IntentStatus where
  | consistent (data : MessageOut)
  | conflict (because : JsString)

def IntentStatus.data : IntentStatus → Option MessageOut
  | .consistent data => some data
  | .conflict _ => none

/-- One `message.prepared`, named by its event CID. -/
structure Preparation where
  event : VaultEvent MessagePrepared
  status : PreparationStatus
  /-- An erasure of the message names the envelope. -/
  erased : Bool

/-- A recorded acceptance of one preparation, found by the exact event CID it names. -/
structure Submission where
  event : VaultEvent DeliverySubmitted
  preparation : Option Preparation
  status : SubmissionStatus

/-- What makes a recorded termination invalid, or nothing. -/
structure Termination where
  event : VaultEvent DeliveryFailed
  invalid : Option JsString

structure Acknowledgement where
  event : VaultEvent DeliveryAcknowledged
  status : AcknowledgementStatus

inductive Outcome where
  | conflict (because : JsString)
  | submitted
  | terminal (code : DeliveryFailureCode)
  | prepared
  | queued

/-- What the message still needs, whatever the wall clock says. -/
inductive Work where
  | none (because : JsString)
  | prepare
  | dispatch (candidates : List Preparation)

structure Outbound where
  messageId : MessageId
  intents : List (VaultEvent MessageOut)
  intent : IntentStatus
  /-- The sender entity the consistent intent names, whatever its state. -/
  sender : Option LocalDidEntity
  /-- The fixed pair, once the sender's creation reads. -/
  channel : Option Channel
  preparations : List Preparation
  submissions : List Submission
  submitted : Bool
  terminations : List Termination
  /-- The first valid termination in canonical order. -/
  terminal : Option Termination
  effect : EffectStatus
  ackWitnesses : List PlacedSource
  acknowledgements : List Acknowledgement
  acknowledged : Bool
  /-- Acknowledged, with an expiry, and the earliest witness observed at or after it. -/
  late : Bool
  erased : Bool
  outcome : Outcome
  work : Work
  /-- Submitted or terminal under a consistent intent. -/
  released : Bool

/-- One `effect.skipped`, its source checked as an automatic intent's is. -/
structure Skip where
  event : VaultEvent EffectSkipped
  status : EffectStatus

/-- What every message and every skip is judged against. -/
structure Shared where
  outside : Outside
  set : VaultEventSet
  dids : DidFold
  evidence : ChannelEvidence
  continuity : Continuity
  inbound : InboundFold
  erasures : Erasures
  resolutionChecks : Verdicts EvidenceCheck
  known : List JsString
  /-- The distinct notification message IDs naming each rotation. -/
  selections : OMap EventCid (List MessageId)

/-! ## The intent -/

section Intents

variable (O : Outside)

def canonicalRecipient (did : Did) : Option Did := (O.canonicalDidOf did).toOption

/-- The tuple an automatic record is produced under. -/
def AutomaticEffect.tuple (effect : AutomaticEffect) : ExecutionId × JsString × EffectKey :=
  (effect.executionId, effect.effectType, effect.effectKey)

/-- Two records of one message are one intent when they agree on the intent CID, the sender,
the canonical recipient, the effect tuple and its key, and the rotation they announce. Their
sources are evidence and may differ. -/
def sameIntent (a b : MessageOut) : Bool :=
  a.intentCid == b.intentCid &&
  a.senderDidId == b.senderDidId &&
  (a.recipientDid == b.recipientDid ||
    (canonicalRecipient O a.recipientDid).getD a.recipientDid ==
      (canonicalRecipient O b.recipientDid).getD b.recipientDid) &&
  a.effect.map AutomaticEffect.tuple == b.effect.map AutomaticEffect.tuple &&
  a.rotationEventCid == b.rotationEventCid

def intentOf (first : VaultEvent MessageOut) (rest : List (VaultEvent MessageOut)) :
    IntentStatus :=
  if rest.all fun event => sameIntent O first.data event.data then .consistent first.data
  else .conflict (lit "the intents recorded under one message ID disagree")

end Intents

/-- A reference to the message itself. -/
def SELF : JsString := []

/-- A reference as the intent has it: the message's own ID, in any spelling, is `SELF`. -/
def selfOr (own reference : JsString) : JsString :=
  if canonicalWireId reference = canonicalWireId own then SELF else reference

/-- The thread of the intent a `message.out` records. -/
def MessageOut.intentThid (data : MessageOut) : JsString :=
  match data.thid with
  | none => SELF
  | some thid => selfOr data.messageId thid

def MessageOut.intentPleaseAck (data : MessageOut) : Option (List JsString) :=
  data.pleaseAck.map fun targets => targets.map (selfOr data.messageId)

/-- Does a message ask for its own acknowledgment. -/
def requestsAck (currentWireId : JsString) (pleaseAck : Option (List JsString)) : Bool :=
  (pleaseAck.getD []).any fun target => target == SELF || sameWireId target currentWireId

/-- The thread a reply to the carrier is on. -/
def replyThread (carrier : MessageIn) : JsString :=
  match carrier.thid with
  | none => canonicalWireId carrier.wireMessageId
  | some thid =>
    if sameWireId thid carrier.wireMessageId then canonicalWireId carrier.wireMessageId else thid

/-! ## The derivation of an automatic intent -/

section Effects

variable (inputs : Shared)

/-- A conflict, as a verdict that ends the reading. -/
def contradicts {α : Type} (because : JsString) : Except EffectStatus α :=
  .error (.conflict because)

/-- Stop with a conflict where a condition holds. -/
def against (c : Prop) [Decidable c] (because : JsString) : Except EffectStatus Unit :=
  refuse c (.conflict because)

/-- The observation an automatic record names, read against the execution it claims, with
what is still missing. -/
def readEffectSource (sourceEventCid : EventCid) (executionId : ExecutionId) :
    Except EffectStatus (Option Source × List JsString) :=
  match inputs.set.resolve sourceEventCid messageIn,
      inputs.evidence.sources.get? sourceEventCid with
  | .mismatched type, _ => contradicts (lit "the source it names is a " ++ type)
  | .present _, some source => do
    match source.status with
    | .anonymous => contradicts (lit "the source is anonymous, in no channel")
    | .conflict because _ =>
      contradicts (lit "the source's authentication is in conflict: " ++ because)
    | _ => pure ()
    match inputs.inbound.ofSource sourceEventCid with
    | none => pure ()
    | some execution =>
      against (execution.id ≠ executionId) (lit ("the execution ID is not the one the source's " ++
        "input derives, ") ++ execution.id)
      match execution.status with
      | .conflict because => contradicts (lit "the source's input is in conflict: " ++ because)
      | _ => pure ()
    match inputs.continuity.witness sourceEventCid with
    | .invalid because => contradicts (lit "the source is no complete witness: " ++ because)
    | .conflict because => contradicts (lit "the source is no complete witness: " ++ because)
    | .pending because =>
      pure (some source, [lit "the source is no complete witness yet: " ++ because])
    | .complete => pure (some source, [])
  | _, _ => .ok (none, [lit "the source it names is not here"])

/-- The first decision toward the output's sender and peer that waits for its history. -/
def waitingToward (data : MessageOut) (channel : Channel) : Option JsString :=
  (inputs.evidence.decisions.entries.filter fun entry =>
    entry.2.event.data.peerDid == channel.peerDid &&
      entry.2.event.data.toDidId == data.senderDidId).findSome? fun entry =>
    match inputs.continuity.status entry.1 with
    | .pendingHistory because => some because
    | _ => none

/-- Whether the output of an ACK or a Ping reply continues the source's channel. -/
def continues (data : MessageOut) (source : Source) (channel : Option Channel) :
    Except EffectStatus (List JsString) :=
  match channel, source.channel with
  | some channel, some sourceChannel => do
    let because := lit "the output's channel does not continue the source's"
    if sameChannel sourceChannel channel then pure []
    else
      against (channel.peerDid ≠ sourceChannel.peerDid) (lit "the output's peer is not the source's")
      if inputs.continuity.ackPath sourceChannel channel then pure []
      else
        against (inputs.continuity.conflicted sourceChannel ∨ inputs.continuity.conflicted channel)
          (because ++ lit ": the continuity between them is in conflict")
        match waitingToward inputs data channel with
        | some waiting => pure [because ++ lit " yet: " ++ waiting]
        | none => pure [because ++
            lit " yet: no verified rotation to the output's sender is here"]
  | _, _ => .ok []

/-- Nothing but an empty body. -/
def isEmptyOutput (O : Outside) (data : MessageOut) : Bool :=
  data.bodyCid == O.EMPTY_CONTENT_CID && data.attachmentCids.isEmpty && data.headers.isEmpty

/-- The rules of a pure ACK. -/
def pureAckOf (data : MessageOut) (carried : Option MessageIn) : Except EffectStatus Unit := do
  against (data.msgType ≠ EMPTY_MESSAGE_TYPE ∨ isEmptyOutput inputs.outside data = false)
    (lit "a pure ACK is an Empty message with body \x7b\x7d and nothing else")
  against (data.pleaseAck.isSome ∨ data.expiresTime.isSome)
    (lit "a pure ACK requests no ACK and does not expire")
  against (data.ack.length ≠ 1) (lit "a pure ACK names one target, its carrier")
  match carried with
  | none => pure ()
  | some carried =>
    against (¬ (data.thid = some (replyThread carried) ∧ data.pthid = carried.pthid) ∨
        data.createdTime ≠ carried.createdTime)
      (lit "a pure ACK keeps the carrier's thread and creation time")
    against (carried.msgType = EMPTY_MESSAGE_TYPE ∧ carried.pleaseAck = none)
      (lit "a pure ACK answers no pure ACK")
    against (data.ack.head? ≠ some (canonicalWireId carried.wireMessageId))
      (lit "a pure ACK names its carrier alone, by its canonical wire ID")
    against (requestsAck carried.wireMessageId carried.pleaseAck = false)
      (lit "the source requests no receipt of itself")

/-- The rules of a Ping reply. -/
def pingResponseOf (data : MessageOut) (carried : Option MessageIn) :
    Except EffectStatus Unit := do
  against (data.msgType ≠ PING_RESPONSE_TYPE ∨ isEmptyOutput inputs.outside data = false)
    (lit "a Ping reply is a ping-response with an empty body and nothing else")
  against (data.pleaseAck.isSome ∨ data.ack ≠ [])
    (lit "a Ping reply neither requests nor carries an ACK")
  match carried with
  | none => pure ()
  | some carried =>
    against (carried.msgType ≠ PING_TYPE) (lit "a Ping reply answers a Ping")
    against (data.thid ≠ some (canonicalWireId carried.wireMessageId) ∨
        data.pthid ≠ carried.pthid ∨ data.createdTime ≠ carried.createdTime ∨
        data.expiresTime ≠ carried.expiresTime)
      (lit ("a Ping reply threads on the Ping's canonical wire ID and keeps its parent thread " ++
        "and timing"))

def builtInOf (data : MessageOut) (effectType : JsString) (source : Option Source)
    (channel : Option Channel) : Except EffectStatus (List JsString) := do
  let missing ← match source with
    | none => pure []
    | some source => continues inputs data source channel
  let carried := source.map fun source => source.event.data
  if effectType = PURE_ACK_EFFECT then pureAckOf inputs data carried
  else if effectType = PING_RESPONSE_EFFECT then pingResponseOf inputs data carried
  else pure ()
  pure missing

/-- The fields of a notification, and its source where it was triggered. -/
def notificationFields (data : MessageOut) (source : Option Source) :
    Except EffectStatus Unit := do
  against (data.msgType ≠ EMPTY_MESSAGE_TYPE ∨ isEmptyOutput inputs.outside data = false)
    (lit "a notification is an Empty message with body \x7b\x7d and nothing else")
  against (data.intentPleaseAck ≠ some [SELF] ∨ data.ack ≠ [] ∨ data.expiresTime.isSome)
    (lit "a notification requests its own receipt, carries no ACK and does not expire")
  match data.effect, source with
  | none, _ =>
    against (data.intentThid ≠ SELF ∨ data.pthid.isSome ∨ data.createdTime.isSome)
      (lit "a manual notification has no thread and no creation time")
  | some _, none => pure ()
  | some _, some source =>
    let carried := source.event.data
    against (data.thid ≠ some (replyThread carried) ∨ data.pthid ≠ carried.pthid ∨
        data.createdTime ≠ carried.createdTime)
      (lit "a triggered notification keeps its source's thread and creation time")
    against (kindOf inputs.outside carried ≠ .application)
      (lit "a control input triggers no notification: the source is " ++
        (kindOf inputs.outside carried).text)

/-- What a status that is not verified says. -/
def unverified : ContinuityStatus → JsString
  | .notPresent => []
  | .pendingProof => []
  | .verified => []
  | .pendingHistory because => lit ": " ++ because
  | .unsupported because => lit ": " ++ because
  | .invalid because => lit ": " ++ because
  | .conflict because => lit ": " ++ because

/-- The rotation a notification names, against its own fields and its continuity. -/
def notificationRotation (data : MessageOut) (rotationEventCid : EventCid)
    (channel : Option Channel) : Except EffectStatus (List JsString) :=
  match inputs.set.resolve rotationEventCid rotationSelected with
  | .mismatched type => contradicts (lit "the rotation it names is a " ++ type)
  | .missing => .ok [lit "the rotation it names is not here"]
  | .present resolved => do
    let rotation := resolved.data
    against (rotation.sourceEventCid ≠ data.effect.map (·.sourceEventCid))
      (lit "a notification is triggered exactly as its decision was, by the same source")
    against (rotation.toDidId ≠ data.senderDidId)
      (lit "a notification is sent from the decision's successor")
    against (channel.any fun channel => channel.peerDid ≠ rotation.peerDid)
      (lit "a notification is sent to the decision's peer")
    match inputs.continuity.status resolved.cid with
    | .invalid because => contradicts (lit "the rotation it names is invalid: " ++ because)
    | .conflict because => contradicts (lit "the rotation it names is conflict: " ++ because)
    | .verified => pure []
    | status => pure [lit "the rotation it names is not verified yet" ++ unverified status]

/-- A notification is triggered exactly as the decision it names was, by the same source, or
manually by none; one decision selects one notification. -/
def notificationOf (data : MessageOut) (source : Option Source) (channel : Option Channel) :
    Except EffectStatus (List JsString) := do
  against (data.effect.any fun effect => effect.effectType ≠ ROTATION_NOTIFICATION_EFFECT)
    (lit "an intent naming a rotation is a rotation notification")
  match data.rotationEventCid with
  | none => contradicts (lit "a rotation notification names its rotation")
  | some rotationEventCid =>
    notificationFields inputs data source
    against (1 < ((inputs.selections.get? rotationEventCid).getD []).length)
      (lit "another notification is selected for the rotation")
    notificationRotation inputs data rotationEventCid channel

/-- What an intent rests on, with what is missing of it. -/
def effectReading (data : MessageOut) (channel : Option Channel) :
    Except EffectStatus (List JsString) := do
  let (source, missing) ← match data.effect with
    | none => pure (none, [])
    | some effect => readEffectSource inputs effect.sourceEventCid effect.executionId
  let missing' ←
    if data.rotationEventCid.isSome ∨
        data.effect.map (·.effectType) = some ROTATION_NOTIFICATION_EFFECT then
      notificationOf inputs data source channel
    else
      match data.effect with
      | none => pure []
      | some effect => do
        refuse (effect.effectType ∉ inputs.known)
          (.pending (lit "no operation here produces " ++ effect.effectType))
        builtInOf inputs data effect.effectType source channel
  pure (missing ++ missing')

/-- A reading as a verdict: what ended it, or the first thing missing. -/
def verdict : Except EffectStatus (List JsString) → EffectStatus
  | .error status => status
  | .ok [] => .complete
  | .ok (because :: _) => .pending because

def effectOf (data : MessageOut) (channel : Option Channel) : EffectStatus :=
  verdict (effectReading inputs data channel)

/-- A skip rests on its source as an automatic intent does. -/
def skipStatus (event : VaultEvent EffectSkipped) : EffectStatus :=
  verdict ((readEffectSource inputs event.data.sourceEventCid event.data.executionId).map Prod.snd)

/-- The first record whose own check contradicts it decides a conflict, and else the first
still waiting. -/
def effectOfRecords (events : List (VaultEvent MessageOut)) (channel : Option Channel) :
    EffectStatus :=
  let verdicts := events.map fun event => effectOf inputs event.data channel
  ((verdicts.find? Standing.isConflict).or (verdicts.find? Standing.isPending)).getD .complete

end Effects

/-! ## Delivery -/

section Delivery

variable (inputs : Shared)

/-- The resolution a preparation names, against it and the sender's own key. -/
def preparationEvidence (preparation : MessagePrepared) (recipient : Did)
    (localKeyType : Option KeyType) (resolution : VaultEvent PeerResolved) :
    Except PreparationStatus (Option EvidenceCheck) := do
  let O := inputs.outside
  against (resolution.data.localKeyName ≠ preparation.localKeyName)
    (lit "the resolution it names was not taken at the preparation's key")
  against (resolution.data.did ≠ recipient)
    (lit "the resolution it names is not of the recipient")
  let peerKeyType ← (O.agreementKey resolution.data.peerPublicKey).mapError Standing.conflict
  let check := inputs.resolutionChecks resolution.cid
  against (check = some .invalid) (lit "the resolution's snapshot is not its document's")
  against (localKeyType.isSome ∧ localKeyType ≠ some peerKeyType) (lit "the peer key is " ++
    peerKeyType.text ++ lit " and the sender's key-agreement key " ++
    ((localKeyType.map KeyType.text).getD []) ++ lit ": no key is agreed across curves")
  pure check

/-- The checks of a preparation, contradictions before absences. -/
def preparationReading (preparation : MessagePrepared) (data : MessageOut)
    (sender : Option LocalDidEntity) (channel : Option Channel) :
    Except PreparationStatus Unit := do
  let O := inputs.outside
  against (preparation.senderDidId ≠ data.senderDidId)
    (lit "the preparation's sender is not the intent's")
  against (preparation.intentCid ≠ data.intentCid)
    (lit "the preparation's intent CID is not the intent's")
  match canonicalRecipient O preparation.recipientDid with
  | none => contradicts (lit "the preparation's recipient is no valid did:peer:4")
  | some recipient =>
    against (channel.any fun channel => recipient ≠ channel.peerDid)
      (lit "the preparation's recipient is not the intent's")
    match inputs.set.resolve preparation.peerResolutionEventCid peerResolved with
    | .missing => .error (.pending (lit "the resolution it names is not here"))
    | .mismatched type => contradicts (lit "the resolution it names is a " ++ type)
    | .present resolution =>
      let localKeyType := sender.bind (keyAgreementTypeOf O)
      let check ← preparationEvidence inputs preparation recipient localKeyType resolution
      refuse (check = none) (.pending (lit "the resolution's document is not here"))
      refuse (channel = none)
        (.pending (lit "the sender entity has no consistent creation here"))
      refuse (localKeyType = none) (.pending (lit "the sender's own document does not read"))

def preparationStatus (preparation : MessagePrepared) (data : Option MessageOut)
    (sender : Option LocalDidEntity) (channel : Option Channel) : PreparationStatus :=
  match data with
  | none => .pending (lit "the intent is not consistent")
  | some data =>
    match preparationReading inputs preparation data sender channel with
    | .ok () => .complete
    | .error status => status

/-- The best any preparation reaches, one still waiting before one in conflict. -/
def preparedOf (preparations : List Preparation) : PreparationStatus :=
  match preparations with
  | [] => .pending (lit "no preparation is here")
  | first :: _ =>
    if preparations.any fun preparation => preparation.status = .complete then .complete
    else ((preparations.find? fun preparation => preparation.status.isPending).getD first).status

/-- A submission stands as the preparation it names does. -/
def submissionOf (set : VaultEventSet) (preparations : List Preparation) (data : Option MessageOut)
    (event : VaultEvent DeliverySubmitted) : Submission :=
  match set.resolve event.data.preparationEventCid messagePrepared with
  | .missing => ⟨event, none, .pending (lit "the preparation it names is not here")⟩
  | .mismatched type => ⟨event, none, .conflict (lit "the preparation it names is a " ++ type)⟩
  | .present resolved =>
    match preparations.find? fun candidate => candidate.event.cid = resolved.cid with
    | none => ⟨event, none, .conflict (lit "the preparation it names is another message's")⟩
    | some preparation =>
      match data, preparation.status with
      | none, _ => ⟨event, some preparation, .pending (lit "the intent is not consistent")⟩
      | some _, .conflict because => ⟨event, some preparation,
          .conflict (lit "the preparation it names contradicts the intent: " ++ because)⟩
      | some _, status => ⟨event, some preparation, status⟩

def terminationOf (data : Option MessageOut) (event : VaultEvent DeliveryFailed) : Termination :=
  match data with
  | none => ⟨event, some (lit "the intent is not consistent")⟩
  | some data =>
    if event.data.code = .expired ∧ data.expiresTime = none then
      ⟨event, some (lit "the intent has no expiry to reach")⟩
    else ⟨event, none⟩

end Delivery

/-! ## Acknowledgement -/

section Acknowledgement

variable (inputs : Shared)

/-- Is the observation an admitted complete witness of an input whose admitted intents
agree. -/
def admittedWitness (inbound : InboundFold) (sourceEventCid : EventCid) : Bool :=
  match inbound.memberOf sourceEventCid, inbound.ofSource sourceEventCid with
  | some member, some execution =>
    member.admitted && member.witness == .complete && !(execution.status matches .conflict _)
  | _, _ => false

/-- The admitted witnesses whose `ack` names a message, in canonical event order. -/
def witnessesOf (evidence : ChannelEvidence) (inbound : InboundFold) (messageId : MessageId) :
    List PlacedSource :=
  (Cmp.sortBy byEvent evidence.sources.values).filterMap fun source =>
    if (source.event.data.ack.map canonicalWireId).contains messageId &&
        admittedWitness inbound source.event.cid then source.placed
    else none

/-- What of an acknowledgement is not the carrier's. -/
def mismatchOf (data : DeliveryAcknowledged) (source : PlacedSource) : Option JsString :=
  if source.event.data.wireMessageId ≠ data.ackWireMessageId then
    some (lit "the wire ID is not the carrier's")
  else if source.event.data.localKeyName ≠ data.localKeyName then
    some (lit "the local key is not the carrier's")
  else if source.resolution.data.peerPublicKey ≠ data.peerPublicKey then
    some (lit "the peer key is not the carrier's")
  else none

/-- Why a carrier that is no witness here, and that nothing refutes, keeps the record
waiting. -/
def waitingCarrier (data : DeliveryAcknowledged) (carriers : List PlacedSource) (source : Source) :
    Option JsString :=
  let carrier := source.event.data
  if carriers.any fun witness => witness.event.cid == source.event.cid then none
  else if carrier.wireMessageId ≠ data.ackWireMessageId ∨ carrier.localKeyName ≠ data.localKeyName ∨
      (carrier.ack.any fun target => sameWireId target data.messageId) = false then none
  else if source.resolution.any fun resolution =>
      resolution.data.peerPublicKey ≠ data.peerPublicKey then none
  else
    match inputs.continuity.witness source.event.cid, inputs.inbound.memberOf source.event.cid with
    | .pending because, _ =>
      some (lit "the carrier it names is no complete witness yet: " ++ because)
    | .complete, some member =>
      if member.admitted then
        some (lit "the carrier it names has no verified path to this message's channel yet")
      else some (lit "the carrier it names is not admitted")
    | _, _ => none

/-- A recorded acknowledgement rests on a complete preparation and repeats one carrier's key,
peer key and wire ID exactly. -/
def acknowledgementStatus (prepared : PreparationStatus) (witnesses : List PlacedSource)
    (data : DeliveryAcknowledged) : AcknowledgementStatus :=
  match prepared with
  | .conflict because => .conflict (lit "the preparation contradicts the intent: " ++ because)
  | .pending because => .pending because
  | .complete =>
    let carriers := witnesses.filter fun source => source.event.data.messageId = data.ackMessageId
    let mismatches := carriers.map (mismatchOf data)
    let named := inputs.evidence.sources.values.filter fun source =>
      source.event.data.messageId = data.ackMessageId
    if mismatches.contains none then .complete
    else
      match named.findSome? (waitingCarrier inputs data carriers), mismatches with
      | some because, _ => .pending because
      | none, [] =>
        if named.isEmpty then .pending (lit "the carrier it names is not here")
        else .pending (lit ("the carrier it names does not acknowledge this message as a " ++
          "complete witness"))
      | none, [mismatch] => .conflict (mismatch.getD [])
      | none, mismatches => .conflict (lit "none of the " ++ lit (toString mismatches.length) ++
          lit " carriers with that message ID has the record's wire ID, local key and peer key")

end Acknowledgement

/-! ## The message -/

section Messages

variable (inputs : Shared)

/-- The sender's channel: the conflict of the sender or the recipient, what the message waits
for, or the pair. -/
inductive SenderReading where
  | fault (because : JsString)
  | waiting (because : JsString)
  | channel (channel : Channel)

def senderReading (data : MessageOut) (sender : Option LocalDidEntity) : SenderReading :=
  match sender with
  | none => .waiting (lit "no communication DID here records the sender")
  | some sender =>
    if sender.conflict then .fault (lit "the sender entity is in conflict: " ++ sender.fault)
    else
      match sender.created, canonicalRecipient inputs.outside data.recipientDid with
      | none, _ => .waiting (lit "the sender entity has no consistent creation here")
      | some _, none => .fault (lit "the recipient is no valid did:peer:4")
      | some created, some recipient =>
        if recipient = created.did then .fault (lit "the recipient is the sender's own DID")
        else .channel (channelOf created.did recipient)

def PRODUCED_AND_SKIPPED : JsString :=
  lit "both an output and a skip are recorded for the operation over the input"

/-- What a message's work is read from. -/
structure WorkInputs where
  outcome : Outcome
  waiting : Option JsString
  channel : Option Channel
  erased : Bool
  effect : EffectStatus
  preparations : List Preparation
  /-- A submission names a preparation that is not here. -/
  unresolved : Bool

/-- The preparations a transport call may carry. -/
def candidatesOf (preparations : List Preparation) : List Preparation :=
  preparations.filter fun preparation => preparation.status = .complete && !preparation.erased

/-- What stands in the way of a message none of whose preparations can be carried. -/
def blockedBy (preparations : List Preparation) : JsString :=
  let waiting := preparations.filterMap fun preparation =>
    match preparation.status with
    | .pending because => some because
    | _ => none
  let contradicting := preparations.filterMap fun preparation =>
    match preparation.status with
    | .conflict because => some (lit "the preparation contradicts the intent: " ++ because)
    | _ => none
  (waiting ++ contradicting).headD (lit "the envelope is erased")

/-- The work of a message whose outcome leaves some. -/
def workLeft (dids : DidFold) (continuity : Continuity) (w : WorkInputs) : Work :=
  if w.erased then .none (lit "erased")
  else
    match w.waiting, w.channel with
    | some because, _ => .none because
    | none, none => .none (lit "the sender's channel is not known")
    | none, some channel =>
      match senderGate dids continuity channel with
      | some because => .none because
      | none =>
        if w.effect ≠ .complete then .none w.effect.because
        else if w.unresolved then .none (lit "a submission names a preparation that is not here")
        else if w.preparations.isEmpty then .prepare
        else if candidatesOf w.preparations ≠ [] then .dispatch (candidatesOf w.preparations)
        else .none (blockedBy w.preparations)

def DeliveryFailureCode.text : DeliveryFailureCode → JsString
  | .expired => lit "expired"
  | .cancelled => lit "cancelled"

def workOf (dids : DidFold) (continuity : Continuity) (w : WorkInputs) : Work :=
  match w.outcome with
  | .conflict because => .none because
  | .submitted => .none (lit "submitted")
  | .terminal code => .none (lit "terminated: " ++ code.text)
  | _ => workLeft dids continuity w

/-- The records of one message beside its intents. -/
structure Records where
  preparations : List (VaultEvent MessagePrepared)
  submissions : List (VaultEvent DeliverySubmitted)
  failures : List (VaultEvent DeliveryFailed)
  acknowledgements : List (VaultEvent DeliveryAcknowledged)
  witnesses : List PlacedSource

/-- The keys a skip is recorded under. -/
abbrev Skips := OMap EffectKey (List Skip)

def outcomeOf (fault : Option JsString) (submitted : Bool) (terminal : Option Termination)
    (preparations : List Preparation) : Outcome :=
  match fault with
  | some because => .conflict because
  | none =>
    if submitted then .submitted
    else
      match terminal with
      | some termination => .terminal termination.event.data.code
      | none => if preparations.isEmpty then .queued else .prepared

def lateOf (data : Option MessageOut) (ackWitnesses : List PlacedSource) : Bool :=
  match data.bind fun data => data.expiresTime with
  | none => false
  | some expiresTime => !ackWitnesses.isEmpty && ackWitnesses.all fun source =>
      (EventStore.dateParse source.event.event.at_).any (expiresTime * 1000 ≤ ·)

def outboundOf (skips : Skips) (messageId : MessageId) (first : VaultEvent MessageOut)
    (rest : List (VaultEvent MessageOut)) (records : Records) : Outbound :=
  let events := first :: rest
  let intent := intentOf inputs.outside first rest
  let data := intent.data
  let sender := data.bind fun data => inputs.dids.entities.get? data.senderDidId
  let erased := inputs.erasures.has messageId
  let reading := data.map fun data => senderReading inputs data sender
  let channel := match reading with
    | some (.channel channel) => some channel
    | _ => none
  let waiting := match reading with
    | some (.waiting because) => some because
    | _ => none
  let faulted := match intent, reading with
    | .conflict because, _ => some because
    | _, some (.fault because) => some because
    | _, _ => none
  let preparations := records.preparations.map fun event => Preparation.mk event
    (preparationStatus inputs event.data data sender channel)
    (Vault.erased inputs.erasures messageId event.data.envelopeCid)
  let prepared := preparedOf preparations
  let submissions := records.submissions.map (submissionOf inputs.set preparations data)
  let submitted := submissions.any fun submission => submission.status = .complete
  let unresolved := submissions.any fun submission =>
    submission.preparation.isNone && submission.status.isPending
  let terminations := records.failures.map (terminationOf data)
  let terminal := terminations.find? fun termination => termination.invalid.isNone
  let effect : EffectStatus := match data with
    | none => .complete
    | some data =>
      if data.effect.any fun effect => skips.has effect.effectKey then
        .conflict PRODUCED_AND_SKIPPED
      else effectOfRecords inputs events channel
  let fault := faulted.or (if effect.isConflict then some effect.because else none)
  let ackWitnesses := match channel, prepared with
    | some channel, .complete => records.witnesses.filter fun source =>
        inputs.continuity.ackPath channel source.channel
    | _, _ => []
  let acknowledgements := records.acknowledgements.map fun event =>
    Acknowledgement.mk event (acknowledgementStatus inputs prepared ackWitnesses event.data)
  let outcome := outcomeOf fault submitted terminal preparations
  { messageId
    intents := events
    intent, sender, channel, preparations, submissions, submitted, terminations, terminal
    effect, ackWitnesses, acknowledgements
    acknowledged := !ackWitnesses.isEmpty
    late := lateOf data ackWitnesses
    erased
    outcome
    work := workOf inputs.dids inputs.continuity
      ⟨outcome, waiting, channel, erased, effect, preparations, unresolved⟩
    released := data.isSome && (submitted || terminal.isSome) }

end Messages

/-! ## The fold -/

section Fold

variable (O : Outside) (set : VaultEventSet) (dids : DidFold) (evidence : ChannelEvidence)
  (continuity : Continuity) (inbound : InboundFold) (erasures : Erasures)
  (resolutionChecks : Verdicts EvidenceCheck) (effectTypes : List JsString)

/-- The distinct messages naming each rotation, sorted. -/
def selectionsOf : OMap EventCid (List MessageId) :=
  (set.of messageOut).foldl (fun selections event =>
    match event.data.rotationEventCid with
    | none => selections
    | some rotationEventCid =>
      let selected := (selections.get? rotationEventCid).getD []
      if selected.contains event.data.messageId then selections
      else selections.set rotationEventCid (sorted (selected ++ [event.data.messageId])))
    OMap.empty

def sharedOf : Shared where
  outside := O
  set := set
  dids := dids
  evidence := evidence
  continuity := continuity
  inbound := inbound
  erasures := erasures
  resolutionChecks := resolutionChecks
  known := BUILT_IN_EFFECTS ++ effectTypes
  selections := selectionsOf set

def skipsOf (shared : Shared) : Skips :=
  OMap.groupBy ((set.of effectSkipped).map fun event => Skip.mk event (skipStatus shared event))
    (·.event.data.effectKey)

/-- The records of a message, each kind in canonical order. -/
def recordsOf (messageId : MessageId) : Records where
  preparations := ((OMap.groupBy (set.of messagePrepared) (·.data.messageId)).get? messageId).getD []
  submissions := ((OMap.groupBy (set.of deliverySubmitted) (·.data.messageId)).get? messageId).getD []
  failures := ((OMap.groupBy (set.of deliveryFailed) (·.data.messageId)).get? messageId).getD []
  acknowledgements :=
    ((OMap.groupBy (set.of deliveryAcknowledged) (·.data.messageId)).get? messageId).getD []
  witnesses := witnessesOf evidence inbound messageId

structure OutboundFold where
  /-- Every message ID an intent is recorded under. -/
  outbounds : OMap MessageId Outbound
  skips : Skips
  /-- The messages whose envelope contribution is released. -/
  released : List MessageId

/-- Every message, in the order its first intent is met. -/
def outboundsOf (shared : Shared) (skips : Skips) : List Outbound :=
  (OMap.groupBy (set.of messageOut) (·.data.messageId)).entries.filterMap fun group =>
    match group.2 with
    | [] => none
    | first :: rest =>
      some (outboundOf shared skips group.1 first rest (recordsOf set evidence inbound group.1))

def foldOutbound : OutboundFold :=
  let shared := sharedOf O set dids evidence continuity inbound erasures resolutionChecks effectTypes
  let skips := skipsOf set shared
  let outbounds := outboundsOf set evidence inbound shared skips
  { outbounds := OMap.index outbounds Outbound.messageId id
    skips
    released := (outbounds.filter (·.released)).map Outbound.messageId }

variable {set evidence inbound} {shared : Shared} {skips : Skips} {outbound : Outbound}
  {messageId : MessageId}

/-- A message is made of the intents recorded under its ID. -/
theorem mem_outboundsOf : outbound ∈ outboundsOf set evidence inbound shared skips ↔
    ∃ first rest, (set.of messageOut).filter (·.data.messageId = outbound.messageId) = first :: rest ∧
      outbound = outboundOf shared skips outbound.messageId first rest
        (recordsOf set evidence inbound outbound.messageId) := by
  rw [outboundsOf, List.mem_filterMap]
  constructor
  · intro ⟨group, hgroup, h⟩
    have hevents := OMap.get?_groupBy_some (OMap.mem_entries.mp hgroup)
    cases hlist : group.2 with
    | nil => rw [hlist] at h; cases h
    | cons first rest =>
      rw [hlist] at h
      cases h
      exact ⟨first, rest, hevents.symm.trans hlist, rfl⟩
  · intro ⟨first, rest, hevents, h⟩
    have hfirst : first ∈ (set.of messageOut).filter (·.data.messageId = outbound.messageId) := by
      rw [hevents]
      exact List.mem_cons_self
    obtain ⟨hfirst, hid⟩ := List.mem_filter.mp hfirst
    have hget : (OMap.groupBy (set.of messageOut) (·.data.messageId)).get? first.data.messageId =
      some _ := OMap.get?_groupBy hfirst
    rw [of_decide_eq_true hid, hevents] at hget
    exact ⟨_, OMap.mem_entries.mpr hget, congrArg some h.symm⟩

theorem messageId_inj {other : Outbound}
    (h : outbound ∈ outboundsOf set evidence inbound shared skips)
    (h' : other ∈ outboundsOf set evidence inbound shared skips)
    (hid : other.messageId = outbound.messageId) : other = outbound := by
  obtain ⟨first, rest, hevents, h⟩ := mem_outboundsOf.mp h
  obtain ⟨first', rest', hevents', h'⟩ := mem_outboundsOf.mp h'
  rw [hid, hevents] at hevents'
  cases hevents'
  rw [h, h', hid]

end Fold

section Lookup

variable {O : Outside} {set : VaultEventSet} {dids : DidFold} {evidence : ChannelEvidence}
  {continuity : Continuity} {inbound : InboundFold} {erasures : Erasures}
  {resolutionChecks : Verdicts EvidenceCheck} {effectTypes : List JsString} {messageId : MessageId}
  {outbound : Outbound}

/-- What the fold has under a message ID is what the intents and records of that ID make. -/
theorem foldOutbound_get? :
    (foldOutbound O set dids evidence continuity inbound erasures resolutionChecks
      effectTypes).outbounds.get? messageId = some outbound ↔
    ∃ first rest, (set.of messageOut).filter (·.data.messageId = messageId) = first :: rest ∧
      outbound = outboundOf
        (sharedOf O set dids evidence continuity inbound erasures resolutionChecks effectTypes)
        (foldOutbound O set dids evidence continuity inbound erasures resolutionChecks
          effectTypes).skips messageId first rest (recordsOf set evidence inbound messageId) := by
  constructor
  · intro h
    obtain ⟨found, hfound, hid, heq⟩ := OMap.get?_index_some h
    cases heq
    obtain ⟨first, rest, hevents, h⟩ := mem_outboundsOf.mp hfound
    rw [hid] at hevents h
    exact ⟨first, rest, hevents, h⟩
  · intro ⟨first, rest, hevents, h⟩
    have hid : outbound.messageId = messageId := by rw [h]; rfl
    subst hid
    have hmem := mem_outboundsOf.mpr ⟨first, rest, hevents, h⟩
    exact OMap.get?_index hmem fun other hother hsame => messageId_inj hmem hother hsame

/-- A message is released where the fold has it as released. -/
theorem mem_released {fold : OutboundFold}
    (hfold : fold = foldOutbound O set dids evidence continuity inbound erasures resolutionChecks
      effectTypes) (h : messageId ∈ fold.released) :
    ∃ outbound, fold.outbounds.get? messageId = some outbound ∧ outbound.released = true := by
  subst hfold
  obtain ⟨outbound, hmem, hid⟩ := List.mem_map.mp h
  obtain ⟨hmem, hreleased⟩ := List.mem_filter.mp hmem
  refine ⟨outbound, ?_, hreleased⟩
  rw [← hid]
  exact OMap.get?_index hmem fun other hother hsame => messageId_inj hmem hother hsame

end Lookup

end Estoc.Vault
