import Estoc.Lib.Loop
import Estoc.Vault.Channels

/-!
# Continuity over the channel evidence

The evidence projected into facts, which carry their content alone, the model derived over
them, and the host's reading of that model beside the evidence's own verdicts: each
carrier's or decision's status, each source's standing as a witness, which channels take no
new work, the denials that cover a channel through the history, and whether a channel takes
new work now.
-/

set_option linter.unusedSectionVars false

namespace Estoc.Vault

open Json (lit)
open Utf16 (JsString)

/-- The continuity a carrier's proof, or a decision, has reached. -/
inductive ContinuityStatus where
  | notPresent
  | pendingProof
  | pendingHistory (because : JsString)
  | verified
  | unsupported (because : JsString)
  | invalid (because : JsString)
  | conflict (because : JsString)

/-- Whether a source is a complete witness. -/
inductive Witness where
  | complete
  | pending (because : JsString)
  | conflict (because : JsString)
  | invalid (because : JsString)
deriving DecidableEq

/-- What is said of a witness that is not complete. -/
def Witness.because : Witness → JsString
  | .complete => []
  | .pending because => because
  | .conflict because => because
  | .invalid because => because

/-- The fact each piece of channel evidence establishes, by its event. -/
def projectFacts (evidence : ChannelEvidence) : List (EventCid × ContinuityFact) :=
  evidence.sources.values.filterMap (fun source =>
    match source.status with
    | .complete _ _ channel =>
      match source.event.data.fromPrior with
      | none => some (source.event.cid, .peerObservation channel none)
      | some _ => ((evidence.carriers.get? source.event.cid).bind (·.fact)).map
          fun fact => (source.event.cid, fact)
    | _ => none) ++
  evidence.decisions.entries.filterMap fun entry =>
    match entry.2.status with
    | .candidate fact => some (entry.1, fact)
    | _ => none

structure Continuity where
  evidence : ChannelEvidence
  denials : List (VaultEvent ChannelBlocked)
  /-- The fact each event projects. -/
  index : OMap EventCid ContinuityFact
  model : ContinuityModel

def foldContinuity (O : Outside) (set : VaultEventSet) (evidence : ChannelEvidence) :
    Continuity :=
  let index := OMap.index (projectFacts evidence) Prod.fst Prod.snd
  ⟨evidence, set.of channelBlocked, index, O.deriveContinuity (OMap.once index.values)⟩

namespace Continuity

variable (continuity : Continuity)

def modelStatus (cid : EventCid) : FactStatus :=
  match continuity.index.get? cid with
  | some fact => continuity.model.status fact
  | none => .unknown

/-- The model's status of the fact an event projects, as the host reports it. -/
def factStatus (cid : EventCid) : ContinuityStatus :=
  match continuity.modelStatus cid with
  | .usable => .verified
  | .conflict because => .conflict because
  | .waiting because => .pendingHistory because
  | .unknown => .pendingHistory (lit "the fact is not projected")

def carrierStatus (cid : EventCid) (carrier : Carrier) : ContinuityStatus :=
  match carrier.proof, carrier.source.status with
  | .invalid because, _ => .invalid because
  | .unsupported because, _ => .unsupported because
  | _, .conflict because _ =>
    .invalid (lit "the carrier's own authentication is contradicted: " ++ because)
  | .pendingProof, _ => .pendingProof
  | .verified _, .incomplete because _ _ =>
    .pendingHistory (lit "the carrier's own authentication is incomplete: " ++ because)
  | .verified _, _ => continuity.factStatus cid

/-- A carrier's or a decision's status; a proof-free source has none. -/
def status (cid : EventCid) : ContinuityStatus :=
  match continuity.evidence.carriers.get? cid with
  | some carrier => continuity.carrierStatus cid carrier
  | none =>
    if continuity.evidence.sources.has cid then .notPresent
    else
      match (continuity.evidence.decisions.get? cid).map Decision.status with
      | none => .pendingHistory (lit "no carrier or decision here has this ID")
      | some (.pending because) => .pendingHistory because
      | some (.invalid because) => .invalid because
      | some (.conflict because) => .conflict because
      | some (.candidate _) => continuity.factStatus cid

/-- A proof-free receipt witnesses on its own authentication alone. -/
def witness (sourceEventCid : EventCid) : Witness :=
  match continuity.evidence.sources.get? sourceEventCid with
  | none => .pending (lit "the source is not here")
  | some source =>
    match source.status, (continuity.evidence.carriers.get? sourceEventCid).map Carrier.proof with
    | .anonymous, _ => .invalid (lit "the source is anonymous, in no pair")
    | .conflict because _, _ => .conflict because
    | _, some (.invalid because) => .invalid because
    | _, some (.unsupported because) => .invalid because
    | .incomplete because _ _, _ => .pending because
    | .complete .., some .pendingProof => .pending (lit "the proof is not yet verified")
    | .complete .., none => .complete
    | .complete .., some (.verified _) =>
      match continuity.modelStatus sourceEventCid with
      | .usable => .complete
      | .conflict because => .conflict because
      | .waiting because => .conflict because
      | .unknown => .conflict (lit "the observation is unknown")

theorem witness_of_proof_free {cid : EventCid} {source : Source} {didId : DidId}
    {resolution : VaultEvent PeerResolved} {channel : Channel}
    (hsource : continuity.evidence.sources.get? cid = some source)
    (hstatus : source.status = .complete didId resolution channel)
    (hcarrier : continuity.evidence.carriers.get? cid = none) :
    continuity.witness cid = .complete := by
  unfold witness
  rw [hsource]
  simp only [hstatus, hcarrier, Option.map_none]

/-- Does a conflict reach the channel or what lies ahead of it. -/
def conflicted (channel : Channel) : Bool := continuity.model.head channel matches .conflict

/-- Has the peer replaced its DID in the channel's context. -/
def superseded (channel : Channel) : Bool :=
  (continuity.model.changes channel .peer).any fun change => change matches .rotate _

/-- The unique usable channel forward replacements lead to. -/
def head (channel : Channel) : Option Channel :=
  match continuity.model.head channel with
  | .head head => some head
  | .noEvidence => some channel
  | _ => none

/-- May a carrier acknowledge an outbound: the same channel or a usable role-preserving
path. -/
def ackPath (outbound carrier : Channel) : Bool :=
  sameChannel outbound carrier || continuity.model.path outbound carrier matches .path

/-- One channel off the stack: what its links lead to that was not reached yet goes on. -/
def walkStep (links : List PositiveLink) (walk : List Channel × List Channel) :
    Option (List Channel × List Channel) :=
  match walk.1 with
  | [] => none
  | current :: frontier =>
    let ahead := OMap.once ((links.filter (·.from_ = current)).map (·.to_))
    let fresh := ahead.filter (· ∉ walk.2)
    some (fresh.reverse ++ frontier, walk.2 ++ fresh)

/-- Every channel the positive history leads forward to from the pair, its own included. -/
def successorsOf (pair : Channel) : List Channel :=
  let links := (continuity.model.history pair).links
  (Loop.run (walkStep links) (links.length + 1) ([pair], [pair])).2

/-- The denials that cover the channel: on the pair itself, or on a pair the history makes it
succeed when that denial includes successors. -/
def blocked (channel : Channel) : List (VaultEvent ChannelBlocked) :=
  continuity.denials.filter fun denial =>
    let pair := channelOf denial.data.localDid denial.data.peerDid
    sameChannel pair channel ||
      (denial.data.includeSuccessors && (continuity.successorsOf pair).contains channel)

def sameLocal (channel : Channel) : List Channel := (continuity.model.history channel).sameLocal

/-- Every decision rotating away from the channel's local DID anywhere in its same-local
context. -/
def decisionsIn (channel : Channel) : List Decision :=
  continuity.evidence.decisions.values.filter fun decision =>
    match decision.channel with
    | some pair => pair.localDid == channel.localDid && (continuity.sameLocal channel).contains pair
    | none => false

end Continuity

/-! ## The send gate -/

/-- What current policy holds against the pair itself. -/
def channelPolicy (continuity : Continuity) (channel : Channel) : Option JsString :=
  if continuity.blocked channel ≠ [] then some (lit "the channel is denied")
  else if continuity.conflicted channel then some (lit "the channel's continuity is in conflict")
  else if continuity.superseded channel then some (lit "the peer has replaced its DID")
  else none

/-- Whether a channel takes new work now; the text is why it is closed. -/
def senderGate (dids : DidFold) (continuity : Continuity) (channel : Channel) : Option JsString :=
  match (dids.entityOfDid channel.localDid).bind dids.entities.get? with
  | none => some (lit "the local DID is not one of ours")
  | some entity =>
    if !entity.live then
      some (lit "the local DID cannot send: " ++
        (entity.faults.head?.getD (lit "retired: " ++ entity.retired.getD [])))
    else
      match channelPolicy continuity channel, continuity.head channel with
      | some denied, _ => some denied
      | none, none => some (lit "a rotation of the local DID here waits for its evidence")
      | none, some head =>
        if (continuity.decisionsIn channel).any fun decision => decision.status matches .pending _ then
          some (lit "a rotation of the local DID here waits for its evidence")
        else if !sameChannel head channel then
          some (lit "the local DID is replaced here by " ++ head.localDid)
        else none

end Estoc.Vault
