import Estoc.Vault.Dids

/-!
# The channel evidence

What each event establishes on its own, apart from the continuity derived over it: a source
is one `message.in` read against the local entity and the resolution it names, a carrier a
source that brought a proof, a decision a `did.rotationSelected` checked as far as its own
fields and its source allow. Whatever contradicts an observation does so for good, so each
contradiction is looked for as soon as what it needs is here, before any absence.
-/

set_option linter.unusedSectionVars false

namespace Estoc.Vault

open Json (lit)
open Utf16 (JsString)
open Checked (refuse)

/-- The verdict on one piece of evidence; none while what it needs is not here. -/
inductive EvidenceCheck where
  | verified
  | invalid
deriving DecidableEq

/-- The verdict on a proof reached under its issuer's document. -/
inductive ProofCheck where
  | verified (proof : VerifiedFromPrior)
  | invalid (because : JsString)
deriving DecidableEq

/-- The verdicts a fold cannot reach on its own. -/
structure VaultChecks where
  mediationKeys : Verdicts KeyCheck
  didKeys : Verdicts KeyCheck
  resolutionChecks : Verdicts EvidenceCheck
  proofChecks : Verdicts ProofCheck

/-! ## Sources -/

/-- Complete evidence places an observation in its channel; missing evidence may still
arrive; evidence that contradicts it is a conflict for good and places it in none. -/
inductive SourceStatus where
  | complete (localDidId : DidId) (resolution : VaultEvent PeerResolved) (channel : Channel)
  | incomplete (because : JsString) (resolution : Option (VaultEvent PeerResolved))
      (channel : Option Channel)
  | conflict (because : JsString) (resolution : Option (VaultEvent PeerResolved))
  | anonymous

structure Source where
  event : VaultEvent MessageIn
  /-- The entity the local key name derives from, whatever its state. -/
  localDidId : Option DidId
  status : SourceStatus

namespace Source

def resolution (source : Source) : Option (VaultEvent PeerResolved) :=
  match source.status with
  | .complete _ resolution _ => some resolution
  | .incomplete _ resolution _ => resolution
  | .conflict _ resolution => resolution
  | .anonymous => none

/-- The actual pair, once the local endpoint is known. -/
def channel (source : Source) : Option Channel :=
  match source.status with
  | .complete _ _ channel => some channel
  | .incomplete _ _ channel => channel
  | _ => none

end Source

section Sources

variable (O : Outside) (set : VaultEventSet) (resolutionChecks : Verdicts EvidenceCheck)

/-- The curve of the entity's own key-agreement key; none while its document does not
read. -/
def keyAgreementTypeOf (entity : LocalDidEntity) : Option KeyType :=
  match entity.resolution, entity.methodIds.keyAgreement with
  | some resolution, id :: _ =>
    (O.methodPublicKey resolution.document id >>= O.decodePublicKey).toOption
  | _, _ => none

/-- What the local entity says of an observation. -/
structure LocalReading where
  channel : Option Channel
  keyType : Option KeyType
  missing : List JsString

/-- The observation against the local entity; an error is the contradiction. -/
def readLocal (data : MessageIn) (peer : ResolvedPeer) (entity : Option LocalDidEntity) :
    Except JsString LocalReading :=
  match entity with
  | none => .ok ⟨none, none, [lit "no communication DID here derives the local key"]⟩
  | some entity =>
    if entity.conflict then .error (lit "the local entity is in conflict: " ++ entity.fault)
    else if entity.keyNames.keyAgreement ≠ data.localKeyName then
      .error (lit "the local key is not the entity's key-agreement key")
    else
      match entity.created with
      | none => .ok ⟨none, none, [lit "the local entity has no creation here"]⟩
      | some created =>
        let expected := inboundMessageId O.derive peer.did created.did data.wireMessageId
        if created.did = peer.did then .error (lit "the sender is the recipient")
        else if data.messageId ≠ expected then
          .error (lit "the message ID is not the one the endpoints and wire ID derive, " ++ expected)
        else
          .ok ⟨some (channelOf created.did peer.did), keyAgreementTypeOf O entity,
            if entity.identity = none then
              [lit "the local entity's keys are not yet checked against the seed"]
            else []⟩

/-- The observation against the resolution it names, once that is here. -/
def checkResolution (data : MessageIn) (peer : ResolvedPeer) (localKeyType : Option KeyType)
    (resolution : VaultEvent PeerResolved) : Except JsString (List JsString) := do
  refuse (resolution.data.localKeyName ≠ data.localKeyName ∨ resolution.data.did ≠ peer.did ∨
    resolution.data.presentedDid ≠ peer.presentedDid)
    (lit "the resolution it names is not of this sender at this key")
  let peerKey ← O.agreementKey resolution.data.peerPublicKey
  let check := resolutionChecks resolution.cid
  refuse (check = some .invalid) (lit "the resolution's snapshot is not its document's")
  refuse (localKeyType.isSome ∧ localKeyType ≠ some peerKey) (lit "the peer key is " ++
    peerKey.text ++ lit " and the entity's key-agreement key " ++
    ((localKeyType.map KeyType.text).getD []) ++ lit ": no key is agreed across curves")
  pure (if check = none then [lit "the resolution's document is not here"] else [])

def readResolution (data : MessageIn) (peer : ResolvedPeer) (localKeyType : Option KeyType) :
    Option (VaultEvent PeerResolved) × Except JsString (List JsString) :=
  match set.resolve peer.peerResolutionEventCid peerResolved with
  | .missing => (none, .ok [lit "the resolution it names is not here"])
  | .mismatched type => (none, .error (lit "the resolution it names is a " ++ type))
  | .present resolution =>
    (some resolution, checkResolution O resolutionChecks data peer localKeyType resolution)

/-- What the two readings come to. -/
def placed (localDidId : Option DidId) (here : LocalReading)
    (resolution : Option (VaultEvent PeerResolved)) (missing : List JsString) : SourceStatus :=
  match here.missing ++ missing, localDidId, resolution, here.channel with
  | [], some localDidId, some resolution, some channel => .complete localDidId resolution channel
  | missing, _, resolution, channel => .incomplete (missing.headD []) resolution channel

def sourceStatus (data : MessageIn) (localDidId : Option DidId) (entity : Option LocalDidEntity) :
    SourceStatus :=
  match data.peer with
  | none => .anonymous
  | some peer =>
    match readLocal O data peer entity with
    | .error because => .conflict because none
    | .ok here =>
      match readResolution O set resolutionChecks data peer here.keyType with
      | (resolution, .error because) => .conflict because resolution
      | (resolution, .ok missing) => placed localDidId here resolution missing

def sourceOf (dids : DidFold) (event : VaultEvent MessageIn) : Source :=
  let localDidId := dids.entityOfKey event.data.localKeyName
  { event, localDidId
    status := sourceStatus O set resolutionChecks event.data localDidId
      (localDidId.bind dids.entities.get?) }

def foldSources (dids : DidFold) : OMap EventCid Source :=
  OMap.index (set.of messageIn) VaultEvent.cid (sourceOf O set resolutionChecks dids)

end Sources

/-! ## Carriers -/

/-- What a carrier's proof establishes on its own. -/
inductive Proof where
  | invalid (because : JsString)
  | unsupported (because : JsString)
  | pendingProof
  | verified (proof : VerifiedFromPrior)

structure Carrier where
  source : Source
  proof : Proof
  /-- None until the proof is verified and bound and the source placed. -/
  fact : Option ContinuityFact

def factOfBinding : BoundChange → ContinuityFact
  | .rotate recipient issuer successor => .peerObservation ⟨recipient, successor⟩ (some issuer)
  | .ending recipient issuer => .peerEnding ⟨recipient, issuer⟩

section Carriers

variable (O : Outside) (proofChecks : Verdicts ProofCheck)

def carrierOf (source : Source) (jwt : JsString) (sender : Did) (check : Option ProofCheck) :
    Proof × Option ContinuityFact :=
  match O.precheckFromPrior jwt (some sender) with
  | .error because => (.invalid because, none)
  | .ok claims =>
    if claims.sub = none then
      (.unsupported (lit ("an ending is not applied: this vault retains it and ends no " ++
        "relationship by it")), none)
    else if source.channel.map (·.localDid) = some (canonicalDid claims.iss) then
      (.invalid (lit "the predecessor is the local DID"), none)
    else
      match check with
      | none => (.pendingProof, none)
      | some (.invalid because) => (.invalid because, none)
      | some (.verified proof) =>
        match source.status with
        | .complete _ _ channel =>
          match bindFromPrior O proof ⟨jwt, channel.localDid, sender⟩ with
          | .ok change => (.verified proof, some (factOfBinding change))
          | .error because => (.invalid because, none)
        | _ => (.verified proof, none)

/-- The carrier a source is, where it brought a proof. -/
def carried (source : Source) : Option Carrier :=
  match source.event.data.fromPrior, source.event.data.peer with
  | some jwt, some peer =>
    let read := carrierOf O source jwt peer.presentedDid (proofChecks source.event.cid)
    some ⟨source, read.1, read.2⟩
  | _, _ => none

/-- Each proof read against its own carrier alone. -/
def foldCarriers (sources : OMap EventCid Source) : OMap EventCid Carrier :=
  OMap.index (sources.values.filterMap (carried O proofChecks)) (·.source.event.cid) id

end Carriers

/-! ## Decisions -/

inductive DecisionStatus where
  | invalid (because : JsString)
  | conflict (because : JsString)
  | pending (because : JsString)
  | candidate (fact : ContinuityFact)

structure Decision where
  event : VaultEvent RotationSelected
  /-- The pair the decision rotates away from, once its predecessor entity reads. -/
  channel : Option Channel
  status : DecisionStatus

section Decisions

variable (O : Outside) (set : VaultEventSet) (dids : DidFold) (sources : OMap EventCid Source)
  (carriers : OMap EventCid Carrier) (proofChecks : Verdicts ProofCheck)

/-- An entity's creation, with what is still missing of it. -/
def creationFor (entity : Option LocalDidEntity) (role : JsString) :
    Except DecisionStatus (Option DidCreated × List JsString) :=
  match entity with
  | none => .ok (none, [lit "the " ++ role ++ lit " entity has no consistent creation here"])
  | some entity =>
    if entity.conflict then
      .error (.conflict (lit "the " ++ role ++ lit " entity is in conflict: " ++ entity.fault))
    else
      match entity.created with
      | none => .ok (none, [lit "the " ++ role ++ lit " entity has no consistent creation here"])
      | some created => .ok (some created, if entity.identity = none then
          [lit "the " ++ role ++ lit " entity's keys are not yet checked against the seed"] else [])

/-- The proof a decision froze, held to the two entities' exact long forms. -/
def checkFrozen (data : RotationSelected) (predecessor successor : Option DidCreated)
    (check : Option ProofCheck) : Except DecisionStatus (List JsString) := do
  let claims ← (O.precheckFromPrior data.fromPrior none).mapError DecisionStatus.invalid
  refuse (claims.sub = none) (.invalid (lit "the proof is an ending, not a rotation"))
  refuse (predecessor.isSome ∧ predecessor.map (·.longFormDid) ≠ some claims.iss)
    (.invalid (lit "the proof's iss is not the predecessor's long form"))
  refuse (successor.isSome ∧ successor.map (·.longFormDid) ≠ claims.sub)
    (.invalid (lit "the proof's sub is not the successor's long form"))
  match check with
  | some (.invalid because) => .error (.invalid because)
  | none => pure [lit "the proof is not yet checked"]
  | some (.verified _) => pure []

def Proof.refused : Proof → Option JsString
  | .invalid because => some (lit "invalid: " ++ because)
  | .unsupported because => some (lit "unsupported: " ++ because)
  | _ => none

def Proof.isPending : Proof → Bool
  | .pendingProof => true
  | _ => false

/-- The source a decision names. -/
def checkDecisionSource (data : RotationSelected) : Except DecisionStatus (List JsString) :=
  match data.sourceEventCid with
  | none => .ok []
  | some sourceEventCid =>
    match set.resolve sourceEventCid messageIn, sources.get? sourceEventCid with
    | .mismatched type, _ => .error (.conflict (lit "the source it names is a " ++ type))
    | .present _, some source => do
      refuse (source.status matches .anonymous)
        (.conflict (lit "the source is anonymous, in no pair"))
      refuse (source.event.data.peer.map (·.did) ≠ some data.peerDid)
        (.conflict (lit "the source is not from the peer the decision rotates away from"))
      refuse (source.event.data.localKeyName ≠ didKeyName data.fromDidId .keyAgreement)
        (.conflict (lit "the source is not at the predecessor's key-agreement key"))
      let proof := (carriers.get? sourceEventCid).map (·.proof)
      match source.status, proof.bind Proof.refused with
      | .conflict because _, _ =>
        .error (.conflict (lit "the source's authentication is in conflict: " ++ because))
      | _, some refused => .error (.conflict (lit "the source's proof is " ++ refused))
      | status, none =>
        pure ((match status with
          | .incomplete because _ _ =>
            [lit "the source's authentication is incomplete: " ++ because]
          | _ => []) ++
          (if (proof.map Proof.isPending).getD false then
            [lit "the source's proof is not yet verified"] else []))
    | _, _ => .ok [lit "the source it names is not here"]

/-- The checks of a decision in the order they contradict it, with what is missing. -/
def decisionReading (event : VaultEvent RotationSelected) (from_ to_ : Option LocalDidEntity)
    (channel : Option Channel) : Except DecisionStatus (Option DidCreated × List JsString) := do
  let data := event.data
  let (predecessor, waiting) ← creationFor from_ (lit "predecessor")
  let (successor, waiting') ← creationFor to_ (lit "successor")
  refuse (predecessor.isSome ∧ channel = none)
    (.invalid (lit "the peer is the predecessor's own DID"))
  refuse (successor.map (·.did) = some data.peerDid)
    (.invalid (lit "the successor is the peer's DID"))
  refuse (successor.isSome ∧ predecessor.map (·.did) = successor.map (·.did))
    (.invalid (lit "the successor is the predecessor's DID"))
  let unchecked ← checkFrozen O data predecessor successor (proofChecks event.cid)
  let unplaced ← checkDecisionSource set sources carriers data
  pure (successor, waiting ++ waiting' ++ unchecked ++ unplaced)

def decisionStatus (event : VaultEvent RotationSelected) (from_ to_ : Option LocalDidEntity)
    (channel : Option Channel) : DecisionStatus :=
  match decisionReading O set sources carriers proofChecks event from_ to_ channel with
  | .error refused => refused
  | .ok (some successor, []) =>
    match channel with
    | some channel => .candidate (.localDecision channel (.rotate successor.did))
    | none => .pending []
  | .ok (_, missing) => .pending (missing.headD [])

/-- The pair a decision rotates away from. -/
def decisionChannel (data : RotationSelected) (from_ : Option LocalDidEntity) : Option Channel :=
  from_.bind fun entity =>
    entity.created.bind fun created =>
      if entity.conflict ∨ created.did = data.peerDid then none
      else some (channelOf created.did data.peerDid)

def foldDecisions : OMap EventCid Decision :=
  OMap.index (set.of rotationSelected) VaultEvent.cid fun event =>
    let from_ := dids.entities.get? event.data.fromDidId
    let to_ := dids.entities.get? event.data.toDidId
    let channel := decisionChannel event.data from_
    ⟨event, channel,
      decisionStatus O set sources carriers proofChecks event from_ to_ channel⟩

end Decisions

structure ChannelEvidence where
  sources : OMap EventCid Source
  /-- Every source that brought a proof, by its event. -/
  carriers : OMap EventCid Carrier
  decisions : OMap EventCid Decision

/-- Does an observation stand as a peer observation: it is placed, and any proof it brought
is verified and bound. -/
def ChannelEvidence.positive (evidence : ChannelEvidence) (id : EventCid) : Bool :=
  match evidence.sources.get? id with
  | some source =>
    (source.status matches .complete ..) &&
      (source.event.data.fromPrior.isNone ||
        ((evidence.carriers.get? id).bind (·.fact)).isSome)
  | none => false

def foldChannelEvidence (O : Outside) (set : VaultEventSet) (dids : DidFold)
    (checks : VaultChecks) : ChannelEvidence :=
  let sources := foldSources O set checks.resolutionChecks dids
  let carriers := foldCarriers O checks.proofChecks sources
  ⟨sources, carriers, foldDecisions O set dids sources carriers checks.proofChecks⟩

/-! ## What the evidence finds -/

section Lookup

variable {O : Outside} {set : VaultEventSet} {dids : DidFold}
  {resolutionChecks : Verdicts EvidenceCheck} {proofChecks : Verdicts ProofCheck} {cid : EventCid}
  {source : Source}

/-- The source under a CID is the observation of that CID, read. -/
theorem foldSources_get? : (foldSources O set resolutionChecks dids).get? cid = some source ↔
    ∃ event ∈ set.of messageIn, event.cid = cid ∧
      source = sourceOf O set resolutionChecks dids event := by
  constructor
  · intro h
    obtain ⟨event, hevent, hcid, hsource⟩ := OMap.get?_index_some h
    exact ⟨event, hevent, hcid, hsource.symm⟩
  · intro ⟨event, hevent, hcid, hsource⟩
    subst hcid
    subst hsource
    refine OMap.get?_index hevent fun other hother hsame => ?_
    rw [VaultEventSet.of_inj hother hevent hsame]

theorem foldSources_cid (h : (foldSources O set resolutionChecks dids).get? cid = some source) :
    source.event.cid = cid := by
  obtain ⟨event, -, hcid, rfl⟩ := foldSources_get?.mp h
  exact hcid

theorem foldDecisions_cid {sources : OMap EventCid Source} {carriers : OMap EventCid Carrier}
    {decision : Decision}
    (h : (foldDecisions O set dids sources carriers proofChecks).get? cid = some decision) :
    decision.event.cid = cid := by
  obtain ⟨event, -, hcid, rfl⟩ := OMap.get?_index_some h
  exact hcid

theorem carried_source {carrier : Carrier} (h : carried O proofChecks source = some carrier) :
    carrier.source = source := by
  unfold carried at h
  split at h
  · cases h
    rfl
  · cases h

/-- The carrier under a CID is what the source under it carried. -/
theorem foldCarriers_get?
    (h : (foldSources O set resolutionChecks dids).get? cid = some source) :
    (foldCarriers O proofChecks (foldSources O set resolutionChecks dids)).get? cid =
      carried O proofChecks source := by
  have hcid := foldSources_cid h
  -- a carrier of this CID is of the source of this CID
  have hwalk : ∀ carrier ∈ (foldSources O set resolutionChecks dids).values.filterMap
      (carried O proofChecks), carrier.source.event.cid = cid →
      carried O proofChecks source = some carrier := by
    intro carrier hcarrier hcarriercid
    obtain ⟨other, hother, hcarried⟩ := List.mem_filterMap.mp hcarrier
    obtain ⟨key, hkey⟩ := OMap.mem_values.mp hother
    have hsame : key = cid := by
      rw [← foldSources_cid hkey, ← carried_source hcarried]
      exact hcarriercid
    subst hsame
    cases hkey.symm.trans h
    exact hcarried
  cases hcarried : carried O proofChecks source with
  | none =>
    refine OMap.get?_index_of_not fun carrier hcarrier hcarriercid => ?_
    cases hcarried.symm.trans (hwalk carrier hcarrier hcarriercid)
  | some carrier =>
    have hmem := List.mem_filterMap.mpr ⟨source, OMap.mem_values.mpr ⟨cid, h⟩, hcarried⟩
    have hkey : carrier.source.event.cid = cid := by rw [carried_source hcarried]; exact hcid
    rw [← hkey]
    refine OMap.get?_index hmem fun other hother hsame => ?_
    exact Option.some.inj ((hwalk other hother (hsame.trans hkey)).symm.trans hcarried)

end Lookup

end Estoc.Vault
