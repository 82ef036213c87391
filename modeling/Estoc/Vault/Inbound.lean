import Estoc.Vault.Continuity

/-!
# Admissions and inputs

An admission is the runtime's durable acceptance of one exact observation. It is effective
when its source stands as positive evidence on its own, which is read from the source's own
evidence alone. The observations of one message are the members of one input; only those an
effective admission names speak for its intent, and one of them that is a complete witness
establishes it.
-/

set_option linter.unusedSectionVars false

namespace Estoc.Vault

open Json (lit)
open Utf16 (JsString)

/-! ## Erasures -/

/-- The roots each message's erasures released. -/
abbrev Erasures := OMap MessageId (List Cid)

def foldErasures (set : VaultEventSet) : Erasures :=
  (set.of messageErased).foldl (fun erasures event =>
    erasures.set event.data.messageId
      (OMap.once ((erasures.get? event.data.messageId).getD [] ++ event.data.dropCids))) OMap.empty

def erased (erasures : Erasures) (messageId : MessageId) (root : Cid) : Bool :=
  ((erasures.get? messageId).getD []).contains root

/-! ## Admissions -/

/-- What one `message.admitted` establishes on its own. -/
inductive AdmissionStatus where
  | effective
  | pending (because : JsString)
  | invalid (because : JsString)
deriving DecidableEq

structure Admission where
  event : VaultEvent MessageAdmitted
  status : AdmissionStatus

/-- A source as the evidence an admission rests on. -/
inductive SourceReading where
  | refused (because : JsString)
  | missing (because : JsString)
  | positive

def readSource (source : Source) (evidence : ChannelEvidence) : SourceReading :=
  match source.status, (evidence.carriers.get? source.event.cid).map Carrier.proof with
  | .anonymous, _ => .refused (lit "the source is anonymous, in no channel")
  | .conflict because _, _ =>
    .refused (lit "the source's authentication is contradicted: " ++ because)
  | _, some (.invalid because) => .refused (lit "the source's proof is invalid: " ++ because)
  | _, some (.unsupported because) =>
    .refused (lit "the source's proof is unsupported: " ++ because)
  | .incomplete because _ _, _ =>
    .missing (lit "the source's authentication is incomplete: " ++ because)
  | .complete .., some .pendingProof => .missing (lit "the source's proof is not yet verified")
  | .complete .., _ => .positive

def admissionStatus (set : VaultEventSet) (evidence : ChannelEvidence)
    (event : VaultEvent MessageAdmitted) : AdmissionStatus :=
  match set.resolve event.data.sourceEventCid messageIn,
      evidence.sources.get? event.data.sourceEventCid with
  | .mismatched type, _ => .invalid (lit "the source it names is a " ++ type)
  | .present _, some source =>
    match readSource source evidence with
    | .refused because => .invalid because
    | .missing because => .pending because
    | .positive => .effective
  | _, _ => .pending (lit "the source it names is not here")

abbrev AdmissionFold := List Admission

def foldAdmissions (set : VaultEventSet) (evidence : ChannelEvidence) : AdmissionFold :=
  (set.of messageAdmitted).map fun event => ⟨event, admissionStatus set evidence event⟩

namespace AdmissionFold

/-- Every record naming the observation, in canonical order. -/
def of (admissions : AdmissionFold) (sourceEventCid : EventCid) : List Admission :=
  admissions.filter fun admission => admission.event.data.sourceEventCid = sourceEventCid

/-- Does an effective admission name the observation. -/
def admitted (admissions : AdmissionFold) (sourceEventCid : EventCid) : Bool :=
  (AdmissionFold.of admissions sourceEventCid).any fun admission => admission.status = .effective

end AdmissionFold

/-! ## Inputs -/

def EMPTY_MESSAGE_TYPE : JsString := lit "https://didcomm.org/empty/1.0/empty"
def PING_RESPONSE_TYPE : JsString := lit "https://didcomm.org/trust-ping/2.0/ping-response"
def PROBLEM_REPORT_TYPE : JsString := lit "https://didcomm.org/report-problem/2.0/problem-report"

/-- What an observation is to the protocols the vault speaks. -/
inductive InboundKind where
  | application
  | pureAck
  | empty
  | pingResponse
  | error
deriving DecidableEq

def InboundKind.text : InboundKind → JsString
  | .application => lit "application"
  | .pureAck => lit "pure-ack"
  | .empty => lit "empty"
  | .pingResponse => lit "ping-response"
  | .error => lit "error"

def kindOf (O : Outside) (data : MessageIn) : InboundKind :=
  if data.msgType = EMPTY_MESSAGE_TYPE then
    if data.bodyCid = O.EMPTY_CONTENT_CID ∧ data.attachmentCids = [] ∧ data.ack ≠ [] ∧
      data.pleaseAck = none then .pureAck else .empty
  else if data.msgType = PING_RESPONSE_TYPE then .pingResponse
  else if data.msgType = PROBLEM_REPORT_TYPE then .error
  else .application

/-- A source whose own authentication is complete, in its channel. -/
structure PlacedSource where
  event : VaultEvent MessageIn
  localDidId : DidId
  resolution : VaultEvent PeerResolved
  channel : Channel

def Source.placed (source : Source) : Option PlacedSource :=
  match source.status with
  | .complete localDidId resolution channel => some ⟨source.event, localDidId, resolution, channel⟩
  | _ => none

/-- One observation of an input whose own authentication is complete. -/
structure Member where
  source : PlacedSource
  /-- Its proof, if it brought one, supports a link. -/
  positive : Bool
  /-- An effective admission names it. -/
  admitted : Bool
  witness : Witness

inductive ExecutionStatus where
  | complete (intentCid : Cid) (kind : InboundKind) (firstWitness : Member)
  | pending (because : JsString) (intent : Option (Cid × InboundKind))
  | conflict (because : JsString)

structure Execution where
  id : ExecutionId
  messageId : MessageId
  channel : Channel
  wireMessageId : JsString
  members : List Member
  siblings : List Source
  /-- The positive members no admission names whose intent differs from the admitted one. -/
  contradicting : List Member
  erased : Bool
  status : ExecutionStatus

section Executions

variable (O : Outside) (evidence : ChannelEvidence) (continuity : Continuity)
  (admissions : AdmissionFold) (erasures : Erasures)

def memberOf (source : PlacedSource) : Member where
  source := source
  positive := evidence.positive source.event.cid
  admitted := AdmissionFold.admitted admissions source.event.cid
  witness := continuity.witness source.event.cid

/-- What the admitted members come to. -/
def executionStatus (admitted : List Member) : ExecutionStatus :=
  match OMap.once (admitted.map fun member => member.source.event.data.intentCid), admitted with
  | [], _ => .pending (lit "no observation of the input is admitted") none
  | [intentCid], first :: _ =>
    let kind := kindOf O first.source.event.data
    match admitted.find? fun member => member.witness = .complete with
    | some firstWitness => .complete intentCid kind firstWitness
    | none =>
      let waiting := (admitted.find? fun member => member.witness matches .pending _).getD first
      .pending (lit "no admitted observation is a complete witness: " ++ waiting.witness.because)
        (some (intentCid, kind))
  | intents, _ => .conflict (lit (toString intents.length) ++
      lit " intents are admitted for one input")

/-- The admitted intent, once there is one. -/
def ExecutionStatus.intentCid : ExecutionStatus → Option Cid
  | .complete intentCid _ _ => some intentCid
  | .pending _ intent => intent.map Prod.fst
  | .conflict _ => none

/-- The input of the observations of one message, the first of which places it. -/
def executionOf (messageId : MessageId) (first : PlacedSource) (rest : List PlacedSource)
    (siblings : List Source) : Execution :=
  let members := (first :: rest).map (memberOf evidence continuity admissions)
  let status := executionStatus O (members.filter (·.admitted))
  { id := executionId O.derive first.channel.peerDid first.channel.localDid
      first.event.data.wireMessageId
    messageId
    channel := first.channel
    wireMessageId := first.event.data.wireMessageId
    members
    siblings
    contradicting := members.filter fun member =>
      member.positive && !member.admitted &&
        status.intentCid.any (· ≠ member.source.event.data.intentCid)
    erased := erasures.has messageId
    status }

structure InboundFold where
  evidence : ChannelEvidence
  byMessage : OMap MessageId Execution

def byEvent (a b : Source) : Ordering := compareVaultEvents a.event b.event

def isSibling (source : Source) : Bool :=
  match source.status with
  | .incomplete .. => true
  | .conflict .. => true
  | _ => false

/-- The input the placed observations of one message make, with the siblings of theirs. -/
def executionIn (siblings : OMap MessageId (List Source)) (group : MessageId × List Source) :
    Option Execution :=
  match (Cmp.sortBy byEvent group.2).filterMap Source.placed with
  | [] => none
  | first :: rest => some (executionOf O evidence continuity admissions erasures group.1 first rest
      (Cmp.sortBy byEvent ((siblings.get? group.1).getD [])))

def foldInbound : InboundFold :=
  let observed := evidence.sources.values
  let members := OMap.groupBy (observed.filter fun source => source.placed.isSome)
    (·.event.data.messageId)
  let siblings := OMap.groupBy (observed.filter isSibling) (·.event.data.messageId)
  { evidence
    byMessage := OMap.index (members.entries.filterMap
      (executionIn O evidence continuity admissions erasures siblings)) Execution.messageId id }

end Executions

namespace InboundFold

variable (inbound : InboundFold)

def ofMessage (messageId : MessageId) : Option Execution := inbound.byMessage.get? messageId

/-- The execution of the input an observation claims, whether it is a member or a sibling of
it. -/
def ofSource (sourceEventCid : EventCid) : Option Execution :=
  (inbound.evidence.sources.get? sourceEventCid).bind fun source =>
    match source.status with
    | .anonymous => none
    | _ => inbound.byMessage.get? source.event.data.messageId

/-- The observation as a member of its input. -/
def memberOf (sourceEventCid : EventCid) : Option Member :=
  (inbound.ofSource sourceEventCid).bind fun execution =>
    execution.members.find? fun member => member.source.event.cid = sourceEventCid

end InboundFold

/-! ## What the fold finds -/

section Lookup

variable {O : Outside} {evidence : ChannelEvidence} {continuity : Continuity}
  {admissions : AdmissionFold} {erasures : Erasures} {messageId : MessageId}

/-- The observations of a message that are placed, in canonical order. -/
def placedIn (evidence : ChannelEvidence) (messageId : MessageId) : List PlacedSource :=
  (Cmp.sortBy byEvent ((evidence.sources.values.filter fun source => source.placed.isSome).filter
    (·.event.data.messageId = messageId))).filterMap Source.placed

/-- A placed observation is a member of its message's input. -/
theorem mem_placedIn {placed : PlacedSource} : placed ∈ placedIn evidence messageId ↔
    ∃ source ∈ evidence.sources.values, source.event.data.messageId = messageId ∧
      source.placed = some placed := by
  rw [placedIn, List.mem_filterMap]
  constructor
  · intro ⟨source, hsource, hplaced⟩
    obtain ⟨hsource, hid⟩ := List.mem_filter.mp (Cmp.mem_sortBy.mp hsource)
    exact ⟨source, List.mem_of_mem_filter hsource, of_decide_eq_true hid, hplaced⟩
  · intro ⟨source, hsource, hid, hplaced⟩
    refine ⟨source, Cmp.mem_sortBy.mpr (List.mem_filter.mpr ⟨List.mem_filter.mpr ⟨hsource, ?_⟩,
      decide_eq_true hid⟩), hplaced⟩
    rw [hplaced]
    rfl

/-- The observations of one message that are not placed. -/
def siblingsIn (evidence : ChannelEvidence) (messageId : MessageId) : List Source :=
  Cmp.sortBy byEvent (((OMap.groupBy (evidence.sources.values.filter isSibling)
    (·.event.data.messageId)).get? messageId).getD [])

theorem executionIn_eq_some {group : MessageId × List Source} {execution : Execution}
    (hgroup : group ∈ (OMap.groupBy (evidence.sources.values.filter fun source =>
      source.placed.isSome) (·.event.data.messageId)).entries) :
    executionIn O evidence continuity admissions erasures
      (OMap.groupBy (evidence.sources.values.filter isSibling) (·.event.data.messageId)) group =
      some execution ↔
    ∃ first rest, placedIn evidence group.1 = first :: rest ∧
      execution = executionOf O evidence continuity admissions erasures group.1 first rest
        (siblingsIn evidence group.1) := by
  have hplaced : (Cmp.sortBy byEvent group.2).filterMap Source.placed =
      placedIn evidence group.1 := by
    rw [OMap.get?_groupBy_some (OMap.mem_entries.mp hgroup)]
    rfl
  unfold executionIn
  rw [hplaced]
  cases placedIn evidence group.1 with
  | nil => simp
  | cons first rest => simp [siblingsIn, eq_comm]

/-- The input of a message is made of its placed observations. -/
theorem foldInbound_get? {execution : Execution} :
    (foldInbound O evidence continuity admissions erasures).byMessage.get? messageId =
      some execution ↔
    ∃ first rest, placedIn evidence messageId = first :: rest ∧
      execution = executionOf O evidence continuity admissions erasures messageId first rest
        (siblingsIn evidence messageId) := by
  constructor
  · intro h
    obtain ⟨found, hfound, hid, rfl⟩ := OMap.get?_index_some h
    obtain ⟨group, hgroup, hexecution⟩ := List.mem_filterMap.mp hfound
    obtain ⟨first, rest, hplaced, rfl⟩ := (executionIn_eq_some hgroup).mp hexecution
    subst hid
    exact ⟨first, rest, hplaced, rfl⟩
  · intro ⟨first, rest, hplaced, hexecution⟩
    have hfirst : first ∈ placedIn evidence messageId := by rw [hplaced]; exact List.mem_cons_self
    obtain ⟨source, hsource, hid, hsome⟩ := mem_placedIn.mp hfirst
    have hmem : source ∈ evidence.sources.values.filter fun source => source.placed.isSome :=
      List.mem_filter.mpr ⟨hsource, by rw [hsome]; rfl⟩
    have hget : (OMap.groupBy (evidence.sources.values.filter fun source => source.placed.isSome)
      (·.event.data.messageId)).get? source.event.data.messageId = some _ := OMap.get?_groupBy hmem
    have hgroup := OMap.mem_entries.mpr hget
    subst hid
    have hin := List.mem_filterMap.mpr
      ⟨_, hgroup, (executionIn_eq_some hgroup).mpr ⟨first, rest, hplaced, hexecution⟩⟩
    have hkey : execution.messageId = source.event.data.messageId := by rw [hexecution]; rfl
    rw [← hkey]
    refine OMap.get?_index hin fun other hother hsame => ?_
    obtain ⟨othergroup, hothergroup, hmake⟩ := List.mem_filterMap.mp hother
    obtain ⟨first', rest', hplaced', rfl⟩ := (executionIn_eq_some hothergroup).mp hmake
    have hsame : othergroup.1 = source.event.data.messageId := hsame.trans hkey
    rw [hsame] at hplaced' ⊢
    cases hplaced.symm.trans hplaced'
    rw [hexecution]

/-- An input is complete where its admitted members agree and one of them is a complete
witness. -/
theorem executionStatus_of_agree {admitted : List Member} {member : Member}
    (hmember : member ∈ admitted) (hwitness : member.witness = .complete)
    (hagree : ∀ other ∈ admitted,
      other.source.event.data.intentCid = member.source.event.data.intentCid) :
    ∃ kind firstWitness, executionStatus O admitted =
      .complete member.source.event.data.intentCid kind firstWitness := by
  have honce : OMap.once (admitted.map fun member => member.source.event.data.intentCid) =
      [member.source.event.data.intentCid] := by
    have hmem : ∀ cid ∈ OMap.once (admitted.map fun member => member.source.event.data.intentCid),
        cid = member.source.event.data.intentCid := by
      intro cid hcid
      obtain ⟨other, hother, rfl⟩ := List.mem_map.mp (OMap.mem_once.mp hcid)
      exact hagree other hother
    have hin : member.source.event.data.intentCid ∈
        OMap.once (admitted.map fun member => member.source.event.data.intentCid) :=
      OMap.mem_once.mpr (List.mem_map_of_mem hmember)
    have hnodup := OMap.nodup_once (admitted.map fun member => member.source.event.data.intentCid)
    revert hmem hin hnodup
    cases OMap.once (admitted.map fun member => member.source.event.data.intentCid) with
    | nil => intro _ hin; cases hin
    | cons cid rest =>
      intro hmem _ hnodup
      have hcid := hmem cid List.mem_cons_self
      cases rest with
      | nil => rw [hcid]
      | cons cid' rest =>
        have hcid' := hmem cid' (List.mem_cons_of_mem _ List.mem_cons_self)
        rw [hcid, hcid'] at hnodup
        exact absurd List.mem_cons_self (List.nodup_cons.mp hnodup).1
  obtain ⟨firstWitness, hfirst⟩ := Option.isSome_iff_exists.mp
    (List.find?_isSome (p := fun member : Member => decide (member.witness = .complete)) |>.mpr
      ⟨member, hmember, decide_eq_true hwitness⟩)
  unfold executionStatus
  rw [honce]
  cases admitted with
  | nil => cases hmember
  | cons first rest =>
    dsimp only
    rw [hfirst]
    exact ⟨_, firstWitness, rfl⟩

end Lookup

end Estoc.Vault
