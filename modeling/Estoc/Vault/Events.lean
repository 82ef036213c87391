import Estoc.EventStore.Event
import Estoc.Lib.Checked
import Estoc.Lib.OMap

/-!
# The events of a vault

The payload of each event type that a fold reads, and the set of events a fold is over:
every event once, by CID, in whatever order it arrived. An event of a type that is not
known, and one whose payload does not read, are kept for the roots they hold. A fold asks
for the events of one type, in canonical order, and for what a reference points at.
-/

set_option linter.unusedSectionVars false

namespace Estoc.Vault

open Json (lit)
open Utf16 (JsString)
open Estoc.EventStore (Event)

abbrev Cid := JsString
abbrev EventCid := JsString
abbrev Did := JsString
abbrev DidUrl := JsString
abbrev DidId := JsString
abbrev MediationId := JsString
abbrev MessageId := JsString
abbrev ExecutionId := JsString
abbrev EffectKey := JsString
abbrev KeyName := JsString
abbrev PublicKey := JsString

/-! ## Payloads -/

/-- How a DID came to be, fixed at its creation. -/
inductive DidGeneration where
  | entry (profile : JsString)
  | start (profile : JsString) (predecessor binding : Did)
  | next_ (profile : JsString) (predecessor : Did)
deriving DecidableEq

structure DidCreated where
  didId : DidId
  did : Did
  longFormDid : Did
  generation : DidGeneration
deriving DecidableEq

structure DidDisclosed where
  didId : DidId
deriving DecidableEq

structure DidRetired where
  didId : DidId
  because : JsString
deriving DecidableEq

structure PeerResolved where
  localKeyName : KeyName
  peerPublicKey : PublicKey
  presentedDid : Did
  did : Did
  documentCid : Cid
deriving DecidableEq

/-- A mediation's own identity toward its mediator. -/
structure Me where
  keyName : KeyName
  did : Did
deriving DecidableEq

structure MediationCreated where
  mediationId : MediationId
  mediatorDid : Did
  me : Me
deriving DecidableEq

structure MediationGranted where
  mediationId : MediationId
  routingDid : Did
deriving DecidableEq

structure MediationSelected where
  mediationId : MediationId
deriving DecidableEq

structure MediationRetired where
  mediationId : MediationId
  because : JsString
deriving DecidableEq

structure MessageAdmitted where
  sourceEventCid : EventCid
deriving DecidableEq

structure RotationSelected where
  fromDidId : DidId
  peerDid : Did
  toDidId : DidId
  sourceEventCid : Option EventCid
  fromPrior : JsString
deriving DecidableEq

structure ChannelBlocked where
  localDid : Did
  peerDid : Did
  includeSuccessors : Bool
deriving DecidableEq

/-- The control headers, and what of a message is stored. -/
structure Content where
  msgType : JsString
  thid : Option JsString
  pthid : Option JsString
  createdTime : Option Int
  expiresTime : Option Int
  pleaseAck : Option (List JsString)
  ack : List JsString
  headers : List (JsString × Json)
  bodyCid : Cid
  attachmentCids : List Cid
  intentCid : Cid

/-- What an automatic message derives from: the tuple, its key, and the observation. -/
structure AutomaticEffect where
  executionId : ExecutionId
  effectType : JsString
  effectKey : EffectKey
  sourceEventCid : EventCid
deriving DecidableEq

structure MessageOut extends Content where
  messageId : MessageId
  senderDidId : DidId
  recipientDid : Did
  effect : Option AutomaticEffect
  rotationEventCid : Option EventCid

/-- Who an observation is from: the resolution it rests on, and the DID in both spellings. -/
structure ResolvedPeer where
  peerResolutionEventCid : EventCid
  presentedDid : Did
  did : Did
deriving DecidableEq

structure MessageIn extends Content where
  messageId : MessageId
  wireMessageId : JsString
  localKeyName : KeyName
  peer : Option ResolvedPeer
  fromPrior : Option JsString

structure MessagePrepared where
  messageId : MessageId
  senderDidId : DidId
  localKeyName : KeyName
  recipientDid : Did
  peerResolutionEventCid : EventCid
  intentCid : Cid
  envelopeCid : Cid
deriving DecidableEq

structure DeliverySubmitted where
  messageId : MessageId
  preparationEventCid : EventCid
deriving DecidableEq

inductive DeliveryFailureCode where
  | expired
  | cancelled
deriving DecidableEq

structure DeliveryFailed where
  messageId : MessageId
  code : DeliveryFailureCode
deriving DecidableEq

structure DeliveryAcknowledged where
  messageId : MessageId
  localKeyName : KeyName
  peerPublicKey : PublicKey
  ackMessageId : MessageId
  ackWireMessageId : JsString
deriving DecidableEq

structure EffectSkipped extends AutomaticEffect where
  code : JsString
deriving DecidableEq

structure MessageErased where
  messageId : MessageId
  dropCids : List Cid
  because : JsString
deriving DecidableEq

/-- The payload of an event, by its type. -/
inductive VaultData where
  | didCreated (data : DidCreated)
  | didDisclosed (data : DidDisclosed)
  | didRetired (data : DidRetired)
  | peerResolved (data : PeerResolved)
  | mediationCreated (data : MediationCreated)
  | mediationGranted (data : MediationGranted)
  | mediationSelected (data : MediationSelected)
  | mediationRetired (data : MediationRetired)
  | messageAdmitted (data : MessageAdmitted)
  | rotationSelected (data : RotationSelected)
  | channelBlocked (data : ChannelBlocked)
  | messageOut (data : MessageOut)
  | messageIn (data : MessageIn)
  | messagePrepared (data : MessagePrepared)
  | deliverySubmitted (data : DeliverySubmitted)
  | deliveryFailed (data : DeliveryFailed)
  | deliveryAcknowledged (data : DeliveryAcknowledged)
  | effectSkipped (data : EffectSkipped)
  | messageErased (data : MessageErased)
  /-- A type whose payload no fold here reads. -/
  | other

/-- The types of this version. -/
def VAULT_EVENT_TYPES : List JsString :=
  [lit "identity.label", lit "peer.resolved", lit "mediation.created", lit "mediation.granted",
    lit "mediation.selected", lit "mediation.retired", lit "replica.created", lit "did.created",
    lit "did.disclosed", lit "did.retired", lit "message.admitted", lit "did.rotationSelected",
    lit "channel.blocked", lit "contact.created", lit "contact.petname", lit "contact.flag",
    lit "contact.useDid", lit "contact.channelsSet", lit "contact.merged", lit "contact.deleted",
    lit "message.out", lit "message.prepared", lit "delivery.submitted", lit "delivery.failed",
    lit "delivery.acknowledged", lit "effect.skipped", lit "message.in", lit "message.erased"]

def isVaultEventType (type : JsString) : Bool := type ∈ VAULT_EVENT_TYPES

/-- The objects of a message, each once. -/
def messageRoots (bodyCid : Cid) (attachmentCids : List Cid) : List Cid :=
  OMap.once (bodyCid :: attachmentCids)

def Content.roots (content : Content) : List Cid := messageRoots content.bodyCid content.attachmentCids

/-- What the roots of an event must be. -/
def VaultData.rootsOf : VaultData → List Cid
  | .peerResolved data => [data.documentCid]
  | .messageOut data => data.toContent.roots
  | .messageIn data => data.toContent.roots
  | .messagePrepared data => [data.envelopeCid]
  | _ => []

/-! ## The set -/

/-- An event with its payload read. -/
structure VaultEvent (α : Type) where
  event : Event
  data : α

def VaultEvent.cid {α : Type} (event : VaultEvent α) : EventCid := event.event.cid

/-- The payload an event is to be read as, and nothing for a payload of another type. -/
abbrev Kind (α : Type) := VaultData → Option α

def didCreated : Kind DidCreated | .didCreated data => some data | _ => none
def didDisclosed : Kind DidDisclosed | .didDisclosed data => some data | _ => none
def didRetired : Kind DidRetired | .didRetired data => some data | _ => none
def peerResolved : Kind PeerResolved | .peerResolved data => some data | _ => none
def mediationCreated : Kind MediationCreated | .mediationCreated data => some data | _ => none
def mediationGranted : Kind MediationGranted | .mediationGranted data => some data | _ => none
def mediationSelected : Kind MediationSelected | .mediationSelected data => some data | _ => none
def mediationRetired : Kind MediationRetired | .mediationRetired data => some data | _ => none
def messageAdmitted : Kind MessageAdmitted | .messageAdmitted data => some data | _ => none
def rotationSelected : Kind RotationSelected | .rotationSelected data => some data | _ => none
def channelBlocked : Kind ChannelBlocked | .channelBlocked data => some data | _ => none
def messageOut : Kind MessageOut | .messageOut data => some data | _ => none
def messageIn : Kind MessageIn | .messageIn data => some data | _ => none
def messagePrepared : Kind MessagePrepared | .messagePrepared data => some data | _ => none
def deliverySubmitted : Kind DeliverySubmitted | .deliverySubmitted data => some data | _ => none
def deliveryFailed : Kind DeliveryFailed | .deliveryFailed data => some data | _ => none
def deliveryAcknowledged : Kind DeliveryAcknowledged
  | .deliveryAcknowledged data => some data | _ => none
def effectSkipped : Kind EffectSkipped | .effectSkipped data => some data | _ => none
def messageErased : Kind MessageErased | .messageErased data => some data | _ => none

/-- What a reference points at: the event of the type it requires, nothing yet, or an event
of another type. -/
inductive Resolved (α : Type) where
  | present (event : VaultEvent α)
  | missing
  | mismatched (type : JsString)

def compareVaultEvents {α : Type} (a b : VaultEvent α) : Ordering :=
  EventStore.compareEvents a.event b.event

/-- The events of a vault, one for each CID: those read, whose roots are what their payload
asks for, and those kept for their roots. -/
structure VaultEventSet where
  read : List (VaultEvent VaultData)
  kept : List Event
  nodup : (read.map VaultEvent.cid ++ kept.map Event.cid).Nodup
  rooted : ∀ event ∈ read, event.event.roots = event.data.rootsOf

namespace VaultEventSet

def empty : VaultEventSet := ⟨[], [], List.nodup_nil, fun _ h => by cases h⟩

variable (set : VaultEventSet)

def has (cid : EventCid) : Bool := cid ∈ set.read.map VaultEvent.cid ++ set.kept.map Event.cid

/-- The payload of an event of a known type: what its type's schema reads, where the roots
are what the payload asks for. -/
def readVaultEvent (payload : JsString → Json → Except JsString VaultData) (event : Event) :
    Except JsString VaultData := do
  let data ← payload event.type event.data
  Checked.refuse (event.roots ≠ data.rootsOf) (lit "roots must be [" ++
    (lit ", ").intercalate data.rootsOf ++ lit "], not [" ++ (lit ", ").intercalate event.roots ++
    lit "]")
  pure data

theorem readVaultEvent_roots {payload : JsString → Json → Except JsString VaultData} {event : Event}
    {data : VaultData} (h : readVaultEvent payload event = .ok data) : event.roots = data.rootsOf := by
  obtain ⟨read, -, h⟩ := Checked.bind_eq_ok.mp h
  obtain ⟨hroots, h⟩ := Checked.refuse_bind_eq_ok.mp h
  cases h
  exact not_not.mp hroots

theorem not_mem_of_has {cid : EventCid} (h : ¬ set.has cid = true) :
    cid ∉ set.read.map VaultEvent.cid ++ set.kept.map Event.cid := by
  simpa [has] using h

/-- One more event read. -/
def apply (event : Event) (data : VaultData) (fresh : ¬ set.has event.cid = true)
    (roots : event.roots = data.rootsOf) : VaultEventSet where
  read := set.read ++ [⟨event, data⟩]
  kept := set.kept
  nodup := by
    rw [List.map_append, List.append_assoc]
    refine (List.perm_middle.nodup_iff).mpr ?_
    exact List.nodup_cons.mpr ⟨set.not_mem_of_has fresh, set.nodup⟩
  rooted := by
    intro e he
    obtain he | he := List.mem_append.mp he
    · exact set.rooted e he
    · rw [List.mem_singleton.mp he]
      exact roots

/-- One more event kept as it is. -/
def keep (event : Event) (fresh : ¬ set.has event.cid = true) : VaultEventSet where
  read := set.read
  kept := set.kept ++ [event]
  nodup := by
    rw [List.map_append, ← List.append_assoc]
    refine (List.perm_append_comm.nodup_iff).mpr ?_
    exact List.nodup_cons.mpr ⟨set.not_mem_of_has fresh, set.nodup⟩
  rooted := set.rooted

/-- Add one event, unless the set holds its CID. -/
def add (payload : JsString → Json → Except JsString VaultData) (event : Event) : VaultEventSet :=
  if fresh : set.has event.cid = true then set
  else if ¬ isVaultEventType event.type then set.keep event fresh
  else
    match h : readVaultEvent payload event with
    | .ok data => set.apply event data fresh (readVaultEvent_roots h)
    | .error _ => set.keep event fresh

/-- Every event of a type, in canonical order. -/
def of {α : Type} (kind : Kind α) : List (VaultEvent α) :=
  Cmp.sortBy compareVaultEvents
    (set.read.filterMap fun event => (kind event.data).map fun data => ⟨event.event, data⟩)

/-- The event a reference names, if it is here and of the type the reference requires. -/
def resolve {α : Type} (reference : EventCid) (kind : Kind α) : Resolved α :=
  match set.read.find? fun event => event.cid == reference with
  | some event =>
    match kind event.data with
    | some data => .present ⟨event.event, data⟩
    | none => .mismatched event.event.type
  | none =>
    match set.kept.find? fun event => event.cid == reference with
    | some event => .mismatched event.type
    | none => .missing

/-! ## What a set holds -/

variable {set} {α : Type} {kind : Kind α}

/-- The events of a type are those read as one of it. -/
theorem mem_of {event : VaultEvent α} :
    event ∈ set.of kind ↔
      ∃ read ∈ set.read, read.event = event.event ∧ kind read.data = some event.data := by
  rw [VaultEventSet.of, Cmp.mem_sortBy, List.mem_filterMap]
  constructor
  · intro ⟨read, hread, h⟩
    cases hdata : kind read.data with
    | none => rw [hdata] at h; cases h
    | some data =>
      rw [hdata] at h
      cases h
      exact ⟨read, hread, rfl, hdata⟩
  · intro ⟨read, hread, hevent, hdata⟩
    refine ⟨read, hread, ?_⟩
    rw [hdata, hevent]
    rfl

/-- One event read has a CID. -/
theorem read_inj {event other : VaultEvent VaultData} (h : event ∈ set.read)
    (h' : other ∈ set.read) (hcid : event.cid = other.cid) : event = other :=
  List.inj_on_of_nodup_map (List.Nodup.of_append_left set.nodup) h h' hcid

/-- One event of a type has a CID. -/
theorem of_inj {event other : VaultEvent α} (h : event ∈ set.of kind) (h' : other ∈ set.of kind)
    (hcid : event.cid = other.cid) : event = other := by
  obtain ⟨read, hread, hevent, hdata⟩ := mem_of.mp h
  obtain ⟨read', hread', hevent', hdata'⟩ := mem_of.mp h'
  have hsame : read = read' := by
    refine read_inj hread hread' ?_
    rw [VaultEvent.cid, VaultEvent.cid, hevent, hevent']
    exact hcid
  subst hsame
  cases event
  cases other
  cases hevent.symm.trans hevent'
  cases hdata.symm.trans hdata'
  rfl

theorem cid_of_find {events : List (VaultEvent VaultData)} {reference : EventCid}
    {found : VaultEvent VaultData}
    (h : events.find? (fun event => event.cid == reference) = some found) :
    found.cid = reference := by
  have hbeq := @List.find?_some _ (fun event : VaultEvent VaultData => event.cid == reference) _ _ h
  exact eq_of_beq hbeq

/-- A reference is resolved by the event of its type that has its CID. -/
theorem resolve_eq_present {reference : EventCid} {event : VaultEvent α} :
    set.resolve reference kind = .present event ↔ event ∈ set.of kind ∧ event.cid = reference := by
  constructor
  · intro h
    unfold resolve at h
    split at h
    · rename_i read hfind
      split at h
      · rename_i data hdata
        cases h
        refine ⟨mem_of.mpr ⟨read, List.mem_of_find?_eq_some hfind, rfl, hdata⟩, ?_⟩
        exact cid_of_find hfind
      · cases h
    · split at h <;> cases h
  · intro ⟨hmem, hcid⟩
    obtain ⟨read, hread, hevent, hdata⟩ := mem_of.mp hmem
    have hreadcid : read.cid = reference := by rw [VaultEvent.cid, hevent]; exact hcid
    have hfind : set.read.find? (fun event => event.cid == reference) = some read := by
      obtain ⟨found, hfound⟩ := Option.isSome_iff_exists.mp
        (List.find?_isSome (p := fun event : VaultEvent VaultData => event.cid == reference)
          |>.mpr ⟨read, hread, beq_iff_eq.mpr hreadcid⟩)
      rw [hfound, read_inj (List.mem_of_find?_eq_some hfound) hread
        ((cid_of_find hfound).trans hreadcid.symm)]
    unfold resolve
    rw [hfind]
    simp only [hdata, hevent]

end VaultEventSet

/-! ## More events -/

/-- A set with more events, each read as it was. -/
structure VaultEventSet.Le (set more : VaultEventSet) : Prop where
  read : set.read ⊆ more.read
  kept : set.kept ⊆ more.kept

section More

variable {set more : VaultEventSet} {α : Type} {kind : Kind α}

theorem VaultEventSet.Le.of_mem (h : set.Le more) {event : VaultEvent α} (hevent : event ∈ set.of kind) :
    event ∈ more.of kind := by
  obtain ⟨read, hread, hrest⟩ := VaultEventSet.mem_of.mp hevent
  exact VaultEventSet.mem_of.mpr ⟨read, h.read hread, hrest⟩

/-- What was resolved stays resolved. -/
theorem VaultEventSet.Le.resolve (h : set.Le more) {reference : EventCid} {event : VaultEvent α}
    (hevent : set.resolve reference kind = .present event) :
    more.resolve reference kind = .present event := by
  obtain ⟨hmem, hcid⟩ := VaultEventSet.resolve_eq_present.mp hevent
  exact VaultEventSet.resolve_eq_present.mpr ⟨h.of_mem hmem, hcid⟩

end More

/-- Events as a set. -/
def eventSetOf (payload : JsString → Json → Except JsString VaultData) (events : List Event) :
    VaultEventSet := events.foldl (fun set event => set.add payload event) .empty

/-- The last in canonical order. -/
def latest {α : Type} : List (VaultEvent α) → Option (VaultEvent α)
  | [] => none
  | event :: events =>
    some (events.foldl (fun best event =>
      if compareVaultEvents best event = .lt then event else best) event)

end Estoc.Vault
