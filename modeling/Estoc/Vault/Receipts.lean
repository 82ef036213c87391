import Estoc.Vault.Appended

/-!
# More receipts

A record of a receipt is read by its own message alone, and there by nothing but the list of its
receipts. So after any receipts are appended every message is what it was, to its witnesses, its
submissions and its work, with the receipts now recorded of it read against the same witnesses.
-/

set_option linter.unusedSectionVars false

namespace Estoc.Vault

open Utf16 (JsString)

/-! ## A message with more receipts -/

section Recorded

variable {O : Outside} {set more : VaultEventSet} {datas : List VaultData} {inputs : Shared}

/-- The view of a message with another set to find references in. -/
def Shared.withSet (inputs : Shared) (more : VaultEventSet) : Shared := { inputs with set := more }

@[simp] theorem withSet_set : (inputs.withSet more).set = more := rfl

theorem preparationStatus_withSet {preparation : MessagePrepared} {data : Option MessageOut}
    {sender : Option LocalDidEntity} {channel : Option Channel}
    (h : more.resolve preparation.peerResolutionEventCid peerResolved =
      inputs.set.resolve preparation.peerResolutionEventCid peerResolved) :
    preparationStatus (inputs.withSet more) preparation data sender channel =
      preparationStatus inputs preparation data sender channel := by
  cases data with
  | none => rfl
  | some data =>
    have hread : preparationReading (inputs.withSet more) preparation data sender channel =
        preparationReading inputs preparation data sender channel := by
      unfold preparationReading
      rw [withSet_set, h]
      rfl
    rw [preparationStatus, preparationStatus, hread]

theorem submissionOf_eq {preparations : List Preparation} {data : Option MessageOut}
    {event : VaultEvent DeliverySubmitted}
    (h : more.resolve event.data.preparationEventCid messagePrepared =
      set.resolve event.data.preparationEventCid messagePrepared) :
    submissionOf more preparations data event = submissionOf set preparations data event := by
  rw [submissionOf, submissionOf, h]

theorem readEffectSource_withSet {sourceEventCid : EventCid} {executionId : ExecutionId}
    (h : more.resolve sourceEventCid messageIn = inputs.set.resolve sourceEventCid messageIn) :
    readEffectSource (inputs.withSet more) sourceEventCid executionId =
      readEffectSource inputs sourceEventCid executionId := by
  unfold readEffectSource
  rw [withSet_set, h]
  rfl

/-- What an intent rests on, with another set in which its references find what they find. -/
theorem effectOf_withSet {data : MessageOut} {channel : Option Channel}
    (heffect : ∀ effect, data.effect = some effect →
      more.resolve effect.sourceEventCid messageIn = inputs.set.resolve effect.sourceEventCid messageIn)
    (hrotation : ∀ reference, data.rotationEventCid = some reference →
      more.resolve reference rotationSelected = inputs.set.resolve reference rotationSelected) :
    effectOf (inputs.withSet more) data channel = effectOf inputs data channel := by
  have hnotification : ∀ source, notificationOf (inputs.withSet more) data source channel =
      notificationOf inputs data source channel := by
    intro source
    unfold notificationOf
    cases hcid : data.rotationEventCid with
    | none => rfl
    | some reference =>
      have hread : notificationRotation (inputs.withSet more) data reference channel =
          notificationRotation inputs data reference channel := by
        unfold notificationRotation
        rw [withSet_set, hrotation reference hcid]
        rfl
      dsimp only
      rw [hread]
      rfl
  unfold effectOf effectReading
  cases hdata : data.effect with
  | none => simp only [hnotification]
  | some effect =>
    simp only [hnotification, readEffectSource_withSet (heffect effect hdata)]
    rfl

theorem effectOfRecords_withSet {events : List (VaultEvent MessageOut)} {channel : Option Channel}
    (heffect : ∀ event ∈ events, ∀ effect, event.data.effect = some effect →
      more.resolve effect.sourceEventCid messageIn = inputs.set.resolve effect.sourceEventCid messageIn)
    (hrotation : ∀ event ∈ events, ∀ reference, event.data.rotationEventCid = some reference →
      more.resolve reference rotationSelected = inputs.set.resolve reference rotationSelected) :
    effectOfRecords (inputs.withSet more) events channel = effectOfRecords inputs events channel := by
  unfold effectOfRecords
  rw [List.map_congr_left fun event hevent =>
    effectOf_withSet (heffect event hevent) (hrotation event hevent)]

/-- A message whose references find what they found differs in its receipts alone. -/
theorem outboundOf_withSet {skips : Skips} {messageId : MessageId} {first : VaultEvent MessageOut}
    {rest : List (VaultEvent MessageOut)} {records : Records}
    (acknowledgements : List (VaultEvent DeliveryAcknowledged))
    (hprepared : ∀ event ∈ records.preparations,
      more.resolve event.data.peerResolutionEventCid peerResolved =
        inputs.set.resolve event.data.peerResolutionEventCid peerResolved)
    (hsubmitted : ∀ event ∈ records.submissions,
      more.resolve event.data.preparationEventCid messagePrepared =
        inputs.set.resolve event.data.preparationEventCid messagePrepared)
    (heffect : ∀ event ∈ first :: rest, ∀ effect, event.data.effect = some effect →
      more.resolve effect.sourceEventCid messageIn = inputs.set.resolve effect.sourceEventCid messageIn)
    (hrotation : ∀ event ∈ first :: rest, ∀ reference, event.data.rotationEventCid = some reference →
      more.resolve reference rotationSelected = inputs.set.resolve reference rotationSelected) :
    outboundOf (inputs.withSet more) skips messageId first rest { records with acknowledgements } =
      { outboundOf inputs skips messageId first rest records with
        acknowledgements := acknowledgements.map fun event => Acknowledgement.mk event
          (acknowledgementStatus inputs
            (preparedOf (outboundOf inputs skips messageId first rest records).preparations)
            (outboundOf inputs skips messageId first rest records).ackWitnesses event.data) } := by
  have hpreparations : ∀ data sender channel,
      (records.preparations.map fun event => Preparation.mk event
        (preparationStatus (inputs.withSet more) event.data data sender channel)
        (erased (inputs.withSet more).erasures messageId event.data.envelopeCid)) =
      records.preparations.map fun event => Preparation.mk event
        (preparationStatus inputs event.data data sender channel)
        (erased inputs.erasures messageId event.data.envelopeCid) := by
    intro data sender channel
    refine List.map_congr_left fun event hevent => ?_
    rw [preparationStatus_withSet (hprepared event hevent)]
    rfl
  have hsubmissions : ∀ preparations data,
      records.submissions.map (submissionOf more preparations data) =
        records.submissions.map (submissionOf inputs.set preparations data) :=
    fun preparations data => List.map_congr_left fun event hevent =>
      submissionOf_eq (hsubmitted event hevent)
  have heffects : ∀ channel, effectOfRecords (inputs.withSet more) (first :: rest) channel =
      effectOfRecords inputs (first :: rest) channel :=
    fun _ => effectOfRecords_withSet heffect hrotation
  unfold outboundOf
  simp only [hpreparations, withSet_set, hsubmissions, heffects]
  rfl

end Recorded

/-! ## The fold with more receipts -/

section Frame

variable {O : Outside} {set more : VaultEventSet} {datas : List VaultData} {checks : VaultChecks}
  {effectTypes : List JsString}

/-- A payload that records a receipt. -/
def VaultData.isReceipt : VaultData → Bool
  | .deliveryAcknowledged _ => true
  | _ => false

theorem VaultData.isLate_of_receipt {data : VaultData} (h : data.isReceipt = true) :
    data.isLate = true := by
  cases data with
  | deliveryAcknowledged data => rfl
  | _ => cases h

theorem VaultData.none_of_receipt {α : Type} {kind : Kind α} {data : VaultData}
    (hkind : ∀ data, kind (.deliveryAcknowledged data) = none) (h : data.isReceipt = true) :
    kind data = none := by
  cases data with
  | deliveryAcknowledged data => exact hkind data
  | _ => cases h

variable (h : Appended set more datas) (hreceipts : ∀ data ∈ datas, data.isReceipt = true)
  (hun : set.Unforeseen more)
include h hreceipts hun

/-- A type that is not that of receipts has the events it had. -/
theorem Appended.of_unreceipted {α : Type} (kind : Kind α)
    (hkind : ∀ data, kind (.deliveryAcknowledged data) = none) : more.of kind = set.of kind :=
  h.of_eq kind fun data hdata => VaultData.none_of_receipt hkind (hreceipts data hdata)

/-- What a message is judged against is what it was, but for the set. -/
theorem Appended.vaultShared_eq : vaultShared O more checks effectTypes =
    (vaultShared O set checks effectTypes).withSet more := by
  have hlate := fun data hdata => VaultData.isLate_of_receipt (hreceipts data hdata)
  have herased : ∀ data ∈ datas, messageErased data = none :=
    fun data hdata => VaultData.none_of_receipt (fun _ => rfl) (hreceipts data hdata)
  have hadmitted : ∀ data ∈ datas, messageAdmitted data = none :=
    fun data hdata => VaultData.none_of_receipt (fun _ => rfl) (hreceipts data hdata)
  have hselections : selectionsOf more = selectionsOf set := by
    rw [selectionsOf, selectionsOf, h.of_unreceipted hreceipts hun messageOut fun _ => rfl]
  simp only [vaultShared, foldVault, sharedOf, Shared.withSet, h.foldMediations_eq hlate,
    h.foldDids_eq hlate, h.foldChannelEvidence_eq hlate hun, h.foldContinuity_eq hlate hun,
    h.foldErasures_eq herased, h.foldAdmissions_eq hun hadmitted, hselections]

/-- The skips are what they were: a skip's source is where it was. -/
theorem Appended.skips_eq : (foldVault O more checks effectTypes).outbound.skips =
    (foldVault O set checks effectTypes).outbound.skips := by
  change skipsOf more (vaultShared O more checks effectTypes) =
    skipsOf set (vaultShared O set checks effectTypes)
  rw [skipsOf, skipsOf, h.vaultShared_eq hreceipts hun,
    h.of_unreceipted hreceipts hun effectSkipped fun _ => rfl]
  congr 1
  refine List.map_congr_left fun event hevent => ?_
  have hresolve : more.resolve event.data.sourceEventCid messageIn =
      set.resolve event.data.sourceEventCid messageIn := by
    refine h.resolve_of hun hevent (fun data hdata => ?_) messageIn
    cases data with
    | effectSkipped data =>
      cases hdata
      exact List.mem_singleton_self _
    | _ => cases hdata
  rw [skipStatus, skipStatus, readEffectSource_withSet hresolve]

/-- A message with the receipts recorded of it, as its own evidence has them. -/
def Outbound.receive (outbound : Outbound) (inputs : Shared)
    (events : List (VaultEvent DeliveryAcknowledged)) : Outbound :=
  { outbound with
    acknowledgements := events.map fun event => Acknowledgement.mk event
      (acknowledgementStatus inputs (preparedOf outbound.preparations) outbound.ackWitnesses event.data) }

/-- The receipts recorded of a message. -/
def receiptsOf (set : VaultEventSet) (messageId : MessageId) : List (VaultEvent DeliveryAcknowledged) :=
  (set.of deliveryAcknowledged).filter (·.data.messageId = messageId)

/-- Intents and records of a message make what they made, with the receipts now recorded of it. -/
theorem Appended.outboundOf_eq {messageId : MessageId} {first : VaultEvent MessageOut}
    {rest : List (VaultEvent MessageOut)}
    (hevents : (set.of messageOut).filter (·.data.messageId = messageId) = first :: rest) :
    outboundOf (vaultShared O more checks effectTypes)
      (foldVault O more checks effectTypes).outbound.skips messageId first rest
      (recordsOf more (foldVault O more checks effectTypes).channels
        (foldVault O more checks effectTypes).inbound messageId) =
    (outboundOf (vaultShared O set checks effectTypes)
      (foldVault O set checks effectTypes).outbound.skips messageId first rest
      (recordsOf set (foldVault O set checks effectTypes).channels
        (foldVault O set checks effectTypes).inbound messageId)).receive
      (vaultShared O set checks effectTypes) (receiptsOf more messageId) := by
  have hshared : vaultShared O more checks effectTypes =
      (vaultShared O set checks effectTypes).withSet more := h.vaultShared_eq hreceipts hun
  have hrecords : recordsOf more (foldVault O more checks effectTypes).channels
      (foldVault O more checks effectTypes).inbound messageId =
      { recordsOf set (foldVault O set checks effectTypes).channels
          (foldVault O set checks effectTypes).inbound messageId with
        acknowledgements := receiptsOf more messageId } := by
    have hevidence : (foldVault O more checks effectTypes).channels =
        (foldVault O set checks effectTypes).channels := congrArg Shared.evidence hshared
    have hinbound : (foldVault O more checks effectTypes).inbound =
        (foldVault O set checks effectTypes).inbound := congrArg Shared.inbound hshared
    rw [recordsOf, recordsOf, hevidence, hinbound,
      h.of_unreceipted hreceipts hun messagePrepared fun _ => rfl,
      h.of_unreceipted hreceipts hun deliverySubmitted fun _ => rfl,
      h.of_unreceipted hreceipts hun deliveryFailed fun _ => rfl, OMap.getD_groupBy
      (more.of deliveryAcknowledged)]
    rfl
  have hintent : ∀ event ∈ first :: rest, event ∈ set.of messageOut := by
    intro event hevent
    rw [← hevents] at hevent
    exact List.mem_of_mem_filter hevent
  rw [hshared, h.skips_eq hreceipts hun, hrecords]
  refine outboundOf_withSet _ (fun event hevent => ?_) (fun event hevent => ?_)
    (fun event hevent effect heffect => ?_) fun event hevent reference hreference => ?_
  · have hevent : event ∈ ((OMap.groupBy (set.of messagePrepared) (·.data.messageId)).get?
      messageId).getD [] := hevent
    rw [OMap.getD_groupBy] at hevent
    refine h.resolve_of hun (List.mem_of_mem_filter hevent) (fun data hdata => ?_) peerResolved
    cases data with
    | messagePrepared data =>
      cases hdata
      exact List.mem_singleton_self _
    | _ => cases hdata
  · have hevent : event ∈ ((OMap.groupBy (set.of deliverySubmitted) (·.data.messageId)).get?
      messageId).getD [] := hevent
    rw [OMap.getD_groupBy] at hevent
    refine h.resolve_of hun (List.mem_of_mem_filter hevent) (fun data hdata => ?_) messagePrepared
    cases data with
    | deliverySubmitted data =>
      cases hdata
      exact List.mem_singleton_self _
    | _ => cases hdata
  · refine h.resolve_of hun (hintent event hevent) (fun data hdata => ?_) messageIn
    cases data with
    | messageOut data =>
      cases hdata
      rw [VaultData.references, heffect]
      exact List.mem_append_left _ (List.mem_singleton_self _)
    | _ => cases hdata
  · refine h.resolve_of hun (hintent event hevent) (fun data hdata => ?_) rotationSelected
    cases data with
    | messageOut data =>
      cases hdata
      rw [VaultData.references, hreference]
      exact List.mem_append_right _ (List.mem_singleton_self _)
    | _ => cases hdata

/-- Every message is what it was, with the receipts now recorded of it. -/
theorem Appended.outbound_eq {messageId : MessageId} :
    (foldVault O more checks effectTypes).outbound.outbounds.get? messageId =
      ((foldVault O set checks effectTypes).outbound.outbounds.get? messageId).map fun outbound =>
        outbound.receive (vaultShared O set checks effectTypes) (receiptsOf more messageId) := by
  have hintents := h.of_unreceipted hreceipts hun messageOut fun _ => rfl
  cases hold : (foldVault O set checks effectTypes).outbound.outbounds.get? messageId with
  | some outbound =>
    obtain ⟨first, rest, hevents, rfl⟩ := foldVault_get?.mp hold
    rw [Option.map_some, ← h.outboundOf_eq hreceipts hun hevents]
    refine foldVault_get?.mpr ⟨first, rest, ?_, rfl⟩
    rw [hintents]
    exact hevents
  | none =>
    rw [Option.map_none, Option.eq_none_iff_forall_ne_some]
    intro outbound hget
    obtain ⟨first, rest, hevents, -⟩ := foldVault_get?.mp hget
    rw [hintents] at hevents
    rw [foldVault_get?.mpr ⟨first, rest, hevents, rfl⟩] at hold
    cases hold

end Frame

/-! ## The receipts of a message -/

section Receipts

variable {O : Outside} {set : VaultEventSet} {checks : VaultChecks} {effectTypes : List JsString}
  {messageId : MessageId} {outbound : Outbound} {inputs : Shared} {witnesses : List PlacedSource}

theorem acknowledgements_eq
    (hget : (foldVault O set checks effectTypes).outbound.outbounds.get? messageId = some outbound) :
    outbound.acknowledgements = (receiptsOf set messageId).map fun event => Acknowledgement.mk event
      (acknowledgementStatus (vaultShared O set checks effectTypes) (preparedOf outbound.preparations)
        outbound.ackWitnesses event.data) := by
  obtain ⟨first, rest, -, rfl⟩ := foldVault_get?.mp hget
  rw [receiptsOf, ← OMap.getD_groupBy]
  rfl

/-- Only a message with a complete preparation has witnesses. -/
theorem prepared_of_ackWitnesses
    (hget : (foldVault O set checks effectTypes).outbound.outbounds.get? messageId = some outbound)
    {source : PlacedSource} (hsource : source ∈ outbound.ackWitnesses) :
    preparedOf outbound.preparations = .complete := by
  obtain ⟨first, rest, -, rfl⟩ := foldVault_get?.mp hget
  unfold outboundOf at hsource ⊢
  dsimp only at hsource ⊢
  split at hsource
  · next hprepared => exact hprepared
  · cases hsource

/-- A record that repeats one of its witnesses in full is complete, whatever the others are. -/
theorem acknowledgementStatus_of_witness {source : PlacedSource} (hsource : source ∈ witnesses)
    {data : DeliveryAcknowledged} (hid : source.event.data.messageId = data.ackMessageId)
    (hmatch : mismatchOf data source = none) :
    acknowledgementStatus inputs .complete witnesses data = .complete := by
  have hcarrier : source ∈ witnesses.filter fun source =>
      source.event.data.messageId = data.ackMessageId :=
    List.mem_filter.mpr ⟨hsource, decide_eq_true hid⟩
  have hnone : none ∈ (witnesses.filter fun source =>
      source.event.data.messageId = data.ackMessageId).map (mismatchOf data) :=
    List.mem_map.mpr ⟨source, hcarrier, hmatch⟩
  unfold acknowledgementStatus
  dsimp only
  rw [if_pos (List.contains_iff_mem.mpr hnone)]

end Receipts

end Estoc.Vault
