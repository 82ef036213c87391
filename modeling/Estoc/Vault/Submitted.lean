import Estoc.Vault.Erasure
import Estoc.Vault.Retention
import Estoc.Vault.Stable

/-!
# A message submitted is not sent again

A submission counts where the preparation it names is complete, and what makes a preparation
complete is not withdrawn: the intent it is of, the recipient it names, the resolution it rests
on and the creation of the sender. So with more events a message that was submitted still is,
unless its intents come to disagree or its sender falls into conflict; and then its outcome is
a conflict, which leaves nothing to do either.
-/

set_option linter.unusedSectionVars false

namespace Estoc.Vault

open Json (lit)
open Utf16 (JsString)

/-! ## A complete preparation -/

section Readings

variable {α : Type} {because : JsString}

theorem against_bind_eq_ok {c : Prop} [Decidable c] {f : Unit → Except EffectStatus α} {a : α} :
    (against c because >>= f) = .ok a ↔ ¬ c ∧ f () = .ok a :=
  Checked.refuse_bind_eq_ok

theorem mapError_eq_ok {reading : Except JsString α} {a : α} :
    reading.mapError Standing.conflict = .ok a ↔ reading = .ok a := by
  cases reading with
  | error because =>
    constructor
    · intro h
      cases h
    · intro h
      cases h
  | ok b =>
    constructor
    · intro h
      cases h
      rfl
    · intro h
      cases h
      rfl

end Readings

section Complete

variable {inputs : Shared} {preparation : MessagePrepared} {data : MessageOut}
  {sender : Option LocalDidEntity} {channel : Option Channel}

/-- What the resolution of a complete preparation is. -/
structure Evident (inputs : Shared) (preparation : MessagePrepared) (recipient : Did)
    (keyType : KeyType) (found : VaultEvent PeerResolved) : Prop where
  resolved : inputs.set.resolve preparation.peerResolutionEventCid peerResolved = .present found
  localKeyName : found.data.localKeyName = preparation.localKeyName
  did : found.data.did = recipient
  agreementKey : inputs.outside.agreementKey found.data.peerPublicKey = .ok keyType
  verified : inputs.resolutionChecks found.cid = some .verified

/-- What a complete preparation rests on. -/
structure Carriable (inputs : Shared) (preparation : MessagePrepared) (data : MessageOut)
    (sender : LocalDidEntity) (channel : Channel) : Prop where
  senderDidId : preparation.senderDidId = data.senderDidId
  intentCid : preparation.intentCid = data.intentCid
  recipient : canonicalRecipient inputs.outside preparation.recipientDid = some channel.peerDid
  evidence : ∃ keyType found, keyAgreementTypeOf inputs.outside sender = some keyType ∧
    Evident inputs preparation channel.peerDid keyType found

theorem preparationEvidence_verified {recipient : Did} {keyType : KeyType}
    {found : VaultEvent PeerResolved} :
    (∃ check, preparationEvidence inputs preparation recipient (some keyType) found = .ok (some check)) ↔
      found.data.localKeyName = preparation.localKeyName ∧ found.data.did = recipient ∧
        inputs.outside.agreementKey found.data.peerPublicKey = .ok keyType ∧
        inputs.resolutionChecks found.cid = some .verified := by
  unfold preparationEvidence
  constructor
  · rintro ⟨check, h⟩
    obtain ⟨hkey, h⟩ := against_bind_eq_ok.mp h
    obtain ⟨hdid, h⟩ := against_bind_eq_ok.mp h
    obtain ⟨peerKeyType, hpeer, h⟩ := Checked.bind_eq_ok.mp h
    obtain ⟨hvalid, h⟩ := against_bind_eq_ok.mp h
    obtain ⟨hcurve, h⟩ := against_bind_eq_ok.mp h
    have hcheck : inputs.resolutionChecks found.cid = some check := Except.ok.inj h
    have hsame : keyType = peerKeyType := Option.some.inj (not_not.mp fun hne => hcurve ⟨rfl, hne⟩)
    refine ⟨not_not.mp hkey, not_not.mp hdid, hsame ▸ mapError_eq_ok.mp hpeer, ?_⟩
    cases check with
    | verified => exact hcheck
    | invalid => exact absurd hcheck hvalid
  · rintro ⟨hkey, hdid, hpeer, hcheck⟩
    refine ⟨.verified, ?_⟩
    refine against_bind_eq_ok.mpr ⟨not_not.mpr hkey, ?_⟩
    refine against_bind_eq_ok.mpr ⟨not_not.mpr hdid, ?_⟩
    refine Checked.bind_eq_ok.mpr ⟨keyType, mapError_eq_ok.mpr hpeer, ?_⟩
    refine against_bind_eq_ok.mpr ⟨by rw [hcheck]; decide, ?_⟩
    refine against_bind_eq_ok.mpr ⟨fun hcurve => hcurve.2 rfl, ?_⟩
    exact congrArg Except.ok hcheck

theorem preparationReading_eq_ok :
    preparationReading inputs preparation data sender channel = .ok () ↔
      ∃ entity pair, sender = some entity ∧ channel = some pair ∧
        Carriable inputs preparation data entity pair := by
  unfold preparationReading
  constructor
  · intro h
    obtain ⟨hsender, h⟩ := against_bind_eq_ok.mp h
    obtain ⟨hintent, h⟩ := against_bind_eq_ok.mp h
    split at h
    · cases h
    · rename_i recipient hrecipient
      obtain ⟨hpair, h⟩ := against_bind_eq_ok.mp h
      split at h
      · cases h
      · cases h
      · rename_i found hfound
        obtain ⟨check, hevidence, h⟩ := Checked.bind_eq_ok.mp h
        obtain ⟨hcheck, h⟩ := Checked.refuse_bind_eq_ok.mp h
        obtain ⟨hchannel, h⟩ := Checked.refuse_bind_eq_ok.mp h
        have hlocal : sender.bind (keyAgreementTypeOf inputs.outside) ≠ none := by
          intro hnone
          rw [Checked.refuse, if_pos hnone] at h
          cases h
        obtain ⟨keyType, hkeyType⟩ := Option.ne_none_iff_exists'.mp hlocal
        obtain ⟨entity, hentity, hkey⟩ := Option.bind_eq_some_iff.mp hkeyType
        obtain ⟨pair, hpairIs⟩ := Option.ne_none_iff_exists'.mp hchannel
        obtain ⟨_, rfl⟩ := Option.ne_none_iff_exists'.mp hcheck
        have hpeer : recipient = pair.peerDid := by
          rw [hpairIs] at hpair
          simpa using hpair
        subst hpeer
        rw [hkeyType] at hevidence
        obtain ⟨hname, hdid, hagree, hverified⟩ := preparationEvidence_verified.mp ⟨_, hevidence⟩
        exact ⟨entity, pair, hentity, hpairIs, ⟨not_not.mp hsender, not_not.mp hintent, hrecipient,
          keyType, found, hkey, ⟨hfound, hname, hdid, hagree, hverified⟩⟩⟩
  · rintro ⟨entity, pair, rfl, rfl, h⟩
    obtain ⟨keyType, found, hkey, hevident⟩ := h.evidence
    obtain ⟨check, hevidence⟩ := preparationEvidence_verified.mpr
      ⟨hevident.localKeyName, hevident.did, hevident.agreementKey, hevident.verified⟩
    refine against_bind_eq_ok.mpr ⟨not_not.mpr h.senderDidId, ?_⟩
    refine against_bind_eq_ok.mpr ⟨not_not.mpr h.intentCid, ?_⟩
    rw [h.recipient]
    refine against_bind_eq_ok.mpr ⟨by simp, ?_⟩
    rw [hevident.resolved]
    refine Checked.bind_eq_ok.mpr ⟨some check, ?_, ?_⟩
    · rw [Option.bind_some, hkey]
      exact hevidence
    · refine Checked.refuse_bind_eq_ok.mpr ⟨Option.some_ne_none _, ?_⟩
      refine Checked.refuse_bind_eq_ok.mpr ⟨Option.some_ne_none _, ?_⟩
      rw [Option.bind_some, hkey]
      rfl

/-- A preparation is complete where all it rests on is here and agrees. -/
theorem preparationStatus_carriable {found : Option MessageOut} :
    preparationStatus inputs preparation found sender channel = .complete ↔
      ∃ data entity pair, found = some data ∧ sender = some entity ∧ channel = some pair ∧
        Carriable inputs preparation data entity pair := by
  rw [preparationStatus_complete]
  refine exists_congr fun data => ?_
  rw [preparationReading_eq_ok]
  constructor
  · rintro ⟨hfound, entity, pair, hentity, hpair, h⟩
    exact ⟨entity, pair, hfound, hentity, hpair, h⟩
  · rintro ⟨entity, pair, hfound, hentity, hpair, h⟩
    exact ⟨hfound, entity, pair, hentity, hpair, h⟩

end Complete

/-! ## A submission that counts -/

section Accepted

variable {inputs : Shared}

/-- The channel of a message whose sender and recipient are known. -/
theorem senderReading_channel {data : MessageOut} {sender : Option LocalDidEntity} {pair : Channel} :
    senderReading inputs data sender = .channel pair ↔
      ∃ entity created recipient, sender = some entity ∧ entity.conflict = false ∧
        entity.created = some created ∧
        canonicalRecipient inputs.outside data.recipientDid = some recipient ∧
        recipient ≠ created.did ∧ pair = channelOf created.did recipient := by
  constructor
  · intro h
    unfold senderReading at h
    split at h
    · cases h
    · rename_i entity
      split at h
      · cases h
      · rename_i hconflict
        split at h
        · cases h
        · cases h
        · rename_i created recipient hcreated hrecipient
          split at h
          · cases h
          · rename_i hself
            cases h
            exact ⟨entity, created, recipient, rfl, by simpa using hconflict, hcreated, hrecipient,
              hself, rfl⟩
  · rintro ⟨entity, created, recipient, rfl, hconflict, hcreated, hrecipient, hself, rfl⟩
    unfold senderReading
    simp only [hconflict, hcreated, hrecipient, hself, Bool.false_eq_true, if_false]

/-- The sender and the pair of a message with an intent. -/
structure Placed (inputs : Shared) (data : MessageOut) (entity : LocalDidEntity) (pair : Channel) :
    Prop where
  sender : inputs.dids.entities.get? data.senderDidId = some entity
  channel : senderReading inputs data (some entity) = .channel pair

/-- A submission of a preparation that is complete. -/
structure Accepted (inputs : Shared) (data : MessageOut) (submission : VaultEvent DeliverySubmitted)
    (prepared : VaultEvent MessagePrepared) : Prop where
  names : inputs.set.resolve submission.data.preparationEventCid messagePrepared = .present prepared
  carriable : ∃ entity pair, Placed inputs data entity pair ∧
    Carriable inputs prepared.data data entity pair

theorem cid_of_found {preparations : List Preparation} {cid : EventCid} {preparation : Preparation}
    (h : preparations.find? (fun candidate => candidate.event.cid = cid) = some preparation) :
    preparation.event.cid = cid := by
  simpa using List.find?_some h

section Message

variable {skips : Skips} {messageId : MessageId} {first : VaultEvent MessageOut}
  {rest : List (VaultEvent MessageOut)} {records : Records}

theorem outboundOf_sender : (outboundOf inputs skips messageId first rest records).sender =
    (intentOf inputs.outside first rest).data.bind fun data =>
      inputs.dids.entities.get? data.senderDidId := rfl

theorem outboundOf_released : (outboundOf inputs skips messageId first rest records).released =
    ((intentOf inputs.outside first rest).data.isSome &&
      ((outboundOf inputs skips messageId first rest records).submitted ||
        (outboundOf inputs skips messageId first rest records).terminal.isSome)) := rfl

/-- The sender and the channel of the message as they are read for its preparations. -/
theorem outboundOf_placed {data : MessageOut} {entity : LocalDidEntity} {pair : Channel}
    (hintent : (intentOf inputs.outside first rest).data = some data) :
    ((outboundOf inputs skips messageId first rest records).sender = some entity ∧
      (outboundOf inputs skips messageId first rest records).channel = some pair) ↔
      Placed inputs data entity pair := by
  have hsender : (outboundOf inputs skips messageId first rest records).sender =
      inputs.dids.entities.get? data.senderDidId := by
    rw [outboundOf_sender, hintent, Option.bind_some]
  have hchannel : (outboundOf inputs skips messageId first rest records).channel = some pair ↔
      senderReading inputs data (inputs.dids.entities.get? data.senderDidId) = .channel pair := by
    unfold outboundOf
    simp only [hintent, Option.bind_some, Option.map_some]
    split
    · rename_i channel hreading
      rw [Option.some.inj hreading]
      constructor
      · intro h
        rw [Option.some.inj h]
      · intro h
        cases h
        rfl
    · rename_i hnot
      constructor
      · intro h
        cases h
      · intro h
        exact absurd (congrArg some h) (hnot _)
  rw [hsender, hchannel]
  constructor
  · rintro ⟨hentity, hreading⟩
    exact ⟨hentity, hentity ▸ hreading⟩
  · intro h
    exact ⟨h.sender, h.sender ▸ h.channel⟩

/-- A preparation of the message, as its outbound has it. -/
def Outbound.reads (outbound : Outbound) (inputs : Shared) (first : VaultEvent MessageOut)
    (rest : List (VaultEvent MessageOut)) (event : VaultEvent MessagePrepared) : Preparation where
  event := event
  status := preparationStatus inputs event.data (intentOf inputs.outside first rest).data
    outbound.sender outbound.channel
  erased := Vault.erased inputs.erasures outbound.messageId event.data.envelopeCid

theorem outboundOf_preparations :
    (outboundOf inputs skips messageId first rest records).preparations = records.preparations.map
      ((outboundOf inputs skips messageId first rest records).reads inputs first rest) := rfl

/-- A message is submitted where one of its submissions names one of its preparations, and that
one is complete. -/
theorem outboundOf_submitted
    (hrecords : ∀ prepared ∈ records.preparations, prepared ∈ inputs.set.of messagePrepared) :
    (outboundOf inputs skips messageId first rest records).submitted = true ↔
      ∃ data, (intentOf inputs.outside first rest).data = some data ∧
        ∃ submission ∈ records.submissions, ∃ prepared ∈ records.preparations,
          Accepted inputs data submission prepared := by
  have hsubmitted : (outboundOf inputs skips messageId first rest records).submitted =
      records.submissions.any fun event => (submissionOf inputs.set
        (outboundOf inputs skips messageId first rest records).preparations
        (intentOf inputs.outside first rest).data event).status = .complete := List.any_map
  rw [hsubmitted, List.any_eq_true]
  constructor
  · rintro ⟨submission, hin, hstatus⟩
    obtain ⟨resolved, preparation, hresolved, hfind, -, hcomplete⟩ :=
      submissionOf_complete.mp (of_decide_eq_true hstatus)
    have hmem := List.mem_of_find?_eq_some hfind
    rw [outboundOf_preparations] at hmem
    obtain ⟨event, hevent, rfl⟩ := List.mem_map.mp hmem
    -- the CID it was found by is the one the submission names
    have hcid : event.cid = resolved.cid := cid_of_found hfind
    have hsame : event = resolved := VaultEventSet.of_inj (hrecords event hevent)
      (VaultEventSet.resolve_eq_present.mp hresolved).1 hcid
    subst hsame
    obtain ⟨data, entity, pair, hintent, hentity, hpair, hcarriable⟩ :=
      preparationStatus_carriable.mp hcomplete
    exact ⟨data, hintent, submission, hin, event, hevent, hresolved, entity, pair,
      (outboundOf_placed hintent).mp ⟨hentity, hpair⟩, hcarriable⟩
  · rintro ⟨data, hintent, submission, hin, event, hevent, haccepted⟩
    obtain ⟨entity, pair, hplaced, hcarriable⟩ := haccepted.carriable
    obtain ⟨hentity, hpair⟩ :
        (outboundOf inputs skips messageId first rest records).sender = some entity ∧
          (outboundOf inputs skips messageId first rest records).channel = some pair :=
      (outboundOf_placed hintent).mpr hplaced
    refine ⟨submission, hin, decide_eq_true (submissionOf_complete.mpr ?_)⟩
    have hmem : (outboundOf inputs skips messageId first rest records).reads inputs first rest event ∈
        (outboundOf inputs skips messageId first rest records).preparations := by
      rw [outboundOf_preparations]
      exact List.mem_map_of_mem hevent
    obtain ⟨preparation, hfind⟩ := Option.isSome_iff_exists.mp
      (List.find?_isSome (p := fun candidate : Preparation => candidate.event.cid = event.cid)
        |>.mpr ⟨_, hmem, decide_eq_true rfl⟩)
    have hfound := List.mem_of_find?_eq_some hfind
    rw [outboundOf_preparations] at hfound
    obtain ⟨other, hother, rfl⟩ := List.mem_map.mp hfound
    have hcid : other.cid = event.cid := cid_of_found hfind
    have hsame : other = event := VaultEventSet.of_inj (hrecords other hother) (hrecords event hevent) hcid
    subst hsame
    exact ⟨other, _, haccepted.names, hfind, by rw [hintent]; rfl,
      preparationStatus_carriable.mpr ⟨data, entity, pair, hintent, hentity, hpair, hcarriable⟩⟩

end Message

end Accepted

/-! ## With more events -/

/-- One intent is one intent with itself. -/
theorem sameIntent_refl (O : Outside) (data : MessageOut) : sameIntent O data data = true := by
  simp [sameIntent]

/-- The intent is the first record's, and the others agree with it. -/
theorem intentOf_data {O : Outside} {first : VaultEvent MessageOut}
    {rest : List (VaultEvent MessageOut)} {data : MessageOut} :
    (intentOf O first rest).data = some data ↔
      first.data = data ∧ ∀ event ∈ first :: rest, sameIntent O data event.data = true := by
  unfold intentOf
  split
  · rename_i hall
    rw [IntentStatus.data, Option.some.injEq]
    constructor
    · rintro rfl
      refine ⟨rfl, fun event hevent => ?_⟩
      rcases List.mem_cons.mp hevent with rfl | hevent
      · exact sameIntent_refl O event.data
      · exact List.all_eq_true.mp hall event hevent
    · exact fun h => h.1
  · rename_i hnot
    constructor
    · intro h
      cases h
    · rintro ⟨rfl, hall⟩
      exact absurd (List.all_eq_true.mpr fun event hevent => hall event (List.mem_cons_of_mem _ hevent))
        hnot

/-- What two records of one intent agree on. -/
structure Agree (O : Outside) (data data' : MessageOut) : Prop where
  intentCid : data'.intentCid = data.intentCid
  senderDidId : data'.senderDidId = data.senderDidId
  recipient : ∀ recipient, canonicalRecipient O data.recipientDid = some recipient →
    canonicalRecipient O data'.recipientDid = some recipient

theorem canonicalRecipient_idem {O : Outside} {did recipient : Did}
    (h : canonicalRecipient O did = some recipient) : canonicalRecipient O recipient = some recipient := by
  unfold canonicalRecipient at h ⊢
  cases hcanonical : O.canonicalDidOf did with
  | error because => rw [hcanonical] at h; cases h
  | ok found =>
    rw [hcanonical] at h
    cases h
    rw [O.canonicalDidOf_idem hcanonical]
    rfl

theorem agree_of_sameIntent {O : Outside} {data data' : MessageOut}
    (h : sameIntent O data' data = true) : Agree O data data' := by
  simp only [sameIntent, Bool.and_eq_true, Bool.or_eq_true, beq_iff_eq] at h
  obtain ⟨⟨⟨⟨hintent, hsender⟩, hrecipient⟩, -⟩, -⟩ := h
  refine ⟨hintent, hsender, fun recipient hcanonical => ?_⟩
  rcases hrecipient with hsame | hsame
  · rw [hsame]
    exact hcanonical
  · rw [hcanonical, Option.getD_some] at hsame
    cases hcanonical' : canonicalRecipient O data'.recipientDid with
    | some recipient' =>
      rw [hcanonical', Option.getD_some] at hsame
      rw [hsame]
    | none =>
      -- the spelling itself is canonical, so it names something after all
      rw [hcanonical', Option.getD_none] at hsame
      rw [hsame, canonicalRecipient_idem hcanonical] at hcanonical'
      cases hcanonical'

section Vaults

variable {O : Outside} {set more : VaultEventSet} {checks checks' : VaultChecks}
  {effectTypes effectTypes' : List JsString} {messageId : MessageId}

theorem placed_stable (hset : set.Le more) {data data' : MessageOut} {entity entity' : LocalDidEntity}
    {pair : Channel} (hagree : Agree O data data')
    (h : Placed (vaultShared O set checks effectTypes) data entity pair)
    (hentity : (foldVault O more checks' effectTypes').dids.entities.get? data'.senderDidId =
      some entity') (hconflict : entity'.conflict = false) :
    Placed (vaultShared O more checks' effectTypes') data' entity' pair ∧ SameEntity entity entity' := by
  obtain ⟨found, created, recipient, hfound, -, hcreated, hrecipient, hself, rfl⟩ :=
    senderReading_channel.mp h.channel
  cases hfound
  have hin : data.senderDidId ∈ didIds set ∧
      entityOf O set (foldMediations set checks.mediationKeys) checks.didKeys data.senderDidId =
        entity := by
    have hsender : (foldVault O set checks effectTypes).dids.entities.get? data.senderDidId =
        some entity := h.sender
    rw [foldVault_entity] at hsender
    split at hsender
    · rename_i hin
      exact ⟨hin, Option.some.inj hsender⟩
    · cases hsender
  have hafter := hentity
  rw [hagree.senderDidId, foldVault_entity, if_pos (mem_didIds_le hset hin.1)] at hafter
  have hentity' := Option.some.inj hafter
  have hsame : SameEntity entity entity' := by
    rw [← hin.2, ← hentity']
    refine entityOf_stable hset ?_ (hentity' ▸ hconflict)
    rw [hin.2, hcreated]
    rfl
  refine ⟨⟨hentity, senderReading_channel.mpr ?_⟩, hsame⟩
  exact ⟨entity', created, recipient, rfl, hconflict, hsame.created.trans hcreated,
    hagree.recipient recipient hrecipient, hself, rfl⟩

theorem carriable_stable (hset : set.Le more) (hchecks : checks.Le checks') {data data' : MessageOut}
    {entity entity' : LocalDidEntity} {pair : Channel} {preparation : MessagePrepared}
    (hagree : Agree O data data') (hsame : SameEntity entity entity')
    (h : Carriable (vaultShared O set checks effectTypes) preparation data entity pair) :
    Carriable (vaultShared O more checks' effectTypes') preparation data' entity' pair := by
  obtain ⟨keyType, found, hkey, hevident⟩ := h.evidence
  refine ⟨h.senderDidId.trans hagree.senderDidId.symm, h.intentCid.trans hagree.intentCid.symm,
    h.recipient, keyType, found, hsame.keyAgreementTypeOf.trans hkey, ?_⟩
  exact ⟨hset.resolve hevident.resolved, hevident.localKeyName, hevident.did, hevident.agreementKey,
    hchecks.resolutionChecks _ _ hevident.verified⟩

theorem accepted_stable (hset : set.Le more) (hchecks : checks.Le checks') {data data' : MessageOut}
    {submission : VaultEvent DeliverySubmitted} {prepared : VaultEvent MessagePrepared}
    (hagree : Agree O data data')
    (h : Accepted (vaultShared O set checks effectTypes) data submission prepared)
    {entity' : LocalDidEntity}
    (hentity : (foldVault O more checks' effectTypes').dids.entities.get? data'.senderDidId =
      some entity') (hconflict : entity'.conflict = false) :
    Accepted (vaultShared O more checks' effectTypes') data' submission prepared := by
  obtain ⟨entity, pair, hplaced, hcarriable⟩ := h.carriable
  obtain ⟨hplaced', hsame⟩ := placed_stable hset hagree hplaced hentity hconflict
  exact ⟨hset.resolve h.names, entity', pair, hplaced',
    carriable_stable hset hchecks hagree hsame hcarriable⟩

/-! ## Nothing to do for it -/

section Due

variable {inputs : Shared} {skips : Skips} {first : VaultEvent MessageOut}
  {rest : List (VaultEvent MessageOut)} {records : Records}

/-- A message whose intents disagree has no work. -/
theorem not_due_of_disagreement (h : (intentOf inputs.outside first rest).data = none) :
    (outboundOf inputs skips messageId first rest records).work.isDue = false := by
  cases hintent : intentOf inputs.outside first rest with
  | consistent data => rw [hintent] at h; cases h
  | conflict because =>
    unfold outboundOf
    simp only [hintent, Option.some_or, outcomeOf, workOf, Work.isDue]

/-- A message whose sender is in conflict has no work. -/
theorem not_due_of_conflict {data : MessageOut} {entity : LocalDidEntity}
    (hintent : (intentOf inputs.outside first rest).data = some data)
    (hentity : inputs.dids.entities.get? data.senderDidId = some entity)
    (hconflict : entity.conflict = true) :
    (outboundOf inputs skips messageId first rest records).work.isDue = false := by
  have hintent : intentOf inputs.outside first rest = .consistent data := by
    cases hboth : intentOf inputs.outside first rest with
    | consistent found => rw [hboth] at hintent; exact congrArg _ (Option.some.inj hintent)
    | conflict because => rw [hboth] at hintent; cases hintent
  unfold outboundOf
  simp only [hintent, IntentStatus.data, Option.bind_some, hentity, Option.map_some, senderReading,
    hconflict, if_true, Option.some_or, outcomeOf, workOf, Work.isDue]

/-- Nor has one that is submitted. -/
theorem not_due_of_submitted
    (h : (outboundOf inputs skips messageId first rest records).submitted = true) :
    (outboundOf inputs skips messageId first rest records).work.isDue = false := by
  cases hdue : (outboundOf inputs skips messageId first rest records).work.isDue with
  | false => rfl
  | true =>
    have hopen := (outcomeOf_open (workOf_due hdue).1).1
    exact absurd (h.symm.trans hopen) (by decide)

end Due

theorem mem_recordsOf_preparations {prepared : VaultEvent MessagePrepared} {evidence : ChannelEvidence}
    {inbound : InboundFold} : prepared ∈ (recordsOf set evidence inbound messageId).preparations ↔
      prepared ∈ set.of messagePrepared ∧ prepared.data.messageId = messageId := by
  change prepared ∈ ((OMap.groupBy (set.of messagePrepared) _).get? messageId).getD [] ↔ _
  rw [OMap.getD_groupBy, List.mem_filter, decide_eq_true_iff]

theorem mem_recordsOf_submissions {submission : VaultEvent DeliverySubmitted}
    {evidence : ChannelEvidence} {inbound : InboundFold} :
    submission ∈ (recordsOf set evidence inbound messageId).submissions ↔
      submission ∈ set.of deliverySubmitted ∧ submission.data.messageId = messageId := by
  change submission ∈ ((OMap.groupBy (set.of deliverySubmitted) _).get? messageId).getD [] ↔ _
  rw [OMap.getD_groupBy, List.mem_filter, decide_eq_true_iff]

theorem released_of_get? {outbound : Outbound}
    (h : (foldVault O set checks effectTypes).outbound.outbounds.get? messageId = some outbound)
    (hreleased : outbound.released = true) :
    messageId ∈ (foldVault O set checks effectTypes).outbound.released := by
  obtain ⟨found, hfound, hid, heq⟩ := OMap.get?_index_some h
  cases heq
  exact List.mem_map.mpr ⟨found, List.mem_filter.mpr ⟨hfound, hreleased⟩, hid⟩

/-- What made a message submitted still does, where its intents agree and its sender is not in
conflict; and the sender is still here. -/
theorem submitted_stable (hset : set.Le more) (hchecks : checks.Le checks')
    {first first' : VaultEvent MessageOut} {rest rest' : List (VaultEvent MessageOut)} {skips skips' : Skips}
    {data' : MessageOut} (hin : first ∈ first' :: rest')
    (hintent : (intentOf O first' rest').data = some data')
    (h : (outboundOf (vaultShared O set checks effectTypes) skips messageId first rest
      (recordsOf set (foldVault O set checks effectTypes).channels
        (foldVault O set checks effectTypes).inbound messageId)).submitted = true) :
    ∃ entity', (foldVault O more checks' effectTypes').dids.entities.get? data'.senderDidId =
        some entity' ∧
      (entity'.conflict = false → (outboundOf (vaultShared O more checks' effectTypes') skips' messageId
        first' rest' (recordsOf more (foldVault O more checks' effectTypes').channels
          (foldVault O more checks' effectTypes').inbound messageId)).submitted = true) := by
  obtain ⟨data, hdata, submission, hsubmission, prepared, hprepared, haccepted⟩ :=
    (outboundOf_submitted fun _ hin => (mem_recordsOf_preparations.mp hin).1).mp h
  obtain ⟨hsubmission, hsubmissionId⟩ := mem_recordsOf_submissions.mp hsubmission
  obtain ⟨hprepared, hpreparedId⟩ := mem_recordsOf_preparations.mp hprepared
  have hfirst := (intentOf_data.mp hdata).1
  have hagree : Agree O data data' := by
    rw [← hfirst]
    exact agree_of_sameIntent ((intentOf_data.mp hintent).2 first hin)
  obtain ⟨entity, pair, hplaced, -⟩ := haccepted.carriable
  have hsender : (foldVault O set checks effectTypes).dids.entities.get? data.senderDidId =
      some entity := hplaced.sender
  rw [foldVault_entity] at hsender
  split at hsender
  · rename_i hhere
    refine ⟨_, by rw [hagree.senderDidId, foldVault_entity, if_pos (mem_didIds_le hset hhere)], ?_⟩
    intro hconflict
    refine (outboundOf_submitted fun _ hin => (mem_recordsOf_preparations.mp hin).1).mpr ?_
    refine ⟨data', hintent, submission,
      mem_recordsOf_submissions.mpr ⟨hset.of_mem hsubmission, hsubmissionId⟩, prepared,
      mem_recordsOf_preparations.mpr ⟨hset.of_mem hprepared, hpreparedId⟩, ?_⟩
    refine accepted_stable hset hchecks hagree haccepted ?_ hconflict
    rw [hagree.senderDidId, foldVault_entity, if_pos (mem_didIds_le hset hhere)]
  · cases hsender

variable (O) (effectTypes effectTypes')

/-- A message submitted has nothing left to do in any fold with more events, and where its
intents still agree and its sender is not in conflict it is submitted there, and released. -/
theorem submission_is_stable (hset : set.Le more) (hchecks : checks.Le checks') {outbound : Outbound}
    (h : (foldVault O set checks effectTypes).outbound.outbounds.get? messageId = some outbound)
    (hsubmitted : outbound.submitted = true) :
    ∃ outbound', (foldVault O more checks' effectTypes').outbound.outbounds.get? messageId =
        some outbound' ∧
      outbound'.work.isDue = false ∧
      ((∃ data, outbound'.intent = .consistent data) →
        (∀ entity, outbound'.sender = some entity → entity.conflict = false) →
        outbound'.submitted = true ∧
          messageId ∈ (foldVault O more checks' effectTypes').outbound.released) := by
  obtain ⟨first, rest, hevents, rfl⟩ := foldVault_get?.mp h
  -- the first intent is still recorded, so the message is still here
  have hin : first ∈ (more.of messageOut).filter (·.data.messageId = messageId) := by
    have hfirst : first ∈ (set.of messageOut).filter (·.data.messageId = messageId) := by
      rw [hevents]
      exact List.mem_cons_self
    obtain ⟨hfirst, hid⟩ := List.mem_filter.mp hfirst
    exact List.mem_filter.mpr ⟨hset.of_mem hfirst, hid⟩
  cases hafter : (more.of messageOut).filter (·.data.messageId = messageId) with
  | nil => rw [hafter] at hin; cases hin
  | cons first' rest' =>
    rw [hafter] at hin
    have hget : (foldVault O more checks' effectTypes').outbound.outbounds.get? messageId = some _ :=
      foldVault_get?.mpr ⟨first', rest', hafter, rfl⟩
    refine ⟨_, hget, ?_⟩
    cases hintent : (intentOf O first' rest').data with
    | none =>
      refine ⟨not_due_of_disagreement hintent, ?_⟩
      rintro ⟨data, hconsistent⟩
      have hsame : intentOf O first' rest' = .consistent data := hconsistent
      rw [hsame] at hintent
      cases hintent
    | some data' =>
      obtain ⟨entity', hentity', hstill⟩ : ∃ entity',
          (foldVault O more checks' effectTypes').dids.entities.get? data'.senderDidId = some entity' ∧ _ :=
        submitted_stable hset hchecks hin hintent hsubmitted
      cases hconflict : entity'.conflict with
      | true =>
        refine ⟨not_due_of_conflict hintent hentity' hconflict, fun _ hsender => ?_⟩
        have hfound : (intentOf O first' rest').data.bind (fun data =>
            (foldVault O more checks' effectTypes').dids.entities.get? data.senderDidId) =
            some entity' := by
          rw [hintent, Option.bind_some, hentity']
        exact absurd (hconflict.symm.trans (hsender entity' (outboundOf_sender.trans hfound))) (by decide)
      | false =>
        have hstill := hstill hconflict
        refine ⟨not_due_of_submitted hstill, fun _ _ => ⟨hstill, released_of_get? hget ?_⟩⟩
        have hsome : (intentOf O first' rest').data.isSome = true := by
          rw [hintent]
          rfl
        rw [outboundOf_released, hstill, Bool.true_or, Bool.and_true]
        exact hsome

end Vaults

/-! ## An example: a cancellation after the submission -/

section Example

/-- Prepared and submitted. -/
def submittedSet : VaultEventSet :=
  (intentSet.apply (eventWith (lit "4") (.messagePrepared
    ⟨lit "m", lit "d", agreementName, lit "did:web:p", lit "2", lit "i", lit "e"⟩)).event
    (.messagePrepared ⟨lit "m", lit "d", agreementName, lit "did:web:p", lit "2", lit "i", lit "e"⟩)
    (by decide) rfl).apply (eventWith (lit "5") (.deliverySubmitted ⟨lit "m", lit "4"⟩)).event
    (.deliverySubmitted ⟨lit "m", lit "4"⟩) (by decide) rfl

/-- A cancellation that comes after it. -/
def cancelledSet : VaultEventSet :=
  submittedSet.apply (eventWith (lit "6") (.deliveryFailed ⟨lit "m", .cancelled⟩)).event
    (.deliveryFailed ⟨lit "m", .cancelled⟩) (by decide) rfl

theorem submission_is_stable_example :
    ∃ outbound, (foldVault readable cancelledSet allVerified []).outbound.outbounds.get? (lit "m") =
      some outbound ∧ outbound.work.isDue = false := by
  have hsubmitted : ((foldVault readable submittedSet allVerified []).outbound.outbounds.get?
      (lit "m")).map Outbound.submitted = some true := by decide +kernel
  obtain ⟨outbound, hget, hsubmitted⟩ := Option.map_eq_some_iff.mp hsubmitted
  have hset : submittedSet.Le cancelledSet := ⟨List.subset_append_left _ _, List.Subset.refl _⟩
  have hchecks : allVerified.Le allVerified :=
    ⟨fun _ _ h => h, fun _ _ h => h, fun _ _ h => h, fun _ _ h => h⟩
  obtain ⟨outbound', hget', hdue, -⟩ :=
    submission_is_stable readable [] [] hset hchecks hget hsubmitted
  exact ⟨outbound', hget', hdue⟩

end Example

end Estoc.Vault
