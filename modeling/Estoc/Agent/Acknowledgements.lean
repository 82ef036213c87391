import Estoc.Vault.Receipts

/-!
# The receipts a pass records

A peer's acknowledgement is an observation, and what it acknowledges is read off the fold: for
each message with a complete preparation, the witnesses whose `ack` names it. The pass repeats
each witness as a record of the message, once for each local key, peer key, message and wire ID.

The record is read back another way, against every witness that shares its message ID. The two
agree since a witness is among those its own record is read against; and since no fold but that
of the receipts reads one, the witnesses it is read against are those it was drafted from.
-/

set_option linter.unusedSectionVars false

namespace Estoc.Agent

open Json (lit)
open Utf16 (JsString)
open Vault (MessageId KeyName PublicKey DeliveryAcknowledged PlacedSource Acknowledgement Outbound
  Outside VaultChecks VaultData VaultEvent VaultEventSet VaultFold Standing foldVault foldVault_get?
  vaultShared receiptsOf acknowledgementStatus preparedOf deliveryAcknowledged mismatchOf
  acknowledgements_eq prepared_of_ackWitnesses acknowledgementStatus_of_witness readable allVerified
  agreementName shortDid emptyContent eventWith)

/-! ## The pass -/

/-- What tells one receipt of a message from another. -/
def witnessKey (data : DeliveryAcknowledged) : KeyName × PublicKey × MessageId × JsString :=
  (data.localKeyName, data.peerPublicKey, data.ackMessageId, data.ackWireMessageId)

/-- A witness as a record of the message it acknowledges. -/
def receiptOf (messageId : MessageId) (source : PlacedSource) : DeliveryAcknowledged where
  messageId := messageId
  localKeyName := source.event.data.localKeyName
  peerPublicKey := source.resolution.data.peerPublicKey
  ackMessageId := source.event.data.messageId
  ackWireMessageId := source.event.data.wireMessageId

/-- The receipts of a message not recorded yet, each recorded as it is drafted. -/
def draftsFor (messageId : MessageId) :
    List (KeyName × PublicKey × MessageId × JsString) → List PlacedSource → List DeliveryAcknowledged
  | _, [] => []
  | recorded, source :: rest =>
    let data := receiptOf messageId source
    if witnessKey data ∈ recorded then draftsFor messageId recorded rest
    else data :: draftsFor messageId (witnessKey data :: recorded) rest

/-- The acknowledgements the complete witnesses earn and no record repeats yet, in message
order, then canonical event order. -/
def acknowledgementDrafts (fold : VaultFold) : List DeliveryAcknowledged :=
  (Cmp.sortBy (Cmp.comap Outbound.messageId Json.compareUnits) fold.outbound.outbounds.values).flatMap
    fun outbound => draftsFor outbound.messageId
      (outbound.acknowledgements.map fun acknowledgement => witnessKey acknowledgement.event.data)
      outbound.ackWitnesses

/-! ## What it drafts -/

section Drafts

variable {messageId : MessageId} {recorded : List (KeyName × PublicKey × MessageId × JsString)}
  {witnesses : List PlacedSource} {draft : DeliveryAcknowledged}

/-- The key tells the receipts of a message apart. -/
theorem eq_of_witnessKey {data other : DeliveryAcknowledged} (hid : data.messageId = other.messageId)
    (hkey : witnessKey data = witnessKey other) : data = other := by
  cases data
  cases other
  simp only [witnessKey, Prod.mk.injEq] at hkey
  obtain ⟨rfl, rfl, rfl, rfl⟩ := hkey
  cases hid
  rfl

/-- A message's drafts are the receipts of its witnesses that are not recorded. -/
theorem mem_draftsFor : draft ∈ draftsFor messageId recorded witnesses ↔
    witnessKey draft ∉ recorded ∧ ∃ source ∈ witnesses, draft = receiptOf messageId source := by
  induction witnesses generalizing recorded with
  | nil => simp [draftsFor]
  | cons source rest ih =>
    unfold draftsFor
    dsimp only
    split
    · next hin =>
      rw [ih]
      constructor
      · intro ⟨hfresh, other, hother, heq⟩
        exact ⟨hfresh, other, List.mem_cons_of_mem _ hother, heq⟩
      · intro ⟨hfresh, other, hother, heq⟩
        rcases List.mem_cons.mp hother with rfl | hother
        · exact absurd (heq ▸ hin) hfresh
        · exact ⟨hfresh, other, hother, heq⟩
    · next hout =>
      rw [List.mem_cons, ih]
      constructor
      · rintro (rfl | ⟨hfresh, other, hother, heq⟩)
        · exact ⟨hout, source, List.mem_cons_self, rfl⟩
        · exact ⟨fun hin => hfresh (List.mem_cons_of_mem _ hin), other,
            List.mem_cons_of_mem _ hother, heq⟩
      · intro ⟨hfresh, other, hother, heq⟩
        by_cases hsame : draft = receiptOf messageId source
        · exact .inl hsame
        · rcases List.mem_cons.mp hother with rfl | hother
          · exact absurd heq hsame
          · refine .inr ⟨fun hin => ?_, other, hother, heq⟩
            rcases List.mem_cons.mp hin with hkey | hin
            · exact hsame (eq_of_witnessKey (by rw [heq]; rfl) hkey)
            · exact hfresh hin

theorem messageId_of_mem_draftsFor (h : draft ∈ draftsFor messageId recorded witnesses) :
    draft.messageId = messageId := by
  obtain ⟨-, source, -, rfl⟩ := mem_draftsFor.mp h
  rfl

theorem nodup_draftsFor : (draftsFor messageId recorded witnesses).Nodup := by
  induction witnesses generalizing recorded with
  | nil => exact List.nodup_nil
  | cons source rest ih =>
    unfold draftsFor
    dsimp only
    split
    · exact ih
    · refine List.nodup_cons.mpr ⟨fun hmem => ?_, ih⟩
      exact (mem_draftsFor.mp hmem).1 List.mem_cons_self

end Drafts

section Pass

variable {O : Outside} {set more : VaultEventSet} {checks : VaultChecks} {effectTypes : List JsString}
  {messageId : MessageId} {outbound : Outbound} {draft : DeliveryAcknowledged}

theorem messageId_of_get?
    (h : (foldVault O set checks effectTypes).outbound.outbounds.get? messageId = some outbound) :
    outbound.messageId = messageId := by
  obtain ⟨first, rest, -, rfl⟩ := foldVault_get?.mp h
  rfl

/-- The messages of a fold have message IDs of their own. -/
theorem nodup_messageIds : ((foldVault O set checks effectTypes).outbound.outbounds.values.map
    Outbound.messageId).Nodup := by
  have hkeys : (foldVault O set checks effectTypes).outbound.outbounds.values.map Outbound.messageId =
      (foldVault O set checks effectTypes).outbound.outbounds.keys := by
    rw [OMap.values, OMap.keys, List.map_map]
    exact List.map_congr_left fun entry hentry => messageId_of_get? (OMap.mem_entries.mp hentry)
  rw [hkeys]
  exact OMap.nodup_keys _

/-- What the pass drafts, by message. -/
theorem mem_acknowledgementDrafts :
    draft ∈ acknowledgementDrafts (foldVault O set checks effectTypes) ↔
      ∃ outbound, (foldVault O set checks effectTypes).outbound.outbounds.get? draft.messageId =
          some outbound ∧
        (∀ acknowledgement ∈ outbound.acknowledgements,
          witnessKey acknowledgement.event.data ≠ witnessKey draft) ∧
        ∃ source ∈ outbound.ackWitnesses, draft = receiptOf draft.messageId source := by
  rw [acknowledgementDrafts, List.mem_flatMap]
  constructor
  · intro ⟨outbound, hvalue, hdraft⟩
    obtain ⟨key, hget⟩ := OMap.mem_values.mp (Cmp.mem_sortBy.mp hvalue)
    have hid := messageId_of_mem_draftsFor hdraft
    obtain ⟨hfresh, source, hsource, heq⟩ := mem_draftsFor.mp hdraft
    refine ⟨outbound, ?_, fun acknowledgement hmem hkey => ?_, source, hsource, ?_⟩
    · rw [hid, messageId_of_get? hget]
      exact hget
    · exact hfresh (hkey ▸ List.mem_map_of_mem hmem)
    · rw [hid]
      exact heq
  · intro ⟨outbound, hget, hfresh, source, hsource, heq⟩
    have hid := messageId_of_get? hget
    refine ⟨outbound, Cmp.mem_sortBy.mpr (OMap.mem_values.mpr ⟨_, hget⟩), mem_draftsFor.mpr
      ⟨fun hin => ?_, source, hsource, ?_⟩⟩
    · obtain ⟨acknowledgement, hmem, hkey⟩ := List.mem_map.mp hin
      exact hfresh acknowledgement hmem hkey
    · rw [hid]
      exact heq

theorem nodup_acknowledgementDrafts :
    (acknowledgementDrafts (foldVault O set checks effectTypes)).Nodup := by
  have hvalues : ((Cmp.sortBy (Cmp.comap Outbound.messageId Json.compareUnits)
      (foldVault O set checks effectTypes).outbound.outbounds.values).map Outbound.messageId).Nodup :=
    ((Cmp.sortBy_perm _).map _).nodup_iff.mpr nodup_messageIds
  rw [acknowledgementDrafts, List.nodup_flatMap]
  refine ⟨fun _ _ => nodup_draftsFor, (List.pairwise_map.mp hvalues).imp fun hne => ?_⟩
  intro draft hdraft hdraft'
  exact hne ((messageId_of_mem_draftsFor hdraft).symm.trans (messageId_of_mem_draftsFor hdraft'))

/-! ## What is read back -/

/-- A record of a witness of a message is complete. -/
theorem complete_of_witness
    (hget : (foldVault O set checks effectTypes).outbound.outbounds.get? messageId = some outbound)
    {source : PlacedSource} (hsource : source ∈ outbound.ackWitnesses)
    {event : VaultEvent DeliveryAcknowledged} (hevent : event ∈ set.of deliveryAcknowledged)
    (hdata : event.data = receiptOf messageId source) :
    Acknowledgement.mk event .complete ∈ outbound.acknowledgements := by
  have hstatus : acknowledgementStatus (vaultShared O set checks effectTypes)
      (preparedOf outbound.preparations) outbound.ackWitnesses event.data = .complete := by
    rw [prepared_of_ackWitnesses hget hsource]
    refine acknowledgementStatus_of_witness hsource (by rw [hdata]; rfl) ?_
    rw [hdata]
    simp [mismatchOf, receiptOf]
  have hreceipt : event ∈ receiptsOf set messageId :=
    List.mem_filter.mpr ⟨hevent, decide_eq_true (by rw [hdata]; rfl)⟩
  rw [acknowledgements_eq hget]
  exact List.mem_map.mpr ⟨event, hreceipt, by rw [hstatus]⟩

/-- Each witness of a message is repeated by a record of it. -/
theorem recorded_of_witness
    (happends : set.Appends ((acknowledgementDrafts (foldVault O set checks effectTypes)).map
      VaultData.deliveryAcknowledged) more)
    (hget : (foldVault O set checks effectTypes).outbound.outbounds.get? messageId = some outbound)
    {source : PlacedSource} (hsource : source ∈ outbound.ackWitnesses) :
    ∃ event ∈ more.of deliveryAcknowledged, event.data = receiptOf messageId source := by
  by_cases hrecorded : ∃ acknowledgement ∈ outbound.acknowledgements,
      witnessKey acknowledgement.event.data = witnessKey (receiptOf messageId source)
  · obtain ⟨acknowledgement, hmem, hkey⟩ := hrecorded
    rw [acknowledgements_eq hget] at hmem
    obtain ⟨event, hevent, rfl⟩ := List.mem_map.mp hmem
    obtain ⟨hevent, hid⟩ := List.mem_filter.mp hevent
    exact ⟨event, happends.appended.le.of_mem hevent, eq_of_witnessKey (of_decide_eq_true hid) hkey⟩
  · have hdraft : receiptOf messageId source ∈ acknowledgementDrafts (foldVault O set checks effectTypes) :=
      mem_acknowledgementDrafts.mpr ⟨outbound, hget,
        fun acknowledgement hmem hkey => hrecorded ⟨acknowledgement, hmem, hkey⟩, source, hsource, rfl⟩
    obtain ⟨event, hevent, hdata⟩ := happends.appended.exists_read (List.mem_map_of_mem hdraft)
    exact ⟨⟨event.event, receiptOf messageId source⟩,
      VaultEventSet.mem_of.mpr ⟨event, hevent, rfl, by rw [hdata]; rfl⟩, rfl⟩

/-- A message without its receipts. -/
def withoutReceipts (outbound : Outbound) : Outbound := { outbound with acknowledgements := [] }

/-- What committing the receipts a pass drafted comes to. -/
structure RecordsEach (fold again : VaultFold) (drafts : List DeliveryAcknowledged) : Prop where
  complete : ∀ messageId outbound, again.outbound.outbounds.get? messageId = some outbound →
    ∀ source ∈ outbound.ackWitnesses, ∃ acknowledgement ∈ outbound.acknowledgements,
      acknowledgement.event.data = receiptOf messageId source ∧ acknowledgement.status = .complete
  /-- No key is drafted twice for one message, -/
  once : (drafts.map fun draft => (draft.messageId, witnessKey draft)).Nodup
  /-- nor where a record of the message has it, whatever it came to. -/
  fresh : ∀ draft ∈ drafts, ∀ outbound,
    fold.outbound.outbounds.get? draft.messageId = some outbound →
    ∀ acknowledgement ∈ outbound.acknowledgements,
      witnessKey acknowledgement.event.data ≠ witnessKey draft
  /-- Every message is what it was: its witnesses, its submissions, its work. -/
  unchanged : ∀ messageId, (again.outbound.outbounds.get? messageId).map withoutReceipts =
    (fold.outbound.outbounds.get? messageId).map withoutReceipts

variable (O set checks effectTypes)

/-- After the receipts a pass drafted are committed, every witness is repeated by a complete
record of its message, nothing else of any message is changed, and no receipt is drafted again. -/
theorem receipts_are_recorded (more : VaultEventSet) (hun : set.Unforeseen more)
    (happends : set.Appends ((acknowledgementDrafts (foldVault O set checks effectTypes)).map
      VaultData.deliveryAcknowledged) more) :
    RecordsEach (foldVault O set checks effectTypes) (foldVault O more checks effectTypes)
        (acknowledgementDrafts (foldVault O set checks effectTypes)) ∧
      acknowledgementDrafts (foldVault O more checks effectTypes) = [] := by
  have hreceipts : ∀ data ∈ (acknowledgementDrafts (foldVault O set checks effectTypes)).map
      VaultData.deliveryAcknowledged, data.isReceipt = true := by
    intro data hdata
    obtain ⟨draft, -, rfl⟩ := List.mem_map.mp hdata
    rfl
  have hcomplete : ∀ messageId outbound,
      (foldVault O more checks effectTypes).outbound.outbounds.get? messageId = some outbound →
      ∀ source ∈ outbound.ackWitnesses, ∃ acknowledgement ∈ outbound.acknowledgements,
        acknowledgement.event.data = receiptOf messageId source ∧
          acknowledgement.status = .complete := by
    intro messageId outbound hget source hsource
    have hmap := hget
    rw [happends.appended.outbound_eq hreceipts hun] at hmap
    obtain ⟨old, hold, rfl⟩ := Option.map_eq_some_iff.mp hmap
    obtain ⟨event, hevent, hdata⟩ := recorded_of_witness happends hold hsource
    exact ⟨_, complete_of_witness hget hsource hevent hdata, hdata, rfl⟩
  refine ⟨⟨hcomplete, ?_, ?_, ?_⟩, ?_⟩
  · refine nodup_acknowledgementDrafts.map fun draft other hsame => ?_
    obtain ⟨hid, hkey⟩ := Prod.mk.inj hsame
    exact eq_of_witnessKey hid hkey
  · intro draft hdraft outbound hget
    obtain ⟨found, hfound, hfresh, -⟩ := mem_acknowledgementDrafts.mp hdraft
    cases hget.symm.trans hfound
    exact hfresh
  · intro messageId
    rw [happends.appended.outbound_eq hreceipts hun, Option.map_map]
    rfl
  · rw [List.eq_nil_iff_forall_not_mem]
    intro draft hdraft
    obtain ⟨outbound, hget, hfresh, source, hsource, heq⟩ := mem_acknowledgementDrafts.mp hdraft
    obtain ⟨acknowledgement, hmem, hdata, -⟩ := hcomplete _ _ hget source hsource
    refine hfresh acknowledgement hmem ?_
    rw [hdata, ← heq]

end Pass

/-! ## An example: one message, acknowledged by an admitted observation -/

section Example

/-- A message prepared, and an admitted observation that acknowledges it. -/
def acknowledgedSet : VaultEventSet where
  read := [
    eventWith (lit "1") (.didCreated ⟨lit "d", shortDid, shortDid ++ lit ":z111111", .entry (lit "p")⟩),
    eventWith (lit "2") (.peerResolved ⟨agreementName, lit "P", lit "did:web:p", lit "did:web:p", lit "doc"⟩),
    eventWith (lit "3") (.messageOut ⟨emptyContent [], lit "m", lit "d", lit "did:web:p", none, none⟩),
    eventWith (lit "4") (.messagePrepared
      ⟨lit "m", lit "d", agreementName, lit "did:web:p", lit "2", lit "i", lit "e"⟩),
    eventWith (lit "5") (.messageIn ⟨emptyContent [lit "m"], lit "n", lit "w", agreementName,
      some ⟨lit "2", lit "did:web:p", lit "did:web:p"⟩, none⟩),
    eventWith (lit "6") (.messageAdmitted ⟨lit "5"⟩)]
  kept := []
  nodup := by decide
  rooted := by decide +kernel

def receipt : DeliveryAcknowledged := ⟨lit "m", agreementName, lit "P", lit "n", lit "w"⟩

def receivedSet : VaultEventSet :=
  acknowledgedSet.apply (eventWith (lit "7") (.deliveryAcknowledged receipt)).event
    (.deliveryAcknowledged receipt) (by decide) rfl

theorem receipts_are_recorded_example :
    acknowledgementDrafts (foldVault readable acknowledgedSet allVerified []) = [receipt] ∧
      acknowledgedSet.Unforeseen receivedSet ∧
      acknowledgementDrafts (foldVault readable receivedSet allVerified []) = [] := by
  have hdrafts : acknowledgementDrafts (foldVault readable acknowledgedSet allVerified []) = [receipt] := by
    decide +kernel
  have hun : acknowledgedSet.Unforeseen receivedSet := by
    unfold VaultEventSet.Unforeseen
    decide +kernel
  have happends : acknowledgedSet.Appends ((acknowledgementDrafts
      (foldVault readable acknowledgedSet allVerified [])).map VaultData.deliveryAcknowledged)
      receivedSet := by
    rw [hdrafts]
    exact .next (eventWith (lit "7") (.deliveryAcknowledged receipt)).event (by decide) rfl (.none _)
  exact ⟨hdrafts, hun,
    (receipts_are_recorded readable acknowledgedSet allVerified [] receivedSet hun happends).2⟩

end Example

end Estoc.Agent
