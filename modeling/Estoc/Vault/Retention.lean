import Estoc.Vault.Appended

/-!
# Work that is due is held

What a message still has to be prepared from or sent as is among the roots the fold holds. The
two folds meet in two facts about a message that has work: no erasure names it, and it is not
released. From the first its roots are kept whatever the erasures of other messages say, and
from the second its envelopes.
-/

set_option linter.unusedSectionVars false

namespace Estoc.Vault

open Json (lit)
open Utf16 (JsString)

/-! ## The two folds -/

/-- A message no erasure names has no root erased. -/
theorem erased_of_not_has {erasures : Erasures} {messageId : MessageId}
    (h : erasures.has messageId = false) (root : Cid) : erased erasures messageId root = false := by
  rw [erased, OMap.get?_eq_none.mpr (OMap.has_eq_false.mp h)]
  rfl

section Held

variable {set : VaultEventSet} {erasures : Erasures} {released : List MessageId}

/-- What an event still retains is held. -/
theorem mem_heldRoots {event : VaultEvent VaultData} {root : Cid} (hevent : event ∈ set.read)
    (hroot : root ∈ rootsKept erasures released event) :
    root ∈ heldRoots set erasures released := by
  rw [heldRoots, OMap.mem_once, List.mem_map]
  refine ⟨⟨event.cid, root⟩, ?_, rfl⟩
  rw [retainedRoots, Cmp.mem_sortBy]
  refine List.mem_append_right _ (List.mem_flatMap.mpr ⟨event, hevent, ?_⟩)
  exact List.mem_map_of_mem hroot

theorem held_of_messageOut {event : VaultEvent MessageOut} {root : Cid}
    (hevent : event ∈ set.of messageOut) (herased : erasures.has event.data.messageId = false)
    (hroot : root ∈ event.event.roots) : root ∈ heldRoots set erasures released := by
  obtain ⟨read, hread, hsame, hdata⟩ := VaultEventSet.mem_of.mp hevent
  refine mem_heldRoots hread ?_
  cases hread : read.data with
  | messageOut data =>
    rw [hread] at hdata
    cases hdata
    rw [rootsKept, hread]
    exact List.mem_filter.mpr ⟨hsame ▸ hroot, by rw [erased_of_not_has herased]; rfl⟩
  | _ => rw [hread] at hdata; cases hdata

theorem held_of_messagePrepared {event : VaultEvent MessagePrepared}
    (hevent : event ∈ set.of messagePrepared)
    (herased : erased erasures event.data.messageId event.data.envelopeCid = false)
    (hreleased : event.data.messageId ∉ released) :
    event.data.envelopeCid ∈ heldRoots set erasures released := by
  obtain ⟨read, hread, -, hdata⟩ := VaultEventSet.mem_of.mp hevent
  refine mem_heldRoots hread ?_
  have hroots := set.rooted read hread
  cases hread : read.data with
  | messagePrepared data =>
    rw [hread] at hdata hroots
    cases hdata
    rw [rootsKept, hread]
    simp only [List.contains_eq_mem, hreleased, decide_false, Bool.false_eq_true, if_false]
    rw [hroots]
    exact List.mem_filter.mpr ⟨List.mem_singleton_self _, by rw [herased]; rfl⟩
  | _ => rw [hread] at hdata; cases hdata

end Held

/-! ## A message with work -/

/-- What leaves work: something to prepare, or something to carry. -/
def Work.isDue : Work → Bool
  | .none _ => false
  | .prepare => true
  | .dispatch _ => true

/-- An outcome that leaves work. -/
def Outcome.isOpen : Outcome → Bool
  | .prepared => true
  | .queued => true
  | _ => false

section Work

variable {dids : DidFold} {continuity : Continuity} {w : WorkInputs}

/-- Work is due only where the outcome leaves some and no erasure names the message. -/
theorem workOf_due (h : (workOf dids continuity w).isDue = true) :
    w.outcome.isOpen = true ∧ w.erased = false := by
  have hopen : w.outcome.isOpen = true ∧ (workLeft dids continuity w).isDue = true := by
    cases hout : w.outcome with
    | conflict because => rw [workOf, hout] at h; cases h
    | submitted => rw [workOf, hout] at h; cases h
    | terminal code => rw [workOf, hout] at h; cases h
    | prepared => rw [workOf, hout] at h; exact ⟨rfl, h⟩
    | queued => rw [workOf, hout] at h; exact ⟨rfl, h⟩
  refine ⟨hopen.1, ?_⟩
  cases herased : w.erased with
  | false => rfl
  | true =>
    have hleft := hopen.2
    rw [workLeft, herased] at hleft
    cases hleft

/-- What is dispatched is carried among the candidates. -/
theorem workOf_dispatch {candidates : List Preparation}
    (h : workOf dids continuity w = .dispatch candidates) : candidates = candidatesOf w.preparations := by
  have hleft : workLeft dids continuity w = .dispatch candidates := by
    cases hout : w.outcome <;> rw [workOf, hout] at h <;> first | exact h | cases h
  unfold workLeft at hleft
  split at hleft
  · cases hleft
  · split at hleft
    · cases hleft
    · cases hleft
    · split at hleft
      · cases hleft
      · repeat' split at hleft
        all_goals cases hleft
        rfl

/-- An outcome that leaves work is of a message neither submitted nor terminal. -/
theorem outcomeOf_open {fault : Option JsString} {submitted : Bool} {terminal : Option Termination}
    {preparations : List Preparation}
    (h : (outcomeOf fault submitted terminal preparations).isOpen = true) :
    submitted = false ∧ terminal = none := by
  cases fault with
  | some because => cases h
  | none =>
    cases submitted with
    | true => cases h
    | false =>
      cases terminal with
      | some termination => cases h
      | none => exact ⟨rfl, rfl⟩

end Work

section Outbounds

variable {inputs : Shared} {skips : Skips} {messageId : MessageId} {first : VaultEvent MessageOut}
  {rest : List (VaultEvent MessageOut)} {records : Records}

/-- A message with work is not released, and no erasure names it. -/
theorem outboundOf_due
    (h : (outboundOf inputs skips messageId first rest records).work.isDue = true) :
    (outboundOf inputs skips messageId first rest records).released = false ∧
      inputs.erasures.has messageId = false := by
  obtain ⟨hopen, herased⟩ := workOf_due h
  obtain ⟨hsubmitted, hterminal⟩ := outcomeOf_open hopen
  refine ⟨?_, herased⟩
  unfold outboundOf
  simp only [hsubmitted, hterminal, Option.isSome_none, Bool.or_self, Bool.and_false]

/-- What it dispatches are preparations of it that no erasure names. -/
theorem outboundOf_dispatch {candidates : List Preparation} {candidate : Preparation}
    (h : (outboundOf inputs skips messageId first rest records).work = .dispatch candidates)
    (hc : candidate ∈ candidates) : candidate.event ∈ records.preparations := by
  rw [workOf_dispatch h] at hc
  obtain ⟨event, hevent, rfl⟩ := List.mem_map.mp (List.mem_of_mem_filter hc)
  exact hevent

end Outbounds

section Fold

variable (O : Outside) (set : VaultEventSet) (checks : VaultChecks) (effectTypes : List JsString)

/-- A message with work is not among those the fold releases. -/
theorem not_released_of_due {messageId : MessageId} {outbound : Outbound}
    (h : (foldVault O set checks effectTypes).outbound.outbounds.get? messageId = some outbound)
    (hdue : outbound.work.isDue = true) :
    messageId ∉ (foldVault O set checks effectTypes).outbound.released := by
  intro hmem
  obtain ⟨other, hother, hreleased⟩ := foldVault_released hmem
  rw [h] at hother
  cases hother
  obtain ⟨first, rest, -, hout⟩ := foldVault_get?.mp h
  rw [hout] at hdue hreleased
  rw [(outboundOf_due hdue).1] at hreleased
  cases hreleased

/-- The roots of a message still to prepare, and the envelopes of one still to carry, are
held. -/
theorem due_is_held {messageId : MessageId} {outbound : Outbound}
    (h : (foldVault O set checks effectTypes).outbound.outbounds.get? messageId = some outbound) :
    (outbound.work = .prepare → ∀ event ∈ outbound.intents, ∀ root ∈ event.event.roots,
      root ∈ (foldVault O set checks effectTypes).held) ∧
    ∀ candidates, outbound.work = .dispatch candidates → ∀ candidate ∈ candidates,
      candidate.event.data.envelopeCid ∈ (foldVault O set checks effectTypes).held := by
  obtain ⟨first, rest, hevents, hout⟩ := foldVault_get?.mp h
  refine ⟨?_, ?_⟩
  · intro hwork event hevent root hroot
    have hdue : outbound.work.isDue = true := by rw [hwork]; rfl
    rw [hout] at hdue hevent
    have hin : event ∈ (set.of messageOut).filter (·.data.messageId = messageId) := by
      rw [hevents]
      exact hevent
    obtain ⟨hin, hid⟩ := List.mem_filter.mp hin
    refine held_of_messageOut hin ?_ hroot
    rw [of_decide_eq_true hid]
    exact (outboundOf_due hdue).2
  · intro candidates hwork candidate hcandidate
    have hdue : outbound.work.isDue = true := by rw [hwork]; rfl
    rw [hout] at hwork
    have hrecord := outboundOf_dispatch hwork hcandidate
    rw [recordsOf, OMap.getD_groupBy] at hrecord
    obtain ⟨hin, hid⟩ := List.mem_filter.mp hrecord
    have hid := of_decide_eq_true hid
    have hreleased := not_released_of_due O set checks effectTypes h hdue
    rw [hout] at hdue
    refine held_of_messagePrepared hin ?_ ?_
    · rw [hid]
      exact erased_of_not_has (outboundOf_due hdue).2 _
    · rw [hid]
      exact hreleased

end Fold

/-! ## An example: an intent to prepare -/

section Example

/-- An intent under a creation that reads. -/
def intentSet : VaultEventSet where
  read := [
    eventWith (lit "1") (.didCreated ⟨lit "d", shortDid, shortDid ++ lit ":z111111", .entry (lit "p")⟩),
    eventWith (lit "2") (.peerResolved ⟨agreementName, lit "P", lit "did:web:p", lit "did:web:p", lit "doc"⟩),
    eventWith (lit "3") (.messageOut ⟨emptyContent [], lit "m", lit "d", lit "did:web:p", none, none⟩)]
  kept := []
  nodup := by decide
  rooted := by decide +kernel

theorem due_is_held_example : lit "b" ∈ (foldVault readable intentSet allVerified []).held := by
  have hwork : ((foldVault readable intentSet allVerified []).outbound.outbounds.get? (lit "m")).map
      Outbound.work = some .prepare := by rfl
  have hroots : ((foldVault readable intentSet allVerified []).outbound.outbounds.get? (lit "m")).map
      (fun outbound => outbound.intents.map fun event => event.event.roots) = some [[lit "b"]] := by
    decide +kernel
  obtain ⟨outbound, hget, hprepare⟩ := Option.map_eq_some_iff.mp hwork
  rw [hget, Option.map_some, Option.some.injEq] at hroots
  obtain ⟨event, hevent, hroot⟩ := List.map_eq_singleton_iff.mp hroots
  refine (due_is_held readable intentSet allVerified [] hget).1 hprepare event ?_ (lit "b") ?_
  · rw [hevent]
    exact List.mem_singleton_self _
  · rw [hroot]
    exact List.mem_singleton_self _

end Example

end Estoc.Vault
