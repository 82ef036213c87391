import Estoc.Vault.Appended
import Estoc.Vault.Stable

/-!
# Admission is stable

An admission that is effective stays effective with more events, and the input one established
stays established, whatever else is learned: rotations, denials, further arrivals. What may
end either is the entity the observation is at falling into conflict, and for the input a
second admitted observation of another intent.
-/

set_option linter.unusedSectionVars false

namespace Estoc.Vault

open Json (lit)
open Utf16 (JsString)

variable {O : Outside} {set more : VaultEventSet} {checks checks' : VaultChecks}
  {effectTypes : List JsString} {messageId : MessageId}

/-- A member of an input, and the observation it is. -/
theorem member_source {execution : Execution} {member : Member}
    (h : (foldVault O set checks effectTypes).inbound.ofMessage messageId = some execution)
    (hmember : member ∈ execution.members) :
    ∃ source, (foldVault O set checks effectTypes).channels.sources.get?
        member.source.event.cid = some source ∧
      source.event.data.messageId = messageId ∧ source.placed = some member.source ∧
      member = memberOf (foldVault O set checks effectTypes).channels
        (foldVault O set checks effectTypes).continuity
        (foldVault O set checks effectTypes).admissions member.source := by
  obtain ⟨first, rest, hplaced, rfl⟩ := foldInbound_get?.mp h
  obtain ⟨placed, hin, rfl⟩ := List.mem_map.mp hmember
  rw [← hplaced] at hin
  obtain ⟨source, hsource, hid, hsome⟩ := mem_placedIn.mp hin
  obtain ⟨key, hkey⟩ := OMap.mem_values.mp hsource
  have hevent : placed.event = source.event := by
    unfold Source.placed at hsome
    split at hsome
    · cases hsome
      rfl
    · cases hsome
  refine ⟨source, ?_, hid, hsome, rfl⟩
  change (foldVault O set checks effectTypes).channels.sources.get? placed.event.cid = some source
  rw [hevent, foldSources_cid hkey]
  exact hkey

/-- An observation placed is a member of its message's input. -/
theorem member_of_source {source : Source} {placed : PlacedSource} {cid : EventCid}
    (hsource : (foldVault O set checks effectTypes).channels.sources.get? cid = some source)
    (hplaced : source.placed = some placed) :
    ∃ execution, (foldVault O set checks effectTypes).inbound.ofMessage
        source.event.data.messageId = some execution ∧
      memberOf (foldVault O set checks effectTypes).channels
        (foldVault O set checks effectTypes).continuity
        (foldVault O set checks effectTypes).admissions placed ∈ execution.members ∧
      execution.status = executionStatus O (execution.members.filter (·.admitted)) := by
  have hin : placed ∈ placedIn (foldVault O set checks effectTypes).channels
      source.event.data.messageId :=
    mem_placedIn.mpr ⟨source, OMap.mem_values.mpr ⟨cid, hsource⟩, rfl, hplaced⟩
  cases hlist : placedIn (foldVault O set checks effectTypes).channels
      source.event.data.messageId with
  | nil => rw [hlist] at hin; cases hin
  | cons first rest =>
    refine ⟨_, foldInbound_get?.mpr ⟨first, rest, hlist, rfl⟩, ?_, rfl⟩
    rw [hlist] at hin
    exact List.mem_map_of_mem hin

theorem placed_eq_some {source : Source} {placed : PlacedSource} :
    source.placed = some placed ↔
      source.status = .complete placed.localDidId placed.resolution placed.channel ∧
        placed.event = source.event := by
  unfold Source.placed
  constructor
  · intro h
    split at h
    · rename_i hstatus
      cases h
      exact ⟨hstatus, rfl⟩
    · cases h
  · intro ⟨hstatus, hevent⟩
    rw [hstatus]
    dsimp only
    rw [← hevent]

/-- An observation that brought no proof witnesses once it is complete. -/
theorem witness_of_complete {source : Source} {placed : PlacedSource} {cid : EventCid}
    (hsource : (foldVault O set checks effectTypes).channels.sources.get? cid = some source)
    (hplaced : source.placed = some placed) (hproof : source.event.data.fromPrior = none) :
    (foldVault O set checks effectTypes).continuity.witness cid = .complete := by
  have hcarrier : (foldVault O set checks effectTypes).channels.carriers.get? cid = none := by
    rw [foldVault_carrier hsource, carried, hproof]
  exact Continuity.witness_of_proof_free _ hsource (placed_eq_some.mp hplaced).1 hcarrier

/-- The observation an execution rests on is at an entity a fold has no conflict of. -/
def VaultFold.InOrder (fold : VaultFold) (cid : EventCid) : Prop :=
  ∀ entity, fold.localEntity cid = some entity → entity.conflict = false

/-- Two admitted observations of an input that are of different intents. -/
def Execution.Disagrees (execution : Execution) : Prop :=
  ∃ a ∈ execution.members, ∃ b ∈ execution.members, a.admitted = true ∧ b.admitted = true ∧
    a.source.event.data.intentCid ≠ b.source.event.data.intentCid

/-- An execution whose intent is established. -/
def Execution.IsComplete (execution : Execution) : Prop :=
  ∃ intentCid kind firstWitness, execution.status = .complete intentCid kind firstWitness

/-- An input that an admitted proof-free observation established stays complete, unless two
admitted observations of it disagree. -/
theorem execution_stable (hset : set.Le more) (hchecks : checks.Le checks') {execution : Execution}
    {member : Member}
    (h : (foldVault O set checks effectTypes).inbound.ofMessage messageId = some execution)
    (hmember : member ∈ execution.members) (hadmitted : member.admitted = true)
    (hproof : member.source.event.data.fromPrior = none)
    (horder : (foldVault O more checks' effectTypes).InOrder member.source.event.cid) :
    ∃ execution', (foldVault O more checks' effectTypes).inbound.ofMessage messageId =
      some execution' ∧ (execution'.IsComplete ∨ execution'.Disagrees) := by
  obtain ⟨source, hsource, hid, hplaced, hsame⟩ := member_source h hmember
  obtain ⟨hstatus, hevent⟩ := placed_eq_some.mp hplaced
  have hadmitted : AdmissionFold.admitted (foldVault O set checks effectTypes).admissions
      member.source.event.cid = true := by
    rw [hsame] at hadmitted
    exact hadmitted
  obtain ⟨source', hsource', hevent', hstatus'⟩ :=
    source_stable hset hchecks hsource hstatus horder
  have hplaced' : source'.placed = some member.source :=
    placed_eq_some.mpr ⟨hstatus', hevent.trans hevent'.symm⟩
  obtain ⟨execution', hexecution', hin, hmade⟩ := member_of_source hsource' hplaced'
  rw [hevent', hid] at hexecution'
  refine ⟨execution', hexecution', ?_⟩
  have hadmitted' := admitted_stable hset hchecks hadmitted horder
  have hwitness : (foldVault O more checks' effectTypes).continuity.witness
      member.source.event.cid = .complete := by
    refine witness_of_complete hsource' hplaced' ?_
    rw [hevent', ← hevent]
    exact hproof
  by_cases hagree : execution'.Disagrees
  · exact Or.inr hagree
  · refine Or.inl ?_
    obtain ⟨kind, firstWitness, hcomplete⟩ := executionStatus_of_agree (O := O)
      (List.mem_filter.mpr ⟨hin, hadmitted'⟩) hwitness fun other hother => by
        obtain ⟨hother, hotheradmitted⟩ := List.mem_filter.mp hother
        exact not_not.mp fun hne => hagree ⟨other, hother, _, hin, hotheradmitted, hadmitted', hne⟩
    exact ⟨_, kind, firstWitness, hmade.trans hcomplete⟩

variable (O) (effectTypes)

/-- With more events and more verdicts, an admission that is effective stays effective, and an
input an admitted proof-free witness established stays complete unless two admitted
observations of it disagree; both while the entity the observation is at stays out of
conflict. -/
theorem admission_is_stable (hset : set.Le more) (hchecks : checks.Le checks') :
    (∀ cid, AdmissionFold.admitted (foldVault O set checks effectTypes).admissions cid = true →
      (foldVault O more checks' effectTypes).InOrder cid →
      AdmissionFold.admitted (foldVault O more checks' effectTypes).admissions cid = true) ∧
    ∀ messageId execution,
      (foldVault O set checks effectTypes).inbound.ofMessage messageId = some execution →
      execution.IsComplete → ∀ member ∈ execution.members, member.admitted = true →
      member.witness = .complete → member.source.event.data.fromPrior = none →
      (foldVault O more checks' effectTypes).InOrder member.source.event.cid →
      ∃ execution', (foldVault O more checks' effectTypes).inbound.ofMessage messageId =
        some execution' ∧ (execution'.IsComplete ∨ execution'.Disagrees) := by
  refine ⟨?_, ?_⟩
  · intro cid hadmitted horder
    exact admitted_stable hset hchecks hadmitted horder
  · intro messageId execution h _ member hmember hadmitted _ hproof horder
    exact execution_stable hset hchecks h hmember hadmitted hproof horder

/-! ## An example: an admitted observation, and a denial after it -/

section Example

/-- An observation, admitted. -/
def admittedSet : VaultEventSet where
  read := [
    eventWith (lit "1") (.didCreated ⟨lit "d", shortDid, shortDid ++ lit ":z111111", .entry (lit "p")⟩),
    eventWith (lit "2") (.peerResolved ⟨agreementName, lit "P", lit "did:web:p", lit "did:web:p", lit "doc"⟩),
    eventWith (lit "3") (.messageIn ⟨emptyContent [], lit "n", lit "w", agreementName,
      some ⟨lit "2", lit "did:web:p", lit "did:web:p"⟩, none⟩),
    eventWith (lit "4") (.messageAdmitted ⟨lit "3"⟩)]
  kept := []
  nodup := by decide
  rooted := by decide +kernel

/-- The pair blocked afterwards. -/
def blockedSet : VaultEventSet :=
  admittedSet.apply (eventWith (lit "5") (.channelBlocked ⟨shortDid, lit "did:web:p", true⟩)).event
    (.channelBlocked ⟨shortDid, lit "did:web:p", true⟩) (by decide) rfl

theorem admission_is_stable_example :
    AdmissionFold.admitted (foldVault readable blockedSet allVerified []).admissions (lit "3") = true := by
  have hset : admittedSet.Le blockedSet := ⟨List.subset_append_left _ _, List.Subset.refl _⟩
  have hchecks : allVerified.Le allVerified :=
    ⟨fun _ _ h => h, fun _ _ h => h, fun _ _ h => h, fun _ _ h => h⟩
  refine (admission_is_stable readable [] hset hchecks).1 (lit "3") (by decide +kernel) ?_
  intro entity hentity
  have hall : ((foldVault readable blockedSet allVerified []).localEntity (lit "3")).all
      (fun entity => !entity.conflict) = true := by decide +kernel
  rw [hentity] at hall
  simpa using hall

end Example

end Estoc.Vault
