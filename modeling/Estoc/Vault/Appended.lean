import Estoc.Vault.Fold

/-!
# Events appended

A pass reads one fold, drafts events of one type and appends them. Most folds read no event of
that type, and so find what they found: an event of another type is of the set as it was, and a
reference finds the event it found. A reference that found none could only find one of the
appended events, and none names one: a CID is the hash of an event, which what was written
before it cannot name.
-/

set_option linter.unusedSectionVars false

namespace Estoc.Vault

open Utf16 (JsString)

/-- The events of some payloads appended one after another, each under a CID of its own. -/
inductive VaultEventSet.Appends : VaultEventSet → List VaultData → VaultEventSet → Prop
  | none (set : VaultEventSet) : Appends set [] set
  | next {set more : VaultEventSet} {data : VaultData} {rest : List VaultData}
      (event : EventStore.Event) (fresh : ¬ set.has event.cid = true)
      (roots : event.roots = data.rootsOf)
      (appends : Appends (set.apply event data fresh roots) rest more) :
      Appends set (data :: rest) more

/-- The events a payload refers to. -/
def VaultData.references : VaultData → List EventCid
  | .messageAdmitted data => [data.sourceEventCid]
  | .rotationSelected data => data.sourceEventCid.toList
  | .messageOut data => data.effect.toList.map (·.sourceEventCid) ++ data.rotationEventCid.toList
  | .messageIn data => data.peer.toList.map (·.peerResolutionEventCid)
  | .messagePrepared data => [data.peerResolutionEventCid]
  | .deliverySubmitted data => [data.preparationEventCid]
  | .effectSkipped data => [data.sourceEventCid]
  | _ => []

/-- An event of one set refers to nothing that is only in the other. -/
def VaultEventSet.Unforeseen (set more : VaultEventSet) : Prop :=
  ∀ event ∈ set.read, ∀ reference ∈ event.data.references,
    more.has reference = true → set.has reference = true

/-! ## What appending leaves -/

section Appended

variable {set more : VaultEventSet} {datas : List VaultData} {α : Type} {kind : Kind α}

structure Appended (set more : VaultEventSet) (datas : List VaultData) : Prop where
  kept : more.kept = set.kept
  read : ∃ events, more.read = set.read ++ events ∧ events.map VaultEvent.data = datas ∧
    ∀ event ∈ events, event.event.roots = event.data.rootsOf

theorem VaultEventSet.Appends.appended (h : set.Appends datas more) : Appended set more datas := by
  induction h with
  | none set => exact ⟨rfl, [], by simp, rfl, by simp⟩
  | @next set more data rest event fresh roots appends ih =>
    obtain ⟨events, hread, hdata, hroots⟩ := ih.read
    refine ⟨ih.kept, ⟨event, data⟩ :: events, ?_, ?_, ?_⟩
    · rw [hread]
      exact List.append_assoc _ _ _
    · rw [List.map_cons, hdata]
    · intro other hother
      rcases List.mem_cons.mp hother with rfl | hother
      · exact roots
      · exact hroots other hother

namespace Appended

theorem le (h : Appended set more datas) : set.Le more := by
  obtain ⟨events, hread, -⟩ := h.read
  refine ⟨?_, ?_⟩
  · rw [hread]
    exact List.subset_append_left _ _
  · rw [h.kept]
    exact List.Subset.refl _

theorem mem_read (h : Appended set more datas) {event : VaultEvent VaultData}
    (hevent : event ∈ more.read) : event ∈ set.read ∨ event.data ∈ datas := by
  obtain ⟨events, hread, hdata, -⟩ := h.read
  rw [hread] at hevent
  refine (List.mem_append.mp hevent).imp_right fun hevent => ?_
  rw [← hdata]
  exact List.mem_map_of_mem hevent

theorem exists_read (h : Appended set more datas) {data : VaultData} (hdata : data ∈ datas) :
    ∃ event ∈ more.read, event.data = data := by
  obtain ⟨events, hread, hdatas, -⟩ := h.read
  rw [← hdatas] at hdata
  obtain ⟨event, hevent, rfl⟩ := List.mem_map.mp hdata
  refine ⟨event, ?_, rfl⟩
  rw [hread]
  exact List.mem_append_right _ hevent

/-- A type none of the appended events is of has the events it had. -/
theorem of_eq (h : Appended set more datas) (kind : Kind α) (hkind : ∀ data ∈ datas, kind data = none) :
    more.of kind = set.of kind := by
  obtain ⟨events, hread, hdata, -⟩ := h.read
  have hnone : (events.filterMap fun event => (kind event.data).map fun data =>
      (⟨event.event, data⟩ : VaultEvent α)) = [] := by
    rw [List.filterMap_eq_nil_iff]
    intro event hevent
    have hin : event.data ∈ datas := by
      rw [← hdata]
      exact List.mem_map_of_mem hevent
    rw [hkind event.data hin, Option.map_none]
  rw [VaultEventSet.of, VaultEventSet.of, hread, List.filterMap_append, hnone, List.append_nil]

/-- A reference to an event finds what it found. -/
theorem resolve_eq (h : Appended set more datas) (hun : set.Unforeseen more)
    {event : VaultEvent VaultData} (hevent : event ∈ set.read) {reference : EventCid}
    (hreference : reference ∈ event.data.references) (kind : Kind α) :
    more.resolve reference kind = set.resolve reference kind := by
  obtain ⟨events, hread, -⟩ := h.read
  cases hfind : set.read.find? fun event => event.cid == reference with
  | some found =>
    rw [VaultEventSet.resolve, VaultEventSet.resolve, hread, List.find?_append, hfind, Option.some_or]
  | none =>
    -- nothing read here has the CID, and what has it there is kept here
    have hnone : (events.find? fun event => event.cid == reference) = none := by
      rw [List.find?_eq_none]
      intro other hother hcid
      have hcid := eq_of_beq hcid
      have hmore : more.has reference = true := by
        rw [VaultEventSet.has, decide_eq_true_iff, hread, List.map_append]
        refine List.mem_append_left _ (List.mem_append_right _ ?_)
        exact hcid ▸ List.mem_map_of_mem hother
      have hhas := of_decide_eq_true (hun event hevent reference hreference hmore)
      rcases List.mem_append.mp hhas with hin | hin
      · obtain ⟨found, hfound, hsame⟩ := List.mem_map.mp hin
        exact List.find?_eq_none.mp hfind found hfound (beq_iff_eq.mpr hsame)
      · have hnodup := more.nodup
        rw [hread, h.kept, List.map_append] at hnodup
        refine List.disjoint_of_nodup_append hnodup (List.mem_append_right _ ?_) hin
        exact hcid ▸ List.mem_map_of_mem hother
    rw [VaultEventSet.resolve, VaultEventSet.resolve, hread, List.find?_append, hfind, hnone,
      Option.none_or, h.kept]

/-- What an event of a type refers to finds what it found. -/
theorem resolve_of {β : Type} (h : Appended set more datas) (hun : set.Unforeseen more)
    {source : Kind β} {event : VaultEvent β} (hevent : event ∈ set.of source) {reference : EventCid}
    (hreference : ∀ data, source data = some event.data → reference ∈ data.references)
    (kind : Kind α) : more.resolve reference kind = set.resolve reference kind := by
  obtain ⟨read, hread, -, hdata⟩ := VaultEventSet.mem_of.mp hevent
  exact h.resolve_eq hun hread (hreference read.data hdata) kind

end Appended

end Appended

/-! ## The folds that read none of it -/

/-- A payload no fold reads before the admissions. -/
def VaultData.isLate : VaultData → Bool
  | .messageAdmitted _ => true
  | .deliveryAcknowledged _ => true
  | .messageErased _ => true
  | _ => false

/-- A type no late payload is of. -/
structure Early {α : Type} (kind : Kind α) : Prop where
  admitted : ∀ data, kind (.messageAdmitted data) = none
  acknowledged : ∀ data, kind (.deliveryAcknowledged data) = none
  erased : ∀ data, kind (.messageErased data) = none

theorem Early.none {α : Type} {kind : Kind α} (h : Early kind) {data : VaultData}
    (hlate : data.isLate = true) : kind data = none := by
  cases data with
  | messageAdmitted data => exact h.admitted data
  | deliveryAcknowledged data => exact h.acknowledged data
  | messageErased data => exact h.erased data
  | _ => cases hlate

section Folds

variable {O : Outside} {set more : VaultEventSet} {datas : List VaultData} {checks : VaultChecks}

/-- A type that is not late has the events it had. -/
theorem Appended.of_early {α : Type} (h : Appended set more datas)
    (hlate : ∀ data ∈ datas, data.isLate = true) (kind : Kind α)
    (hearly : Early kind) : more.of kind = set.of kind :=
  h.of_eq kind fun data hdata => hearly.none (hlate data hdata)

variable (h : Appended set more datas) (hlate : ∀ data ∈ datas, data.isLate = true)
include h hlate

theorem Appended.foldMediations_eq {keyChecks : Verdicts KeyCheck} :
    foldMediations more keyChecks = foldMediations set keyChecks := by
  have hcreated := h.of_early hlate mediationCreated ⟨fun _ => rfl, fun _ => rfl, fun _ => rfl⟩
  have hgranted := h.of_early hlate mediationGranted ⟨fun _ => rfl, fun _ => rfl, fun _ => rfl⟩
  have hretired := h.of_early hlate mediationRetired ⟨fun _ => rfl, fun _ => rfl, fun _ => rfl⟩
  have hselected := h.of_early hlate mediationSelected ⟨fun _ => rfl, fun _ => rfl, fun _ => rfl⟩
  have hof : mediationOf more keyChecks = mediationOf set keyChecks := by
    funext messageId
    rw [mediationOf, mediationOf, mediationCreations, mediationCreations, hcreated, hgranted, hretired]
  have hids : mediationIds more = mediationIds set := by
    simp only [mediationIds, hcreated, hgranted, hretired, hselected]
  simp only [foldMediations, hof, hids, hgranted]

theorem Appended.foldDids_eq {mediations : MediationFold} {keyChecks : Verdicts KeyCheck} :
    foldDids O more mediations keyChecks = foldDids O set mediations keyChecks := by
  have hcreated := h.of_early hlate didCreated ⟨fun _ => rfl, fun _ => rfl, fun _ => rfl⟩
  have hdisclosed := h.of_early hlate didDisclosed ⟨fun _ => rfl, fun _ => rfl, fun _ => rfl⟩
  have hretired := h.of_early hlate didRetired ⟨fun _ => rfl, fun _ => rfl, fun _ => rfl⟩
  have hids : didIds more = didIds set := by simp only [didIds, hcreated, hdisclosed, hretired]
  have hcreations : creationsOf more = creationsOf set := by
    funext didId
    simp only [creationsOf, hcreated]
  have hof : entityOf O more mediations keyChecks = entityOf O set mediations keyChecks := by
    funext didId
    simp only [entityOf, entityConflicts, claimed, claimants, creationOf, hids, hcreations, hretired]
  simp only [foldDids, hids, hof]

variable (hun : set.Unforeseen more)
include hun

theorem Appended.foldSources_eq {resolutionChecks : Verdicts EvidenceCheck} {dids : DidFold} :
    foldSources O more resolutionChecks dids = foldSources O set resolutionChecks dids := by
  rw [foldSources, foldSources, h.of_early hlate messageIn ⟨fun _ => rfl, fun _ => rfl, fun _ => rfl⟩]
  refine OMap.index_congr fun event hevent => ?_
  rw [sourceOf, sourceOf, sourceStatus, sourceStatus]
  cases hpeer : event.data.peer with
  | none => rfl
  | some peer =>
    have hresolve : more.resolve peer.peerResolutionEventCid peerResolved =
        set.resolve peer.peerResolutionEventCid peerResolved := by
      refine h.resolve_of hun hevent (fun data hdata => ?_) peerResolved
      cases data with
      | messageIn data =>
        cases hdata
        rw [VaultData.references, hpeer]
        exact List.mem_singleton_self _
      | _ => cases hdata
    simp only [readResolution, hresolve]

theorem Appended.foldChannelEvidence_eq {dids : DidFold} :
    foldChannelEvidence O more dids checks = foldChannelEvidence O set dids checks := by
  have hdecisions : ∀ sources carriers,
      foldDecisions O more dids sources carriers checks.proofChecks =
        foldDecisions O set dids sources carriers checks.proofChecks := by
    intro sources carriers
    rw [foldDecisions, foldDecisions,
      h.of_early hlate rotationSelected ⟨fun _ => rfl, fun _ => rfl, fun _ => rfl⟩]
    refine OMap.index_congr fun event hevent => ?_
    have hsource : checkDecisionSource more sources carriers event.data =
        checkDecisionSource set sources carriers event.data := by
      unfold checkDecisionSource
      cases hcid : event.data.sourceEventCid with
      | none => rfl
      | some sourceEventCid =>
        have hresolve : more.resolve sourceEventCid messageIn = set.resolve sourceEventCid messageIn := by
          refine h.resolve_of hun hevent (fun data hdata => ?_) messageIn
          cases data with
          | rotationSelected data =>
            cases hdata
            rw [VaultData.references, hcid]
            exact List.mem_singleton_self _
          | _ => cases hdata
        simp only [hresolve]
    simp only [decisionStatus, decisionReading, hsource]
  simp only [foldChannelEvidence, h.foldSources_eq hlate hun, hdecisions]

theorem Appended.foldContinuity_eq {evidence : ChannelEvidence} :
    foldContinuity O more evidence = foldContinuity O set evidence := by
  rw [foldContinuity, foldContinuity,
    h.of_early hlate channelBlocked ⟨fun _ => rfl, fun _ => rfl, fun _ => rfl⟩]

end Folds

/-! ## The folds of the late types -/

section Late

variable {set more : VaultEventSet} {datas : List VaultData}

theorem Appended.foldErasures_eq (h : Appended set more datas)
    (hnone : ∀ data ∈ datas, messageErased data = none) : foldErasures more = foldErasures set := by
  rw [foldErasures, foldErasures, h.of_eq messageErased hnone]

theorem Appended.foldAdmissions_eq (h : Appended set more datas) (hun : set.Unforeseen more)
    (hnone : ∀ data ∈ datas, messageAdmitted data = none) {evidence : ChannelEvidence} :
    foldAdmissions more evidence = foldAdmissions set evidence := by
  rw [foldAdmissions, foldAdmissions, h.of_eq messageAdmitted hnone]
  refine List.map_congr_left fun event hevent => ?_
  have hresolve : more.resolve event.data.sourceEventCid messageIn =
      set.resolve event.data.sourceEventCid messageIn := by
    refine h.resolve_of hun hevent (fun data hdata => ?_) messageIn
    cases data with
    | messageAdmitted data =>
      cases hdata
      exact List.mem_singleton_self _
    | _ => cases hdata
  rw [admissionStatus, admissionStatus, hresolve]

end Late

/-! ## A commit, and a vault to commit to -/

section Example

open Json (lit)

/-- The CIDs a set has and names. -/
def VaultEventSet.mentioned (set : VaultEventSet) : List EventCid :=
  set.read.map VaultEvent.cid ++ set.kept.map EventStore.Event.cid ++
    set.read.flatMap fun event => event.data.references

/-- A text longer than any of them. -/
def VaultEventSet.unused (set : VaultEventSet) : EventCid := 97 :: set.mentioned.flatten

theorem unused_not_mentioned (set : VaultEventSet) : set.unused ∉ set.mentioned := by
  intro h
  have hle := (List.sublist_flatten_of_mem h).length_le
  rw [VaultEventSet.unused, List.length_cons] at hle
  omega

theorem unused_fresh (set : VaultEventSet) : ¬ set.has set.unused = true := by
  intro h
  exact unused_not_mentioned set (List.mem_append_left _ (of_decide_eq_true h))

def eventWith (cid : EventCid) (data : VaultData) : VaultEvent VaultData :=
  ⟨⟨⟨lit "at", lit "author", lit "type", data.rootsOf, .scalar .null⟩, cid⟩, data⟩

/-- Each payload appended under a CID the set neither has nor names. -/
def commitUnused (set : VaultEventSet) : List VaultData → VaultEventSet
  | [] => set
  | data :: rest => commitUnused (set.apply (eventWith set.unused data).event data (unused_fresh set) rfl)
      rest

theorem commitUnused_appends (set : VaultEventSet) (datas : List VaultData) :
    set.Appends datas (commitUnused set datas) := by
  induction datas generalizing set with
  | nil => exact .none set
  | cons data rest ih => exact .next _ (unused_fresh set) rfl (ih _)

theorem commitUnused_unforeseen (set : VaultEventSet) (datas : List VaultData) :
    set.Unforeseen (commitUnused set datas) := by
  induction datas generalizing set with
  | nil => exact fun _ _ _ _ h => h
  | cons data rest ih =>
    intro event hevent reference hreference hmore
    have hnext := ih _ event (List.mem_append_left _ hevent) reference hreference hmore
    have hne : reference ≠ set.unused := by
      rintro rfl
      exact unused_not_mentioned set
        (List.mem_append_right _ (List.mem_flatMap.mpr ⟨event, hevent, hreference⟩))
    -- what the set has now is what it had, or the CID nothing named
    have hmem : reference ∈ (set.read ++ [eventWith set.unused data]).map VaultEvent.cid ++
        set.kept.map EventStore.Event.cid := of_decide_eq_true hnext
    refine decide_eq_true ?_
    rw [List.map_append, List.append_assoc] at hmem
    rcases List.mem_append.mp hmem with hmem | hmem
    · exact List.mem_append_left _ hmem
    · rcases List.mem_cons.mp hmem with hmem | hmem
      · exact absurd hmem hne
      · exact List.mem_append_right _ hmem

/-- Every document reads, and every key is of one curve. -/
def readable : Outside :=
  { Outside.silent with
    retainedDocument := fun _ => .ok (.scalar .null)
    canonicalCid := fun _ => .ok (lit "doc")
    authorizedMethodIds := fun _ _ => .ok [lit "#k"]
    methodPublicKey := fun _ _ => .ok (lit "K")
    didcommServiceUris := fun _ => .ok [lit "u"]
    serviceTargetOf := fun _ => some (.direct (lit "u"))
    decodePublicKey := fun _ => .ok .p256
    derive := fun _ _ => lit "n" }

def allVerified : VaultChecks :=
  ⟨fun _ => some .verified, fun _ => some .verified, fun _ => some .verified, fun _ => none⟩

def agreementName : KeyName := didKeyName (lit "d") .keyAgreement

def shortDid : Did := lit "did:peer:4zQm" ++ List.replicate 44 49

def emptyContent (ack : List JsString) : Content where
  msgType := lit "t"
  thid := none
  pthid := none
  createdTime := none
  expiresTime := none
  pleaseAck := none
  ack := ack
  headers := []
  bodyCid := lit "b"
  attachmentCids := []
  intentCid := lit "i"

end Example

end Estoc.Vault
