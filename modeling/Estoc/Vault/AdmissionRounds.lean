import Estoc.EventStore.Log
import Estoc.Vault.Appended
import Estoc.Vault.Dispositions

/-!
# Admitting in rounds

A round admits an observation of each of many inputs against one fold, and an admission changes
nothing that the eligibility of an observation reads but the admitted intents of its own input.
So the observations of a vault are items taken by rounds (`Rounds.Items`): the groups are the
inputs, an item's value its intent, and what is held against it whatever is admitted is its
evidence and the policy. What is committed at a round takes effect in the next fold, and however
the pass goes, in rounds, one at a time or begun again after a crash, it ends in one set.
-/

set_option linter.unusedSectionVars false

namespace Estoc.Vault

open Json (lit)
open Utf16 (JsString)

instance : Std.TransCmp byEvent :=
  inferInstanceAs (Std.TransCmp (Cmp.comap (fun source : Source => source.event.event)
    EventStore.compareEvents))

/-- Nothing but its input is held against an observation. -/
def unopposed (evidence : ChannelEvidence) (continuity : Continuity) (source : Source) : Bool :=
  (readSource source evidence matches .positive) &&
    (continuity.witness source.event.cid = .complete) &&
    source.channel.any fun channel =>
      !continuity.superseded channel && (continuity.blocked channel).isEmpty

/-- The observations of a vault, in canonical order, by input. -/
def VaultFold.observations (fold : VaultFold) : Rounds.Items Source MessageId Cid where
  items := Cmp.sortBy byEvent fold.channels.sources.values
  key source := source.event.data.messageId
  value source := source.event.data.intentCid
  free := unopposed fold.channels fold.continuity

/-- The observations an effective admission names. -/
def VaultFold.taken (fold : VaultFold) : Set Source :=
  { source | source ∈ fold.channels.sources.values ∧
    AdmissionFold.admitted fold.admissions source.event.cid = true }

/-- What the candidates say of an observation. -/
def VaultFold.mayAdmit (fold : VaultFold) (source : Source) : Bool :=
  unnamed fold.admissions source &&
    eligibilityOf fold.channels fold.continuity fold.inbound source = .eligible

/-! ## Eligibility -/

section Eligible

variable {O : Outside} {set : VaultEventSet} {checks : VaultChecks} {effectTypes : List JsString}
  {source : Source} {cid : EventCid}

theorem get?_of_mem_values
    (h : source ∈ (foldVault O set checks effectTypes).channels.sources.values) :
    (foldVault O set checks effectTypes).channels.sources.get? source.event.cid = some source := by
  obtain ⟨key, hget⟩ := OMap.mem_values.mp h
  have hcid := foldSources_cid hget
  rw [hcid]
  exact hget

theorem placed_of_positive {evidence : ChannelEvidence} (h : readSource source evidence = .positive) :
    ∃ placed, source.placed = some placed ∧ source.channel = some placed.channel := by
  obtain ⟨⟨didId, resolution, channel, hstatus⟩, -⟩ := readSource_positive.mp h
  refine ⟨⟨source.event, didId, resolution, channel⟩, ?_, ?_⟩
  · rw [Source.placed, hstatus]
  · rw [Source.channel, hstatus]

/-- A record naming positive evidence is effective, so none is waiting. -/
theorem unnamed_iff (hsource : source ∈ (foldVault O set checks effectTypes).channels.sources.values)
    (hpositive : readSource source (foldVault O set checks effectTypes).channels = .positive) :
    unnamed (foldVault O set checks effectTypes).admissions source = true ↔
      source ∉ (foldVault O set checks effectTypes).taken := by
  have hget := get?_of_mem_values hsource
  constructor
  · intro hall htaken
    obtain ⟨admission, hadmission, heffective⟩ := List.any_eq_true.mp htaken.2
    have hinvalid := List.all_eq_true.mp hall admission hadmission
    rw [of_decide_eq_true heffective] at hinvalid
    cases hinvalid
  · intro hnot
    refine List.all_eq_true.mpr fun admission hadmission => absurd ?_ hnot
    obtain ⟨hmem, hcid⟩ := List.mem_filter.mp hadmission
    obtain ⟨event, hevent, rfl⟩ := List.mem_map.mp hmem
    exact ⟨hsource, admitted_iff.mpr ⟨⟨event, hevent, of_decide_eq_true hcid⟩, source, hget, hpositive⟩⟩

/-- An input holds nothing against an observation where its admitted members have its intent. -/
theorem executionStatus_allows {admitted : List Member} {intentCid : Cid} :
    (∀ because, executionStatus O admitted ≠ .conflict because) ∧
      (executionStatus O admitted).intentCid.any (· ≠ intentCid) = false ↔
    ∀ member ∈ admitted, member.source.event.data.intentCid = intentCid := by
  have hmem : ∀ cid, cid ∈ OMap.once (admitted.map fun member => member.source.event.data.intentCid) ↔
      ∃ member ∈ admitted, member.source.event.data.intentCid = cid := by
    intro cid
    rw [OMap.mem_once, List.mem_map]
  have hnodup := OMap.nodup_once (admitted.map fun member => member.source.event.data.intentCid)
  unfold executionStatus
  revert hmem hnodup
  cases OMap.once (admitted.map fun member => member.source.event.data.intentCid) with
  | nil =>
    intro hmem _
    constructor
    · intro _ member hmember
      exact absurd ((hmem _).mpr ⟨member, hmember, rfl⟩) List.not_mem_nil
    · intro _
      exact ⟨fun because h => (by cases h), rfl⟩
  | cons admittedCid rest =>
    intro hmem hnodup
    cases rest with
    | nil =>
      cases admitted with
      | nil =>
        obtain ⟨member, hmember, -⟩ := (hmem admittedCid).mp List.mem_cons_self
        cases hmember
      | cons first others =>
        have hstatus : ∀ status : ExecutionStatus, (∀ because, status ≠ .conflict because) →
            status.intentCid = some admittedCid →
            ((∀ because, status ≠ .conflict because) ∧
              status.intentCid.any (· ≠ intentCid) = false ↔ admittedCid = intentCid) := by
          intro status hconflict hintent
          rw [hintent]
          simp [hconflict]
        have hall : admittedCid = intentCid ↔
            ∀ member ∈ first :: others, member.source.event.data.intentCid = intentCid := by
          constructor
          · intro hsame member hmember
            have hin := (hmem _).mpr ⟨member, hmember, rfl⟩
            rw [List.mem_singleton.mp hin, hsame]
          · intro hall
            obtain ⟨member, hmember, hcid⟩ := (hmem admittedCid).mp List.mem_cons_self
            rw [← hcid, hall member hmember]
        rw [← hall]
        dsimp only
        split
        · exact hstatus _ (fun because h => by cases h) rfl
        · exact hstatus _ (fun because h => by cases h) rfl
    | cons other rest =>
      constructor
      · intro h
        exact absurd rfl (h.1 _)
      · intro hall
        -- two intents are admitted, and both are the one
        obtain ⟨member, hmember, hcid⟩ := (hmem admittedCid).mp List.mem_cons_self
        obtain ⟨member', hmember', hcid'⟩ := (hmem other).mp (List.mem_cons_of_mem _ List.mem_cons_self)
        have hsame : admittedCid = other := by
          rw [← hcid, ← hcid', hall member hmember, hall member' hmember']
        rw [hsame] at hnodup
        exact absurd List.mem_cons_self (List.nodup_cons.mp hnodup).1

/-- The admitted members of an input are the observations taken of it. -/
theorem inputAgainst_iff
    (hsource : source ∈ (foldVault O set checks effectTypes).channels.sources.values)
    (hpositive : readSource source (foldVault O set checks effectTypes).channels = .positive) :
    inputAgainst (foldVault O set checks effectTypes).inbound source = none ↔
      (foldVault O set checks effectTypes).observations.Agrees
        (foldVault O set checks effectTypes).taken source := by
  obtain ⟨placed, hplaced, -⟩ := placed_of_positive hpositive
  obtain ⟨hstatus, hevent⟩ := placed_eq_some.mp hplaced
  have hget := get?_of_mem_values hsource
  obtain ⟨execution, hexecution, -, hmade⟩ := member_of_source hget hplaced
  have hof : (foldVault O set checks effectTypes).inbound.ofSource source.event.cid = some execution := by
    rw [InboundFold.ofSource]
    change ((foldVault O set checks effectTypes).channels.sources.get? source.event.cid).bind _ = _
    rw [hget, Option.bind_some, hstatus]
    exact hexecution
  have hinput : inputAgainst (foldVault O set checks effectTypes).inbound source = none ↔
      (∀ because, execution.status ≠ .conflict because) ∧
        execution.status.intentCid.any (· ≠ source.event.data.intentCid) = false := by
    unfold inputAgainst
    rw [hof, Option.map_some]
    cases hexec : execution.status with
    | conflict because => simp
    | _ => simp
  rw [hinput, hmade, executionStatus_allows]
  constructor
  · intro hall other hother hkey
    obtain ⟨-, found, hfound, hotherpositive⟩ := admitted_iff.mp hother.2
    have hotherget := get?_of_mem_values hother.1
    cases hfound.symm.trans hotherget
    obtain ⟨otherplaced, hotherplaced, -⟩ := placed_of_positive hotherpositive
    obtain ⟨same, hsame, hmember, -⟩ := member_of_source hotherget hotherplaced
    have hkey : other.event.data.messageId = source.event.data.messageId := hkey
    rw [hkey, hexecution] at hsame
    cases hsame
    have hotherevent := (placed_eq_some.mp hotherplaced).2
    have hintent := hall _ (List.mem_filter.mpr ⟨hmember, ?_⟩)
    · change otherplaced.event.data.intentCid = source.event.data.intentCid at hintent
      rw [hotherevent] at hintent
      exact hintent
    · change AdmissionFold.admitted _ otherplaced.event.cid = true
      rw [hotherevent]
      exact hother.2
  · intro hagrees member hmember
    obtain ⟨hmember, hadmitted⟩ := List.mem_filter.mp hmember
    obtain ⟨other, hother, hid, hotherplaced, hsame⟩ := member_source hexecution hmember
    have hotherevent := (placed_eq_some.mp hotherplaced).2
    rw [hotherevent] at hother ⊢
    refine hagrees other ⟨OMap.mem_values.mpr ⟨_, hother⟩, ?_⟩ hid
    rw [hsame] at hadmitted
    change AdmissionFold.admitted _ member.source.event.cid = true at hadmitted
    rw [hotherevent] at hadmitted
    exact hadmitted

theorem unopposed_iff {evidence : ChannelEvidence} {continuity : Continuity} :
    unopposed evidence continuity source = true ↔ readSource source evidence = .positive ∧
      continuity.witness source.event.cid = .complete ∧
      ∃ channel, source.channel = some channel ∧ continuity.superseded channel = false ∧
        continuity.blocked channel = [] := by
  unfold unopposed
  rw [Bool.and_eq_true, Bool.and_eq_true, and_assoc]
  refine and_congr ?_ (and_congr decide_eq_true_iff ?_)
  · cases readSource source evidence <;> simp
  · cases source.channel <;> simp

theorem eligibilityOf_iff {evidence : ChannelEvidence} {continuity : Continuity} {inbound : InboundFold} :
    eligibilityOf evidence continuity inbound source = .eligible ↔
      unopposed evidence continuity source = true ∧ inputAgainst inbound source = none := by
  rw [unopposed_iff]
  unfold eligibilityOf
  cases hread : readSource source evidence with
  | refused because => simp
  | missing because => simp
  | positive =>
    obtain ⟨placed, -, hchannel⟩ := placed_of_positive hread
    rw [hchannel]
    cases hwitness : continuity.witness source.event.cid with
    | complete =>
      unfold policyAgainst
      by_cases hsuperseded : continuity.superseded placed.channel = true
      · simp [hsuperseded]
      · by_cases hblocked : continuity.blocked placed.channel = []
        · cases hinput : inputAgainst inbound source <;> simp [hsuperseded, hblocked]
        · simp [hsuperseded, hblocked]
    | _ => simp

theorem mayAdmit_iff (hsource : source ∈ (foldVault O set checks effectTypes).channels.sources.values) :
    (foldVault O set checks effectTypes).mayAdmit source = true ↔
      (foldVault O set checks effectTypes).observations.Eligible
        (foldVault O set checks effectTypes).taken source := by
  rw [VaultFold.mayAdmit, Bool.and_eq_true, decide_eq_true_iff, eligibilityOf_iff]
  constructor
  · intro ⟨hunnamed, hfree, hinput⟩
    obtain ⟨hpositive, -⟩ := unopposed_iff.mp hfree
    exact ⟨Cmp.mem_sortBy.mpr hsource, hfree, (unnamed_iff hsource hpositive).mp hunnamed,
      (inputAgainst_iff hsource hpositive).mp hinput⟩
  · rintro ⟨-, hfree, hnot, hagrees⟩
    obtain ⟨hpositive, -⟩ := unopposed_iff.mp hfree
    exact ⟨(unnamed_iff hsource hpositive).mpr hnot, hfree,
      (inputAgainst_iff hsource hpositive).mpr hagrees⟩

end Eligible

/-! ## What a round drafts -/

section Drafts

variable {O : Outside} {set more : VaultEventSet} {checks : VaultChecks} {effectTypes : List JsString}
  {picks : List Source}

/-- The candidates are the observations no admission names, in canonical order. -/
theorem candidates_eq (fold : VaultFold) :
    fold.candidates = (fold.observations.items.filter (unnamed fold.admissions)).map fun source =>
      ⟨source, eligibilityOf fold.channels fold.continuity fold.inbound source⟩ := by
  have hsort : fold.candidates = Cmp.sortBy (Cmp.comap AdmissionCandidate.source byEvent)
      ((fold.channels.sources.values.filter (unnamed fold.admissions)).map fun source =>
        ⟨source, eligibilityOf fold.channels fold.continuity fold.inbound source⟩) := rfl
  rw [hsort, Cmp.sortBy_map, VaultFold.observations, Cmp.filter_sortBy]
  rfl

def nameOf (source : Source) : MessageAdmitted := ⟨source.event.cid⟩

/-- The observations some drafts are of: each leads its input, one of each, and there are none
only when none is eligible. -/
structure Picks (fold : VaultFold) (drafts : List MessageAdmitted) (picks : List Source) : Prop where
  drafts : drafts = picks.map nameOf
  nodup : (picks.map fold.observations.key).Nodup
  leads : ∀ source ∈ picks, fold.observations.Leads fold.taken source
  settled : picks = [] → ∀ source, ¬ fold.observations.Eligible fold.taken source

theorem leads_of_split {source : Source} {before after : List Source}
    (hmay : (foldVault O set checks effectTypes).mayAdmit source = true)
    (hitems : (foldVault O set checks effectTypes).observations.items = before ++ source :: after)
    (hbefore : ∀ other ∈ before, (foldVault O set checks effectTypes).observations.key other =
      (foldVault O set checks effectTypes).observations.key source →
      (foldVault O set checks effectTypes).mayAdmit other = false) :
    (foldVault O set checks effectTypes).observations.Leads
      (foldVault O set checks effectTypes).taken source := by
  have hvalue : ∀ other ∈ before ++ source :: after,
      other ∈ (foldVault O set checks effectTypes).channels.sources.values := by
    intro other hother
    rw [← hitems] at hother
    exact Cmp.mem_sortBy.mp hother
  refine ⟨(mayAdmit_iff (hvalue source (by simp))).mp hmay, before, after, hitems,
    fun other hother hkey heligible => ?_⟩
  have hmay := (mayAdmit_iff (hvalue other (List.mem_append_left _ hother))).mpr heligible
  rw [hbefore other hother hkey] at hmay
  cases hmay

theorem settled_of_none
    (h : ∀ source ∈ (foldVault O set checks effectTypes).observations.items,
      (foldVault O set checks effectTypes).mayAdmit source = false) (source : Source) :
    ¬ (foldVault O set checks effectTypes).observations.Eligible
      (foldVault O set checks effectTypes).taken source := by
  intro heligible
  have hmay := (mayAdmit_iff (Cmp.mem_sortBy.mp heligible.1)).mpr heligible
  rw [h source heligible.1] at hmay
  cases hmay

/-- A round drafts what leads each input. -/
theorem admissionDrafts_picks : ∃ picks, Picks (foldVault O set checks effectTypes)
    (admissionDrafts (foldVault O set checks effectTypes)) picks := by
  refine ⟨Rounds.firsts (foldVault O set checks effectTypes).mayAdmit
    (foldVault O set checks effectTypes).observations.key []
    (foldVault O set checks effectTypes).observations.items, ?_, Rounds.nodup_firsts, ?_, ?_⟩
  · rw [admissionDrafts, candidates_eq, Rounds.firsts_map, Rounds.firsts_filter, List.map_map]
    rfl
  · intro source hsource
    obtain ⟨hmay, -, before, after, hitems, hbefore⟩ := Rounds.mem_firsts hsource
    exact leads_of_split hmay hitems hbefore
  · intro hnil
    exact settled_of_none (Rounds.firsts_eq_nil hnil)

/-- The first of all leads its input. -/
theorem firstDraft_picks : ∃ picks, Picks (foldVault O set checks effectTypes)
    (firstDraft (foldVault O set checks effectTypes)) picks := by
  have hdrafts : firstDraft (foldVault O set checks effectTypes) =
      ((foldVault O set checks effectTypes).observations.items.find?
        (foldVault O set checks effectTypes).mayAdmit).toList.map nameOf := by
    have hmay : (foldVault O set checks effectTypes).mayAdmit = fun source =>
        decide (unnamed (foldVault O set checks effectTypes).admissions source = true ∧
          AdmissionCandidate.isEligible ⟨source, eligibilityOf
            (foldVault O set checks effectTypes).channels (foldVault O set checks effectTypes).continuity
            (foldVault O set checks effectTypes).inbound source⟩ = true) := by
      funext source
      simp [VaultFold.mayAdmit, AdmissionCandidate.isEligible]
    rw [firstDraft, candidates_eq, List.find?_map, List.find?_filter, Option.map_map, hmay]
    dsimp only [Function.comp_apply]
    cases List.find? _ _ <;> rfl
  cases hfind : (foldVault O set checks effectTypes).observations.items.find?
      (foldVault O set checks effectTypes).mayAdmit with
  | none =>
    rw [hfind] at hdrafts
    refine ⟨[], hdrafts, List.nodup_nil, fun _ h => absurd h List.not_mem_nil,
      fun _ => settled_of_none ?_⟩
    intro source hsource
    simpa using List.find?_eq_none.mp hfind source hsource
  | some source =>
    rw [hfind] at hdrafts
    obtain ⟨hmay, before, after, hitems, hbefore⟩ := List.find?_eq_some_iff_append.mp hfind
    refine ⟨[source], hdrafts, List.nodup_singleton _, fun other hother => ?_, fun h => by cases h⟩
    rw [List.mem_singleton.mp hother]
    exact leads_of_split hmay hitems fun other hother _ => by simpa using hbefore other hother

end Drafts

/-! ## What a round changes -/

section Round

variable {O : Outside} {set more : VaultEventSet} {checks : VaultChecks} {effectTypes : List JsString}
  {drafts : List MessageAdmitted} {picks : List Source}

theorem isLate_of_admitted {data : VaultData} (h : data ∈ drafts.map VaultData.messageAdmitted) :
    data.isLate = true := by
  obtain ⟨draft, -, rfl⟩ := List.mem_map.mp h
  rfl

variable (h : Appended set more (drafts.map VaultData.messageAdmitted)) (hun : set.Unforeseen more)
include h hun

theorem Appended.channels_eq : (foldVault O more checks effectTypes).channels =
    (foldVault O set checks effectTypes).channels := by
  have hlate : ∀ data ∈ drafts.map VaultData.messageAdmitted, data.isLate = true :=
    fun data => isLate_of_admitted
  simp only [foldVault, h.foldMediations_eq hlate, h.foldDids_eq hlate,
    h.foldChannelEvidence_eq hlate hun]

theorem Appended.continuity_eq : (foldVault O more checks effectTypes).continuity =
    (foldVault O set checks effectTypes).continuity := by
  have hlate : ∀ data ∈ drafts.map VaultData.messageAdmitted, data.isLate = true :=
    fun data => isLate_of_admitted
  change foldContinuity O more (foldVault O more checks effectTypes).channels =
    foldContinuity O set (foldVault O set checks effectTypes).channels
  rw [h.channels_eq hun, h.foldContinuity_eq hlate hun]

/-- The observations are what they were, and so is what is held against each. -/
theorem Appended.observations_eq : (foldVault O more checks effectTypes).observations =
    (foldVault O set checks effectTypes).observations := by
  rw [VaultFold.observations, VaultFold.observations, h.channels_eq hun, h.continuity_eq hun]

/-- Every admission of a round takes effect, and no other does. -/
theorem Appended.taken_eq (hpicks : Picks (foldVault O set checks effectTypes) drafts picks) :
    (foldVault O more checks effectTypes).taken =
      (foldVault O set checks effectTypes).taken ∪ { source | source ∈ picks } := by
  have hchannels : (foldVault O more checks effectTypes).channels =
      (foldVault O set checks effectTypes).channels := h.channels_eq hun
  ext source
  constructor
  · rintro ⟨hsource, hadmitted⟩
    obtain ⟨⟨admission, hadmission, hcid⟩, found, hfound, hpositive⟩ := admitted_iff.mp hadmitted
    rw [hchannels] at hsource hfound hpositive
    obtain ⟨read, hread, -, hdata⟩ := VaultEventSet.mem_of.mp hadmission
    rcases h.mem_read hread with hread | hread
    · exact .inl ⟨hsource, admitted_iff.mpr ⟨⟨⟨read.event, admission.data⟩,
        VaultEventSet.mem_of.mpr ⟨read, hread, rfl, hdata⟩, hcid⟩, found, hfound, hpositive⟩⟩
    · obtain ⟨draft, hdraft, heq⟩ := List.mem_map.mp hread
      rw [← heq] at hdata
      cases hdata
      rw [hpicks.drafts] at hdraft
      obtain ⟨pick, hpick, hname⟩ := List.mem_map.mp hdraft
      have hvalue := Cmp.mem_sortBy.mp (hpicks.leads pick hpick).1.1
      have hget := get?_of_mem_values hvalue
      have hcid : pick.event.cid = source.event.cid := by
        rw [← hname] at hcid
        exact hcid
      rw [hcid, get?_of_mem_values hsource] at hget
      cases hget
      exact .inr hpick
  · rintro (⟨hsource, hadmitted⟩ | hpick)
    · obtain ⟨⟨admission, hadmission, hcid⟩, hfound⟩ := admitted_iff.mp hadmitted
      rw [← hchannels] at hsource hfound
      exact ⟨hsource, admitted_iff.mpr ⟨⟨admission, h.le.of_mem hadmission, hcid⟩, hfound⟩⟩
    · obtain ⟨hitem, hfree, -⟩ := (hpicks.leads source hpick).1
      have hvalue := Cmp.mem_sortBy.mp hitem
      have hget := get?_of_mem_values hvalue
      have hpositive := (unopposed_iff.mp hfree).1
      have hdraft : nameOf source ∈ drafts := by
        rw [hpicks.drafts]
        exact List.mem_map_of_mem hpick
      obtain ⟨event, hevent, hdata⟩ := h.exists_read (List.mem_map_of_mem hdraft)
      rw [← hchannels] at hvalue hget hpositive
      refine ⟨hvalue, admitted_iff.mpr ⟨⟨⟨event.event, nameOf source⟩,
        VaultEventSet.mem_of.mpr ⟨event, hevent, rfl, ?_⟩, rfl⟩, source, hget, hpositive⟩⟩
      rw [hdata]
      rfl

end Round

/-! ## The pass -/

section Pass

/-- The sets committing leads to. -/
inductive Committed (commit : VaultEventSet → List VaultData → VaultEventSet) (set : VaultEventSet) :
    VaultEventSet → Prop
  | here : Committed commit set set
  | next {more : VaultEventSet} (datas : List VaultData) (committed : Committed commit set more) :
      Committed commit set (commit more datas)

/-- Committing appends each payload under a fresh CID, which nothing written before it names. -/
structure Commits (commit : VaultEventSet → List VaultData → VaultEventSet) (set : VaultEventSet) :
    Prop where
  appends : ∀ more, Committed commit set more → ∀ datas, more.Appends datas (commit more datas)
  unforeseen : ∀ more, Committed commit set more → ∀ datas, more.Unforeseen (commit more datas)

variable {O : Outside} {set more : VaultEventSet} {checks : VaultChecks} {effectTypes : List JsString}
  {commit : VaultEventSet → List VaultData → VaultEventSet} {drafted : List EventCid}
  {drafts events : List MessageAdmitted} {draft : VaultFold → List MessageAdmitted}

theorem Committed.trans {last : VaultEventSet} (h : Committed commit set more)
    (h' : Committed commit more last) : Committed commit set last := by
  induction h' with
  | here => exact h
  | next datas _ ih => exact .next datas ih

theorem Commits.of_committed (h : Commits commit set) (h' : Committed commit set more) :
    Commits commit more where
  appends last hlast := h.appends last (h'.trans hlast)
  unforeseen last hlast := h.unforeseen last (h'.trans hlast)

/-- Drafts of observations of their own, none drafted before, are drafted. -/
theorem drafting_ok (hnodup : (drafts.map MessageAdmitted.sourceEventCid).Nodup)
    (hfresh : ∀ data ∈ drafts, data.sourceEventCid ∉ drafted) :
    drafting drafted drafts = .ok (drafted ++ drafts.map MessageAdmitted.sourceEventCid) := by
  induction drafts generalizing drafted with
  | nil => rw [drafting, List.map_nil, List.append_nil]
  | cons data rest ih =>
    obtain ⟨hdata, hnodup⟩ := List.nodup_cons.mp hnodup
    rw [drafting, if_neg (hfresh data List.mem_cons_self), ih hnodup, List.append_assoc]
    · rfl
    · intro other hother hin
      rcases List.mem_append.mp hin with hin | hin
      · exact hfresh other (List.mem_cons_of_mem _ hother) hin
      · exact hdata (List.mem_singleton.mp hin ▸ List.mem_map_of_mem hother)

/-- What a pass leaves. -/
structure Passed (O : Outside) (set : VaultEventSet) (checks : VaultChecks)
    (effectTypes : List JsString) (commit : VaultEventSet → List VaultData → VaultEventSet)
    (more : VaultEventSet) (events : List MessageAdmitted) : Prop where
  committed : Committed commit set more
  observations : (foldVault O more checks effectTypes).observations =
    (foldVault O set checks effectTypes).observations
  channels : (foldVault O more checks effectTypes).channels =
    (foldVault O set checks effectTypes).channels
  takes : (foldVault O set checks effectTypes).observations.Takes
    (foldVault O set checks effectTypes).taken (foldVault O more checks effectTypes).taken
  /-- What it admits is what was not admitted before. -/
  admits : ∀ cid, cid ∈ events.map MessageAdmitted.sourceEventCid ↔
    AdmissionFold.admitted (foldVault O more checks effectTypes).admissions cid = true ∧
      AdmissionFold.admitted (foldVault O set checks effectTypes).admissions cid = false

theorem admitted_iff_taken {cid : EventCid} :
    AdmissionFold.admitted (foldVault O set checks effectTypes).admissions cid = true ↔
      ∃ source ∈ (foldVault O set checks effectTypes).taken, source.event.cid = cid := by
  constructor
  · intro h
    obtain ⟨-, source, hget, -⟩ := admitted_iff.mp h
    have hcid : source.event.cid = cid := foldSources_cid hget
    subst hcid
    exact ⟨source, ⟨OMap.mem_values.mpr ⟨_, hget⟩, h⟩, rfl⟩
  · rintro ⟨source, hsource, rfl⟩
    exact hsource.2

theorem Passed.refl : Passed O set checks effectTypes commit set [] where
  committed := .here
  observations := rfl
  channels := rfl
  takes := .none _
  admits cid := by
    constructor
    · intro h
      cases h
    · rintro ⟨h, h'⟩
      rw [h] at h'
      cases h'

theorem Passed.admitted_le (h : Passed O set checks effectTypes commit more events) {cid : EventCid}
    (hadmitted : AdmissionFold.admitted (foldVault O set checks effectTypes).admissions cid = true) :
    AdmissionFold.admitted (foldVault O more checks effectTypes).admissions cid = true := by
  obtain ⟨source, hsource, hcid⟩ := admitted_iff_taken.mp hadmitted
  exact admitted_iff_taken.mpr ⟨source, h.takes.subset hsource, hcid⟩

theorem Passed.trans {last : VaultEventSet} {events' : List MessageAdmitted}
    (h : Passed O set checks effectTypes commit more events)
    (h' : Passed O more checks effectTypes commit last events') :
    Passed O set checks effectTypes commit last (events ++ events') where
  committed := h.committed.trans h'.committed
  observations := h'.observations.trans h.observations
  channels := h'.channels.trans h.channels
  takes := by
    refine h.takes.trans ?_
    rw [← h.observations]
    exact h'.takes
  admits cid := by
    rw [List.map_append, List.mem_append, h.admits, h'.admits]
    constructor
    · rintro (⟨hmore, hset⟩ | ⟨hlast, hmore⟩)
      · exact ⟨h'.admitted_le hmore, hset⟩
      · refine ⟨hlast, eq_false_of_ne_true fun hset => ?_⟩
        rw [h.admitted_le hset] at hmore
        cases hmore
    · rintro ⟨hlast, hset⟩
      cases hmore : AdmissionFold.admitted (foldVault O more checks effectTypes).admissions cid with
      | true => exact .inl ⟨rfl, hset⟩
      | false => exact .inr ⟨hlast, rfl⟩

/-- A round's observations are none of those admitted. -/
theorem Picks.not_admitted {picks : List Source} {source : Source}
    (hpicks : Picks (foldVault O set checks effectTypes) drafts picks) (hsource : source ∈ picks) :
    AdmissionFold.admitted (foldVault O set checks effectTypes).admissions source.event.cid = false := by
  obtain ⟨hitem, -, hnot, -⟩ := (hpicks.leads source hsource).1
  refine eq_false_of_ne_true fun hadmitted => hnot ⟨Cmp.mem_sortBy.mp hitem, hadmitted⟩

/-- One round, as what a pass leaves. -/
theorem Picks.passed {picks : List Source}
    (hpicks : Picks (foldVault O set checks effectTypes) drafts picks) (hcommit : Commits commit set) :
    Passed O set checks effectTypes commit (commit set (drafts.map VaultData.messageAdmitted)) drafts := by
  obtain rfl := hpicks.drafts
  have happended := (hcommit.appends set .here ((picks.map nameOf).map VaultData.messageAdmitted)).appended
  have hun := hcommit.unforeseen set .here ((picks.map nameOf).map VaultData.messageAdmitted)
  have htaken := happended.taken_eq hun hpicks
  refine ⟨.next _ .here, happended.observations_eq hun, happended.channels_eq hun, ?_, fun cid => ?_⟩
  · rw [htaken]
    exact Rounds.Items.takes_of_leads hpicks.nodup hpicks.leads
  · rw [List.map_map, List.mem_map]
    constructor
    · rintro ⟨source, hsource, rfl⟩
      refine ⟨admitted_iff_taken.mpr ⟨source, ?_, rfl⟩, hpicks.not_admitted hsource⟩
      rw [htaken]
      exact .inr hsource
    · rintro ⟨hmore, hset⟩
      obtain ⟨source, hsource, rfl⟩ := admitted_iff_taken.mp hmore
      rw [htaken] at hsource
      rcases hsource with hsource | hsource
      · rw [hsource.2] at hset
        cases hset
      · exact ⟨source, hsource, rfl⟩

theorem Picks.nodup_cids {picks : List Source}
    (hpicks : Picks (foldVault O set checks effectTypes) drafts picks) :
    (drafts.map MessageAdmitted.sourceEventCid).Nodup := by
  rw [hpicks.drafts, List.map_map]
  refine List.pairwise_map.mpr ((List.pairwise_map.mp hpicks.nodup).imp_of_mem ?_)
  intro source other hsource hother hne hcid
  have hvalue := Cmp.mem_sortBy.mp (hpicks.leads source hsource).1.1
  have hvalue' := Cmp.mem_sortBy.mp (hpicks.leads other hother).1.1
  have hget := get?_of_mem_values hvalue
  have hcid : source.event.cid = other.event.cid := hcid
  rw [hcid, get?_of_mem_values hvalue'] at hget
  cases hget
  exact hne rfl

/-- How many observations are not admitted. -/
noncomputable def VaultFold.left (fold : VaultFold) : Nat := fold.observations.left fold.taken

/-- A pass goes on until none is eligible, and nothing it drafts was drafted before. -/
theorem admitWith_spec
    (hdraft : ∀ set, ∃ picks, Picks (foldVault O set checks effectTypes)
      (draft (foldVault O set checks effectTypes)) picks)
    (n : Nat) (hn : (foldVault O set checks effectTypes).left < n) (hcommit : Commits commit set)
    (hdrafted : ∀ cid ∈ drafted,
      AdmissionFold.admitted (foldVault O set checks effectTypes).admissions cid = true) :
    ∃ more new, Passed O set checks effectTypes commit more new ∧
      (∀ source, ¬ (foldVault O more checks effectTypes).observations.Eligible
        (foldVault O more checks effectTypes).taken source) ∧
      ∀ fuel, n ≤ fuel → admitWith O checks effectTypes draft commit fuel set drafted events =
        some (.ok ⟨more, events ++ new⟩) := by
  induction n generalizing set drafted events with
  | zero => exact absurd hn (Nat.not_lt_zero _)
  | succ n ih =>
    obtain ⟨picks, hpicks⟩ := hdraft set
    cases hdrafts : draft (foldVault O set checks effectTypes) with
    | nil =>
      have hnone : picks = [] := by
        have hmap := hpicks.drafts
        rw [hdrafts] at hmap
        exact List.map_eq_nil_iff.mp hmap.symm
      refine ⟨set, [], .refl, hpicks.settled hnone, fun fuel hfuel => ?_⟩
      obtain ⟨fuel, rfl⟩ := Nat.exists_eq_add_of_lt (Nat.lt_of_lt_of_le (Nat.zero_lt_succ n) hfuel)
      rw [Nat.zero_add, admitWith, hdrafts, List.append_nil]
    | cons data rest =>
      rw [hdrafts] at hpicks
      have hround := hpicks.passed hcommit
      have hsome : picks ≠ [] := by
        rintro rfl
        cases hpicks.drafts
      have hleft : (foldVault O (commit set ((data :: rest).map VaultData.messageAdmitted)) checks
          effectTypes).left < (foldVault O set checks effectTypes).left := by
        have htaken := ((hcommit.appends set .here ((data :: rest).map
          VaultData.messageAdmitted)).appended).taken_eq (hcommit.unforeseen set .here _) hpicks
        rw [VaultFold.left, VaultFold.left, hround.observations, htaken]
        exact Rounds.Items.left_lt hpicks.leads hsome
      have hdrafting : drafting drafted (data :: rest) =
          .ok (drafted ++ (data :: rest).map MessageAdmitted.sourceEventCid) := by
        refine drafting_ok hpicks.nodup_cids fun other hother hin => ?_
        have hnot := ((hround.admits other.sourceEventCid).mp (List.mem_map_of_mem hother)).2
        rw [hdrafted _ hin] at hnot
        cases hnot
      have hdrafted' : ∀ cid ∈ drafted ++ (data :: rest).map MessageAdmitted.sourceEventCid,
          AdmissionFold.admitted (foldVault O (commit set ((data :: rest).map VaultData.messageAdmitted))
            checks effectTypes).admissions cid = true := by
        intro cid hcid
        rcases List.mem_append.mp hcid with hcid | hcid
        · exact hround.admitted_le (hdrafted cid hcid)
        · exact ((hround.admits cid).mp hcid).1
      obtain ⟨more, new, hpassed, hsettled, hrun⟩ := @ih _ _ (events ++ data :: rest) (by omega)
        (hcommit.of_committed hround.committed) hdrafted'
      refine ⟨more, data :: rest ++ new, hround.trans hpassed, hsettled, fun fuel hfuel => ?_⟩
      obtain ⟨fuel, rfl⟩ := Nat.exists_eq_add_of_lt (Nat.lt_of_lt_of_le (Nat.zero_lt_succ n) hfuel)
      rw [Nat.zero_add, admitWith, hdrafts]
      dsimp only
      rw [hdrafting]
      dsimp only
      rw [hrun fuel (by omega), List.append_assoc]

/-- What is taken when none is eligible is where the taking ends. -/
theorem Passed.ends (h : Passed O set checks effectTypes commit more events)
    (hsettled : ∀ source, ¬ (foldVault O more checks effectTypes).observations.Eligible
      (foldVault O more checks effectTypes).taken source) :
    (foldVault O more checks effectTypes).taken = (foldVault O set checks effectTypes).observations.final
      (foldVault O set checks effectTypes).taken := by
  rw [h.observations] at hsettled
  exact h.takes.ends hsettled

theorem admitted_congr (h : (foldVault O more checks effectTypes).taken =
      (foldVault O set checks effectTypes).taken) (cid : EventCid) :
    AdmissionFold.admitted (foldVault O more checks effectTypes).admissions cid =
      AdmissionFold.admitted (foldVault O set checks effectTypes).admissions cid := by
  rw [Bool.eq_iff_iff, admitted_iff_taken, admitted_iff_taken, h]

theorem left_lt_size : (foldVault O set checks effectTypes).left <
    (foldVault O set checks effectTypes).channels.sources.size + 1 := by
  refine Nat.lt_succ_of_le (Rounds.Items.left_le.trans ?_)
  rw [VaultFold.observations, Cmp.length_sortBy, OMap.values, List.length_map]
  exact Nat.le_refl _

/-- Whole rounds are of a pass. -/
theorem afterRounds_passed (hcommit : Commits commit set) (rounds : Nat) :
    ∃ events, Passed O set checks effectTypes commit
      (afterRounds O checks effectTypes commit rounds set) events := by
  induction rounds generalizing set with
  | zero => exact ⟨[], .refl⟩
  | succ rounds ih =>
    obtain ⟨picks, hpicks⟩ := @admissionDrafts_picks O set checks effectTypes
    unfold afterRounds
    cases hdrafts : admissionDrafts (foldVault O set checks effectTypes) with
    | nil => exact ⟨[], .refl⟩
    | cons data rest =>
      rw [hdrafts] at hpicks
      have hround := hpicks.passed hcommit
      obtain ⟨events, hpassed⟩ := ih (hcommit.of_committed hround.committed)
      exact ⟨data :: rest ++ events, hround.trans hpassed⟩

/-- A vault that owes no admission, and in which no input came to two intents that had not. -/
structure Reconciled (O : Outside) (set : VaultEventSet) (checks : VaultChecks)
    (effectTypes : List JsString) (more : VaultEventSet) : Prop where
  settled : ∀ candidate ∈ (foldVault O more checks effectTypes).candidates,
    candidate.eligibility ≠ .eligible
  again : ∀ commit fuel, admitReceipts O checks effectTypes commit (fuel + 1) more = some (.ok ⟨more, []⟩)
  agrees : ∀ a ∈ (foldVault O more checks effectTypes).channels.sources.values,
    ∀ b ∈ (foldVault O more checks effectTypes).channels.sources.values,
    a.event.data.messageId = b.event.data.messageId →
    AdmissionFold.admitted (foldVault O more checks effectTypes).admissions a.event.cid = true →
    AdmissionFold.admitted (foldVault O more checks effectTypes).admissions b.event.cid = true →
    a.event.data.intentCid = b.event.data.intentCid ∨
      ∃ c ∈ (foldVault O set checks effectTypes).channels.sources.values,
      ∃ d ∈ (foldVault O set checks effectTypes).channels.sources.values,
        AdmissionFold.admitted (foldVault O set checks effectTypes).admissions c.event.cid = true ∧
        AdmissionFold.admitted (foldVault O set checks effectTypes).admissions d.event.cid = true ∧
        c.event.data.messageId = a.event.data.messageId ∧
        d.event.data.messageId = a.event.data.messageId ∧
        c.event.data.intentCid ≠ d.event.data.intentCid

theorem Passed.reconciled (h : Passed O set checks effectTypes commit more events)
    (hsettled : ∀ source, ¬ (foldVault O more checks effectTypes).observations.Eligible
      (foldVault O more checks effectTypes).taken source) :
    Reconciled O set checks effectTypes more where
  settled := by
    intro candidate hcandidate heligible
    rw [candidates_eq] at hcandidate
    obtain ⟨source, hsource, rfl⟩ := List.mem_map.mp hcandidate
    obtain ⟨hitem, hunnamed⟩ := List.mem_filter.mp hsource
    have hmay : (foldVault O more checks effectTypes).mayAdmit source = true := by
      rw [VaultFold.mayAdmit, hunnamed, Bool.true_and]
      exact decide_eq_true heligible
    exact hsettled source ((mayAdmit_iff (Cmp.mem_sortBy.mp hitem)).mp hmay)
  again := by
    intro commit fuel
    obtain ⟨picks, hpicks⟩ := @admissionDrafts_picks O more checks effectTypes
    have hnone : picks = [] := by
      rw [List.eq_nil_iff_forall_not_mem]
      exact fun source hsource => hsettled source (hpicks.leads source hsource).1
    rw [admitReceipts, admitWith, hpicks.drafts, hnone]
    rfl
  agrees := by
    intro a ha b hb hkey hadmitted hadmitted'
    have hends := h.ends hsettled
    have ha' : a ∈ (foldVault O more checks effectTypes).taken := ⟨ha, hadmitted⟩
    have hb' : b ∈ (foldVault O more checks effectTypes).taken := ⟨hb, hadmitted'⟩
    rw [hends] at ha' hb'
    refine (Rounds.Items.final_agrees ha' hb' hkey).imp_right ?_
    rintro ⟨c, hc, d, hd, hckey, hdkey, hne⟩
    exact ⟨c, hc.1, d, hd.1, hc.2, hd.2, hckey, hdkey, hne⟩

variable (O set checks effectTypes)

/-- The pass in rounds ends, and admits what admitting one at a time does. It owes nothing then,
and no input came to two intents; and a pass over what a crash left ends with the same admitted. -/
theorem rounds_admit_one_at_a_time (commit single : VaultEventSet → List VaultData → VaultEventSet)
    (hcommit : Commits commit set) (hsingle : Commits single set) :
    ∃ more events more' events',
      (∀ fuel, (foldVault O set checks effectTypes).channels.sources.size < fuel →
        admitReceipts O checks effectTypes commit fuel set = some (.ok ⟨more, events⟩)) ∧
      (∀ fuel, (foldVault O set checks effectTypes).channels.sources.size < fuel →
        admitSingly O checks effectTypes single fuel set = some (.ok ⟨more', events'⟩)) ∧
      (∀ cid, cid ∈ events.map MessageAdmitted.sourceEventCid ↔
        cid ∈ events'.map MessageAdmitted.sourceEventCid) ∧
      (∀ cid, AdmissionFold.admitted (foldVault O more checks effectTypes).admissions cid =
        AdmissionFold.admitted (foldVault O more' checks effectTypes).admissions cid) ∧
      Reconciled O set checks effectTypes more ∧
      ∀ rounds later, Commits later (afterRounds O checks effectTypes commit rounds set) →
        ∃ last events'',
          (∀ fuel, (foldVault O set checks effectTypes).channels.sources.size < fuel →
            admitReceipts O checks effectTypes later fuel
              (afterRounds O checks effectTypes commit rounds set) = some (.ok ⟨last, events''⟩)) ∧
          ∀ cid, AdmissionFold.admitted (foldVault O last checks effectTypes).admissions cid =
            AdmissionFold.admitted (foldVault O more checks effectTypes).admissions cid := by
  obtain ⟨more, events, hpassed, hsettled, hrun⟩ := @admitWith_spec O set checks effectTypes commit []
    [] admissionDrafts (fun _ => admissionDrafts_picks) _ left_lt_size hcommit
    fun _ h => absurd h List.not_mem_nil
  obtain ⟨more', events', hpassed', hsettled', hrun'⟩ := @admitWith_spec O set checks effectTypes single
    [] [] firstDraft (fun _ => firstDraft_picks) _ left_lt_size hsingle
    fun _ h => absurd h List.not_mem_nil
  have hsame : (foldVault O more checks effectTypes).taken = (foldVault O more' checks effectTypes).taken :=
    (hpassed.ends hsettled).trans (hpassed'.ends hsettled').symm
  refine ⟨more, events, more', events', fun fuel hfuel => hrun fuel hfuel,
    fun fuel hfuel => hrun' fuel hfuel, fun cid => ?_, admitted_congr hsame,
    hpassed.reconciled hsettled, fun rounds later hlater => ?_⟩
  · rw [hpassed.admits, hpassed'.admits, admitted_congr hsame]
  · obtain ⟨before, hcrash⟩ := @afterRounds_passed O set checks effectTypes commit hcommit rounds
    obtain ⟨last, events'', hpassed'', hsettled'', hrun''⟩ := @admitWith_spec O _ checks effectTypes later
      [] [] admissionDrafts (fun _ => admissionDrafts_picks) _ left_lt_size hlater
      fun _ h => absurd h List.not_mem_nil
    rw [hcrash.channels] at hrun''
    refine ⟨last, events'', fun fuel hfuel => hrun'' fuel hfuel, admitted_congr ?_⟩
    rw [hpassed''.ends hsettled'', hpassed.ends hsettled, hcrash.observations]
    exact hcrash.takes.final_eq

end Pass

/-! ## An example: two observations of one input, of two intents -/

section Example

def observedSet : VaultEventSet where
  read := [
    eventWith (lit "1") (.didCreated ⟨lit "d", shortDid, shortDid ++ lit ":z111111", .entry (lit "p")⟩),
    eventWith (lit "2") (.peerResolved ⟨agreementName, lit "P", lit "did:web:p", lit "did:web:p", lit "doc"⟩),
    eventWith (lit "3") (.messageIn ⟨emptyContent [], lit "n", lit "w", agreementName,
      some ⟨lit "2", lit "did:web:p", lit "did:web:p"⟩, none⟩),
    eventWith (lit "4") (.messageIn ⟨{ emptyContent [] with intentCid := lit "j" }, lit "n", lit "w",
      agreementName, some ⟨lit "2", lit "did:web:p", lit "did:web:p"⟩, none⟩)]
  kept := []
  nodup := by decide
  rooted := by decide +kernel

theorem commitUnused_commits (set : VaultEventSet) : Commits commitUnused set :=
  ⟨fun more _ => commitUnused_appends more, fun more _ => commitUnused_unforeseen more⟩

theorem rounds_admit_one_at_a_time_example :
    admissionDrafts (foldVault readable observedSet allVerified []) = [⟨lit "3"⟩] ∧
      ∃ more events, admitReceipts readable allVerified [] commitUnused 3 observedSet =
        some (.ok ⟨more, events⟩) ∧ Reconciled readable observedSet allVerified [] more := by
  have hdrafts : admissionDrafts (foldVault readable observedSet allVerified []) = [⟨lit "3"⟩] := by
    decide +kernel
  have hsize : (foldVault readable observedSet allVerified []).channels.sources.size = 2 := by
    decide +kernel
  obtain ⟨more, events, -, -, hrun, -, -, -, hreconciled, -⟩ :=
    rounds_admit_one_at_a_time readable observedSet allVerified [] commitUnused commitUnused
      (commitUnused_commits _) (commitUnused_commits _)
  exact ⟨hdrafts, more, events, hrun 3 (by rw [hsize]; omega), hreconciled⟩

end Example

end Estoc.Vault
