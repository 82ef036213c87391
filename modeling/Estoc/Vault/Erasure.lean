import Estoc.Vault.Appended
import Estoc.Vault.Retention

/-!
# Erasing messages

An erase releases every root the events of a message still name. It is planned from the roots
by message and the erasures already recorded; what it releases is read back from the set, edge
by edge, where the envelopes of a released message are off already. The two meet in what an
erase appends: events no fold but the erasures reads. So nothing else in the fold moves, and in
particular no other message becomes released or stops being so.
-/

set_option linter.unusedSectionVars false

namespace Estoc.Vault

open Json (lit)
open Utf16 (JsString)
open Checked (refuse)

/-! ## The drafts -/

/-- The message whose roots an event holds. -/
def VaultData.message : VaultData → Option MessageId
  | .messageOut data => some data.messageId
  | .messageIn data => some data.messageId
  | .messagePrepared data => some data.messageId
  | _ => none

section Drafts

variable (set : VaultEventSet) (fold : VaultFold)

/-- Each event of a message with the roots it names, type by type. -/
def namedRoots : List (MessageId × List Cid) :=
  (set.of messageOut).map (fun event => (event.data.messageId, event.event.roots)) ++
  (set.of messageIn).map (fun event => (event.data.messageId, event.event.roots)) ++
  (set.of messagePrepared).map (fun event => (event.data.messageId, event.event.roots))

/-- Every root the events of each message name: what its erasure must release. -/
def rootsByMessage : OMap MessageId (List Cid) :=
  (namedRoots set).foldl (fun roots named =>
    roots.set named.1 (OMap.once ((roots.get? named.1).getD [] ++ named.2))) OMap.empty

def unreleased (messageId : MessageId) : List Cid :=
  sorted ((((rootsByMessage set).get? messageId).getD []).filter fun root =>
    !erased fold.erasures messageId root)

/-- The draft of one erase. The message and the roots are an event's, which was read under the
same checks, so only the reason is left to refuse. -/
def vaultDraft (messageId : MessageId) (dropCids : List Cid) (because : JsString) :
    Except JsString MessageErased := do
  refuse (because = []) (lit "message.erased: data.because must be a non-empty string")
  pure ⟨messageId, dropCids, because⟩

/-- One erase for each of the messages that still names a root no erasure of it released. -/
def draftEach : List (MessageId × JsString) → Except JsString (List MessageErased)
  | [] => .ok []
  | (messageId, because) :: rest => do
    if (unreleased set fold messageId).isEmpty then draftEach rest
    else
      let draft ← vaultDraft messageId (unreleased set fold messageId) because
      let drafts ← draftEach rest
      pure (draft :: drafts)

def eraseDrafts (messageIds : List MessageId) (because : JsString) :
    Except JsString (List MessageErased) :=
  draftEach set fold ((sorted (OMap.once messageIds)).map fun messageId => (messageId, because))

/-- The reason of each message's first erasure in canonical order. -/
def erasureReasons : OMap MessageId JsString :=
  (set.of messageErased).foldl (fun because event =>
    if because.has event.data.messageId then because
    else because.set event.data.messageId event.data.because) OMap.empty

/-- The erase each erased message is owed for the roots learned since. -/
def erasureClosure : Except JsString (List MessageErased) :=
  draftEach set fold
    (Cmp.sortBy (Cmp.comap Prod.fst Json.compareUnits) (erasureReasons set).entries)

end Drafts

/-! ## What the drafts hold -/

section Named

variable {set : VaultEventSet} {fold : VaultFold} {messageId : MessageId} {root : Cid}

/-- The events of one type by the message of their payload. -/
theorem mem_map_of {α : Type} {kind : Kind α} (message : α → MessageId) {roots : List Cid} :
    (messageId, roots) ∈ (set.of kind).map (fun event => (message event.data, event.event.roots)) ↔
      ∃ event ∈ set.read, ∃ data, kind event.data = some data ∧ message data = messageId ∧
        event.event.roots = roots := by
  rw [List.mem_map]
  constructor
  · rintro ⟨event, hevent, h⟩
    obtain ⟨read, hread, hsame, hdata⟩ := VaultEventSet.mem_of.mp hevent
    cases h
    exact ⟨read, hread, event.data, hdata, rfl, by rw [hsame]⟩
  · rintro ⟨event, hread, data, hdata, rfl, rfl⟩
    exact ⟨⟨event.event, data⟩, VaultEventSet.mem_of.mpr ⟨event, hread, rfl, hdata⟩, rfl⟩

/-- What is named for a message is what an event of it names. -/
theorem mem_namedRoots {roots : List Cid} : (messageId, roots) ∈ namedRoots set ↔
    ∃ event ∈ set.read, event.data.message = some messageId ∧ event.event.roots = roots := by
  rw [namedRoots, List.mem_append, List.mem_append, mem_map_of MessageOut.messageId,
    mem_map_of MessageIn.messageId, mem_map_of MessagePrepared.messageId]
  constructor
  · rintro ((⟨event, hread, data, hdata, hid, hroots⟩ | ⟨event, hread, data, hdata, hid, hroots⟩) |
      ⟨event, hread, data, hdata, hid, hroots⟩)
    all_goals
      refine ⟨event, hread, ?_, hroots⟩
      cases hkind : event.data <;> rw [hkind] at hdata <;> cases hdata
      exact congrArg some hid
  · rintro ⟨event, hread, hmessage, hroots⟩
    cases hkind : event.data with
    | messageOut data =>
      rw [hkind] at hmessage
      exact Or.inl (Or.inl ⟨event, hread, data, by rw [hkind]; rfl, Option.some.inj hmessage, hroots⟩)
    | messageIn data =>
      rw [hkind] at hmessage
      exact Or.inl (Or.inr ⟨event, hread, data, by rw [hkind]; rfl, Option.some.inj hmessage, hroots⟩)
    | messagePrepared data =>
      rw [hkind] at hmessage
      exact Or.inr ⟨event, hread, data, by rw [hkind]; rfl, Option.some.inj hmessage, hroots⟩
    | _ => rw [hkind] at hmessage; cases hmessage

/-- A root is named under a message where an event of the message names it. -/
def Names (set : VaultEventSet) (messageId : MessageId) (root : Cid) : Prop :=
  ∃ event ∈ set.read, event.data.message = some messageId ∧ root ∈ event.event.roots

theorem mem_rootsByMessage :
    root ∈ ((rootsByMessage set).get? messageId).getD [] ↔ Names set messageId root := by
  rw [rootsByMessage, OMap.mem_foldl_once, OMap.get?_empty]
  constructor
  · rintro (h | ⟨⟨id, roots⟩, hmem, rfl, hroot⟩)
    · cases h
    · obtain ⟨event, hread, hmessage, rfl⟩ := mem_namedRoots.mp hmem
      exact ⟨event, hread, hmessage, hroot⟩
  · rintro ⟨event, hread, hmessage, hroot⟩
    exact Or.inr ⟨_, mem_namedRoots.mpr ⟨event, hread, hmessage, rfl⟩, rfl, hroot⟩

theorem mem_unreleased : root ∈ unreleased set fold messageId ↔
    Names set messageId root ∧ erased fold.erasures messageId root = false := by
  rw [unreleased, mem_sorted, List.mem_filter, mem_rootsByMessage, Bool.not_eq_true']

/-- A root is erased where an erasure of the message drops it. -/
theorem erased_iff : erased (foldErasures set) messageId root = true ↔
    ∃ event ∈ set.of messageErased, event.data.messageId = messageId ∧ root ∈ event.data.dropCids := by
  rw [erased, List.contains_iff_mem, foldErasures, OMap.mem_foldl_once, OMap.get?_empty]
  simp

end Named

/-! ## What the erasures make of them -/

section Erasing

variable {set more : VaultEventSet} {drafts : List MessageErased}

/-- Erases are appended. -/
abbrev Erasing (set more : VaultEventSet) (drafts : List MessageErased) : Prop :=
  Appended set more (drafts.map VaultData.messageErased)

theorem late_erased (drafts : List MessageErased) :
    ∀ data ∈ drafts.map VaultData.messageErased, data.isLate = true := by
  intro data hdata
  obtain ⟨draft, -, rfl⟩ := List.mem_map.mp hdata
  rfl

namespace Erasing

variable {α : Type}

/-- Every other type has the events it had. -/
theorem of_same (h : Erasing set more drafts) (kind : Kind α)
    (hkind : ∀ data, kind (.messageErased data) = none) : more.of kind = set.of kind := by
  refine h.of_eq kind fun data hdata => ?_
  obtain ⟨draft, -, rfl⟩ := List.mem_map.mp hdata
  exact hkind draft

/-- A reference to an event of another type finds what it found. -/
theorem resolve_present (h : Erasing set more drafts) (kind : Kind α)
    (hkind : ∀ data, kind (.messageErased data) = none) {reference : EventCid}
    {event : VaultEvent α} :
    more.resolve reference kind = .present event ↔ set.resolve reference kind = .present event := by
  rw [VaultEventSet.resolve_eq_present, VaultEventSet.resolve_eq_present, h.of_same kind hkind]

/-- An event of a message is one that was. -/
theorem message_of_mem (h : Erasing set more drafts) {event : VaultEvent VaultData}
    {messageId : MessageId} (hevent : event ∈ more.read) (hid : event.data.message = some messageId) :
    event ∈ set.read := by
  rcases h.mem_read hevent with hevent | hdata
  · exact hevent
  · obtain ⟨draft, -, hdraft⟩ := List.mem_map.mp hdata
    rw [← hdraft] at hid
    cases hid

theorem names_iff (h : Erasing set more drafts) {messageId : MessageId} {root : Cid} :
    Names more messageId root ↔ Names set messageId root := by
  constructor
  · rintro ⟨event, hevent, hid, hroot⟩
    exact ⟨event, h.message_of_mem hevent hid, hid, hroot⟩
  · rintro ⟨event, hevent, hid, hroot⟩
    exact ⟨event, h.le.read hevent, hid, hroot⟩

/-- An erasure is one that was, or a draft's. -/
theorem messageErased_of_mem (h : Erasing set more drafts) {event : VaultEvent VaultData}
    {data : MessageErased} (hevent : event ∈ more.read) (hdata : messageErased event.data = some data) :
    event ∈ set.read ∨ data ∈ drafts := by
  rcases h.mem_read hevent with hevent | hin
  · exact Or.inl hevent
  · obtain ⟨draft, hdraft, hsame⟩ := List.mem_map.mp hin
    rw [← hsame] at hdata
    cases hdata
    exact Or.inr hdraft

/-- What is erased is what was, and what a draft drops. -/
theorem erased_iff (h : Erasing set more drafts) {messageId : MessageId} {root : Cid} :
    erased (foldErasures more) messageId root = true ↔
      erased (foldErasures set) messageId root = true ∨
        ∃ draft ∈ drafts, draft.messageId = messageId ∧ root ∈ draft.dropCids := by
  rw [Vault.erased_iff, Vault.erased_iff]
  constructor
  · rintro ⟨event, hevent, hid, hroot⟩
    obtain ⟨read, hin, hsame, hkind⟩ := VaultEventSet.mem_of.mp hevent
    rcases h.messageErased_of_mem hin hkind with hin | hdraft
    · exact Or.inl ⟨event, VaultEventSet.mem_of.mpr ⟨read, hin, hsame, hkind⟩, hid, hroot⟩
    · exact Or.inr ⟨_, hdraft, hid, hroot⟩
  · rintro (⟨event, hevent, hid, hroot⟩ | ⟨draft, hdraft, hid, hroot⟩)
    · exact ⟨event, h.le.of_mem hevent, hid, hroot⟩
    · obtain ⟨read, hin, hsame⟩ := h.exists_read (List.mem_map_of_mem hdraft)
      refine ⟨⟨read.event, draft⟩, VaultEventSet.mem_of.mpr ⟨read, hin, rfl, ?_⟩, hid, hroot⟩
      rw [hsame]
      rfl

end Erasing

end Erasing

/-! ## Release -/

section Released

variable {inputs inputs' : Shared} {drafts : List MessageErased}

/-- A reading that ends early says why: it is not complete. -/
def Ends {α : Type} (reading : Except Standing α) : Prop :=
  ∀ status, reading = .error status → status ≠ .complete

section Ends

variable {α β : Type}

theorem ends_ok (a : α) : Ends (.ok a) := fun _ h => by cases h

theorem ends_contradicts (because : JsString) : Ends (contradicts because : Except Standing α) := by
  intro status h
  cases h
  simp

theorem ends_refuse {c : Prop} [Decidable c] {status : Standing} (h : status ≠ .complete) :
    Ends (refuse c status) := by
  intro other hother
  unfold refuse at hother
  split at hother
  · cases hother
    exact h
  · cases hother

theorem ends_against {c : Prop} [Decidable c] {because : JsString} : Ends (against c because) :=
  ends_refuse (by simp)

theorem Ends.bind {x : Except Standing α} {f : α → Except Standing β} (hx : Ends x)
    (hf : ∀ a, Ends (f a)) : Ends (x >>= f) := by
  intro status h
  cases x with
  | error other =>
    cases h
    exact hx _ rfl
  | ok a => exact hf a status h

theorem ends_mapError {ε : Type} {x : Except ε α} {because : ε → Standing}
    (h : ∀ e, because e ≠ .complete) : Ends (x.mapError because) := by
  intro status hstatus
  cases x with
  | error e =>
    cases hstatus
    exact h e
  | ok a => cases hstatus

end Ends

theorem ends_preparationReading {preparation : MessagePrepared} {data : MessageOut}
    {sender : Option LocalDidEntity} {channel : Option Channel} :
    Ends (preparationReading inputs preparation data sender channel) := by
  have hevidence : ∀ recipient localKeyType resolution,
      Ends (preparationEvidence inputs preparation recipient localKeyType resolution) := by
    intro recipient localKeyType resolution
    refine ends_against.bind fun _ => ends_against.bind fun _ => ?_
    refine (ends_mapError fun e => by simp).bind fun peerKeyType => ?_
    exact ends_against.bind fun _ => ends_against.bind fun _ => ends_ok _
  refine ends_against.bind fun _ => ends_against.bind fun _ => ?_
  split
  · exact ends_contradicts _
  · refine ends_against.bind fun _ => ?_
    split
    · intro status h
      cases h
      simp
    · exact ends_contradicts _
    · refine (hevidence _ _ _).bind fun check => (ends_refuse (by simp)).bind fun _ => ?_
      exact (ends_refuse (by simp)).bind fun _ => ends_refuse (by simp)

/-- A preparation is complete where its reading ends at nothing. -/
theorem preparationStatus_complete {preparation : MessagePrepared} {data : Option MessageOut}
    {sender : Option LocalDidEntity} {channel : Option Channel} :
    preparationStatus inputs preparation data sender channel = .complete ↔
      ∃ intent, data = some intent ∧
        preparationReading inputs preparation intent sender channel = .ok () := by
  cases data with
  | none => simp [preparationStatus]
  | some data =>
    unfold preparationStatus
    dsimp only
    constructor
    · intro h
      refine ⟨data, rfl, ?_⟩
      split at h
      · rename_i hread
        exact hread
      · rename_i status hread
        exact absurd h (ends_preparationReading status hread)
    · rintro ⟨intent, hintent, hread⟩
      cases hintent
      rw [hread]

/-- A preparation is complete only where the resolution it names is here. -/
theorem preparationReading_present {preparation : MessagePrepared} {data : MessageOut}
    {sender : Option LocalDidEntity} {channel : Option Channel}
    (h : preparationReading inputs preparation data sender channel = .ok ()) :
    ∃ event, inputs.set.resolve preparation.peerResolutionEventCid peerResolved = .present event := by
  unfold preparationReading at h
  obtain ⟨-, -, h⟩ := Checked.bind_eq_ok.mp h
  obtain ⟨-, -, h⟩ := Checked.bind_eq_ok.mp h
  split at h
  · cases h
  · obtain ⟨-, -, h⟩ := Checked.bind_eq_ok.mp h
    split at h
    · cases h
    · cases h
    · rename_i event hresolve
      exact ⟨event, hresolve⟩

/-- A submission is complete where the preparation it names is one of the message's and is. -/
theorem submissionOf_complete {set : VaultEventSet} {preparations : List Preparation}
    {data : Option MessageOut} {event : VaultEvent DeliverySubmitted} :
    (submissionOf set preparations data event).status = .complete ↔
      ∃ resolved preparation,
        set.resolve event.data.preparationEventCid messagePrepared = .present resolved ∧
        (preparations.find? fun candidate => candidate.event.cid = resolved.cid) = some preparation ∧
        data.isSome = true ∧ preparation.status = .complete := by
  unfold submissionOf
  split
  next hresolve => simp [hresolve]
  next hresolve => simp [hresolve]
  next resolved hresolve =>
    simp only [hresolve, Resolved.present.injEq, exists_and_left, exists_eq_left']
    split
    next hfind => simp [hfind]
    next preparation hfind =>
      simp only [hfind, Option.some.injEq, exists_eq_left']
      cases data with
      | none => simp
      | some data => cases hstatus : preparation.status <;> simp

/-- Two views of a message that differ in erasures alone, and in what rests on them. -/
structure SameView (inputs inputs' : Shared) (drafts : List MessageErased) : Prop where
  outside : inputs'.outside = inputs.outside
  dids : inputs'.dids = inputs.dids
  resolutionChecks : inputs'.resolutionChecks = inputs.resolutionChecks
  set : Erasing inputs.set inputs'.set drafts

namespace SameView

/-- A preparation that read without a fault does so in either view: only the wording of a
reference that is not resolved is another. -/
theorem preparationReading_ok (h : SameView inputs inputs' drafts) {preparation : MessagePrepared}
    {data : MessageOut} {sender : Option LocalDidEntity} {channel : Option Channel} :
    preparationReading inputs' preparation data sender channel = .ok () ↔
      preparationReading inputs preparation data sender channel = .ok () := by
  have hevidence : preparationEvidence inputs' preparation = preparationEvidence inputs preparation := by
    funext recipient localKeyType resolution
    rw [preparationEvidence, preparationEvidence, h.outside, h.resolutionChecks]
  have hsame : ∀ event,
      inputs.set.resolve preparation.peerResolutionEventCid peerResolved = .present event →
      preparationReading inputs' preparation data sender channel =
        preparationReading inputs preparation data sender channel := by
    intro event hevent
    unfold preparationReading
    rw [h.outside, hevidence, hevent, (h.set.resolve_present peerResolved fun _ => rfl).mpr hevent]
  constructor
  · intro hok
    obtain ⟨event, hevent⟩ := preparationReading_present hok
    rw [← hsame event ((h.set.resolve_present peerResolved fun _ => rfl).mp hevent)]
    exact hok
  · intro hok
    obtain ⟨event, hevent⟩ := preparationReading_present hok
    rw [hsame event hevent]
    exact hok

theorem preparationStatus_complete (h : SameView inputs inputs' drafts)
    {preparation : MessagePrepared} {data : Option MessageOut} {sender : Option LocalDidEntity}
    {channel : Option Channel} :
    preparationStatus inputs' preparation data sender channel = .complete ↔
      preparationStatus inputs preparation data sender channel = .complete := by
  simp only [Vault.preparationStatus_complete, h.preparationReading_ok]

/-- A submission is complete in one view where it is in the other. -/
theorem submissionOf_complete (h : SameView inputs inputs' drafts)
    {prepared : List (VaultEvent MessagePrepared)} {data : Option MessageOut}
    {sender : Option LocalDidEntity} {channel : Option Channel}
    {envelope envelope' : VaultEvent MessagePrepared → Bool} {event : VaultEvent DeliverySubmitted} :
    (submissionOf inputs'.set (prepared.map fun event => Preparation.mk event
        (preparationStatus inputs' event.data data sender channel) (envelope' event))
        data event).status = .complete ↔
      (submissionOf inputs.set (prepared.map fun event => Preparation.mk event
        (preparationStatus inputs event.data data sender channel) (envelope event))
        data event).status = .complete := by
  rw [Vault.submissionOf_complete, Vault.submissionOf_complete]
  refine exists_congr fun resolved => ?_
  simp only [List.find?_map, Option.map_eq_some_iff, exists_and_left,
    h.set.resolve_present messagePrepared fun _ => rfl, Function.comp_def]
  refine and_congr_right fun _ => ?_
  constructor
  · rintro ⟨_, ⟨event, hfind, rfl⟩, hdata, hstatus⟩
    exact ⟨_, ⟨event, hfind, rfl⟩, hdata, h.preparationStatus_complete.mp hstatus⟩
  · rintro ⟨_, ⟨event, hfind, rfl⟩, hdata, hstatus⟩
    exact ⟨_, ⟨event, hfind, rfl⟩, hdata, h.preparationStatus_complete.mpr hstatus⟩

/-- A message is released in one view where it is in the other. -/
theorem outboundOf_released (h : SameView inputs inputs' drafts) {skips skips' : Skips}
    {messageId : MessageId} {first : VaultEvent MessageOut} {rest : List (VaultEvent MessageOut)}
    {records records' : Records} (hpreparations : records'.preparations = records.preparations)
    (hsubmissions : records'.submissions = records.submissions)
    (hfailures : records'.failures = records.failures) :
    (outboundOf inputs' skips' messageId first rest records').released =
      (outboundOf inputs skips messageId first rest records).released := by
  have hsender : ∀ data sender, senderReading inputs' data sender = senderReading inputs data sender := by
    intro data sender
    unfold senderReading
    rw [h.outside]
  unfold outboundOf
  dsimp only
  rw [h.outside, h.dids, hpreparations, hsubmissions, hfailures]
  simp only [hsender, List.any_map]
  congr 2
  refine List.any_congr rfl fun event => ?_
  exact decide_eq_decide.mpr h.submissionOf_complete

end SameView

end Released

section Fold

variable {O : Outside} {set more : VaultEventSet} {drafts : List MessageErased}
  {checks : VaultChecks} {effectTypes : List JsString}

/-- The two folds see every message alike but for the erasures. -/
theorem Erasing.sameView (h : Erasing set more drafts) :
    SameView (vaultShared O set checks effectTypes) (vaultShared O more checks effectTypes) drafts where
  outside := rfl
  dids := by
    change foldDids O more (foldMediations more checks.mediationKeys) checks.didKeys =
      foldDids O set (foldMediations set checks.mediationKeys) checks.didKeys
    have hlate := late_erased drafts
    rw [h.foldMediations_eq hlate, h.foldDids_eq hlate]
  resolutionChecks := rfl
  set := h

/-- The messages released in one view are those released in the other. -/
theorem SameView.released_eq {shared shared' : Shared} (h : SameView shared shared' drafts)
    (hset : Erasing set more drafts) {evidence evidence' : ChannelEvidence}
    {inbound inbound' : InboundFold} {skips skips' : Skips} :
    ((outboundsOf more evidence' inbound' shared' skips').filter (·.released)).map Outbound.messageId =
      ((outboundsOf set evidence inbound shared skips).filter (·.released)).map
        Outbound.messageId := by
  have hprepared := hset.of_same messagePrepared fun _ => rfl
  have hsubmitted := hset.of_same deliverySubmitted fun _ => rfl
  have hfailed := hset.of_same deliveryFailed fun _ => rfl
  have hsame : ∀ messageId first rest,
      (outboundOf shared' skips' messageId first rest
        (recordsOf more evidence' inbound' messageId)).released =
      (outboundOf shared skips messageId first rest
        (recordsOf set evidence inbound messageId)).released := by
    intro messageId first rest
    refine h.outboundOf_released ?_ ?_ ?_
    · rw [recordsOf, recordsOf, hprepared]
    · rw [recordsOf, recordsOf, hsubmitted]
    · rw [recordsOf, recordsOf, hfailed]
  rw [outboundsOf, outboundsOf, hset.of_same messageOut fun _ => rfl]
  generalize (OMap.groupBy (set.of messageOut) (·.data.messageId)).entries = groups
  induction groups with
  | nil => rfl
  | cons group groups ih =>
    rw [List.filterMap_cons, List.filterMap_cons]
    cases group.2 with
    | nil => exact ih
    | cons first rest =>
      dsimp only
      rw [List.filter_cons, List.filter_cons, hsame]
      split
      · rw [List.map_cons, List.map_cons, ih]
        rfl
      · exact ih

/-- Erasing releases no envelope, and takes no release back. -/
theorem Erasing.released_eq (h : Erasing set more drafts) :
    (foldVault O more checks effectTypes).outbound.released =
      (foldVault O set checks effectTypes).outbound.released := by
  have hview : SameView (vaultShared O set checks effectTypes) (vaultShared O more checks effectTypes)
      drafts := h.sameView
  exact hview.released_eq h

end Fold

/-! ## What is left to retain -/

section Retained

variable {set more : VaultEventSet} {fold : VaultFold} {erasures : Erasures}
  {released : List MessageId} {drafts : List MessageErased} {messageId : MessageId} {root : Cid}

/-- An event retains a root no erasure of its message drops, unless it is a preparation of a
message that is released. -/
theorem mem_rootsKept {event : VaultEvent VaultData} :
    root ∈ rootsKept erasures released event ↔ root ∈ event.event.roots ∧
      (∀ id, event.data.message = some id → erased erasures id root = false) ∧
      ∀ data, event.data = .messagePrepared data → data.messageId ∉ released := by
  unfold rootsKept
  cases event.data with
  | messagePrepared data =>
    by_cases h : data.messageId ∈ released
    · simp [h]
    · simp [h, VaultData.message]
  | messageOut data => simp [VaultData.message]
  | messageIn data => simp [VaultData.message]
  | _ => simp [VaultData.message]

theorem mem_retainedRoots {edge : Retained} : edge ∈ retainedRoots set erasures released ↔
    (∃ event ∈ set.kept, event.cid = edge.cid ∧ edge.root ∈ event.roots) ∨
      ∃ event ∈ set.read, event.cid = edge.cid ∧ edge.root ∈ rootsKept erasures released event := by
  rw [retainedRoots, Cmp.mem_sortBy, List.mem_append, List.mem_flatMap, List.mem_flatMap]
  obtain ⟨cid, root⟩ := edge
  simp [and_comm]

theorem foldVault_retained {O : Outside} {checks : VaultChecks} {effectTypes : List JsString} :
    (foldVault O set checks effectTypes).retained = retainedRoots set (foldErasures set)
      (foldVault O set checks effectTypes).outbound.released := rfl

/-- What is read and what is kept have no CID in common. -/
theorem VaultEventSet.read_ne_kept (set : VaultEventSet) {event : VaultEvent VaultData}
    {other : EventStore.Event} (h : event ∈ set.read) (hother : other ∈ set.kept) :
    event.cid ≠ other.cid := by
  intro hsame
  refine List.disjoint_of_nodup_append set.nodup (List.mem_map_of_mem h) ?_
  rw [hsame]
  exact List.mem_map_of_mem hother

/-- What the drafts drop is every root still to release of the messages they are for. -/
theorem draftEach_drops : ∀ {entries : List (MessageId × JsString)} {drafts : List MessageErased},
    draftEach set fold entries = .ok drafts →
    ((∃ draft ∈ drafts, draft.messageId = messageId ∧ root ∈ draft.dropCids) ↔
      messageId ∈ entries.map Prod.fst ∧ root ∈ unreleased set fold messageId)
  | [], drafts, h => by
    cases h
    simp
  | (id, because) :: rest, drafts, h => by
    rw [draftEach] at h
    split at h
    next hempty =>
      rw [draftEach_drops h, List.map_cons, List.mem_cons]
      constructor
      · rintro ⟨hid, hroot⟩
        exact ⟨Or.inr hid, hroot⟩
      · rintro ⟨rfl | hid, hroot⟩
        · rw [List.isEmpty_iff.mp hempty] at hroot
          cases hroot
        · exact ⟨hid, hroot⟩
    next =>
      obtain ⟨draft, hdraft, h⟩ := Checked.bind_eq_ok.mp h
      obtain ⟨drafts', hdrafts, h⟩ := Checked.bind_eq_ok.mp h
      obtain ⟨-, hdraft⟩ := Checked.refuse_bind_eq_ok.mp hdraft
      cases hdraft
      cases h
      have ih := draftEach_drops hdrafts
      rw [List.map_cons, List.mem_cons, or_and_right, ← ih]
      constructor
      · rintro ⟨draft, hdraft, rfl, hroot⟩
        rcases List.mem_cons.mp hdraft with rfl | hdraft
        · exact Or.inl ⟨rfl, hroot⟩
        · exact Or.inr ⟨draft, hdraft, rfl, hroot⟩
      · rintro (⟨rfl, hroot⟩ | ⟨draft, hdraft, hid, hroot⟩)
        · exact ⟨_, List.mem_cons_self, rfl, hroot⟩
        · exact ⟨draft, List.mem_cons_of_mem _ hdraft, hid, hroot⟩

/-- Nothing is drafted where nothing is left to release. -/
theorem draftEach_nil : ∀ {entries : List (MessageId × JsString)},
    (∀ entry ∈ entries, unreleased set fold entry.1 = []) → draftEach set fold entries = .ok []
  | [], _ => rfl
  | (id, because) :: rest, h => by
    have hempty : unreleased set fold id = [] := h (id, because) List.mem_cons_self
    rw [draftEach, hempty]
    exact draftEach_nil fun entry hentry => h entry (List.mem_cons_of_mem _ hentry)

/-- A draft is of one of the messages, and of none with nothing left to release. -/
theorem draftEach_mem : ∀ {entries : List (MessageId × JsString)} {drafts : List MessageErased},
    draftEach set fold entries = .ok drafts → ∀ draft ∈ drafts,
    draft.messageId ∈ entries.map Prod.fst ∧ unreleased set fold draft.messageId ≠ []
  | [], drafts, h => by
    cases h
    simp
  | (id, because) :: rest, drafts, h => by
    intro draft hdraft
    rw [draftEach] at h
    split at h
    next =>
      obtain ⟨hid, hleft⟩ := draftEach_mem h draft hdraft
      exact ⟨List.mem_cons_of_mem _ hid, hleft⟩
    next hempty =>
      obtain ⟨made, hmade, h⟩ := Checked.bind_eq_ok.mp h
      obtain ⟨drafts', hdrafts, h⟩ := Checked.bind_eq_ok.mp h
      obtain ⟨-, hmade⟩ := Checked.refuse_bind_eq_ok.mp hmade
      cases hmade
      cases h
      rcases List.mem_cons.mp hdraft with rfl | hdraft
      · exact ⟨List.mem_cons_self, fun h => hempty (List.isEmpty_iff.mpr h)⟩
      · obtain ⟨hid, hleft⟩ := draftEach_mem hdrafts draft hdraft
        exact ⟨List.mem_cons_of_mem _ hid, hleft⟩

end Retained

section Plan

variable {O : Outside} {set more : VaultEventSet} {checks : VaultChecks} {effectTypes : List JsString}
  {entries : List (MessageId × JsString)} {drafts : List MessageErased} {messageId : MessageId}

/-- Drafts made for some messages, and their events appended. -/
structure Planned (O : Outside) (set more : VaultEventSet) (checks : VaultChecks)
    (effectTypes : List JsString) (entries : List (MessageId × JsString))
    (drafts : List MessageErased) : Prop where
  drafted : draftEach set (foldVault O set checks effectTypes) entries = .ok drafts
  appended : set.Appends (drafts.map VaultData.messageErased) more

theorem Planned.erasing (h : Planned O set more checks effectTypes entries drafts) :
    Erasing set more drafts := h.appended.appended

namespace Planned

variable (h : Planned O set more checks effectTypes entries drafts)
include h

/-- What is erased then is what was, and all a message of the plan names. -/
theorem erased_iff {root : Cid} : erased (foldErasures more) messageId root = true ↔
    erased (foldErasures set) messageId root = true ∨
      messageId ∈ entries.map Prod.fst ∧ Names set messageId root := by
  rw [h.erasing.erased_iff, draftEach_drops h.drafted, mem_unreleased]
  change _ ∨ _ ∧ _ ∧ erased (foldErasures set) messageId root = false ↔ _
  cases erased (foldErasures set) messageId root <;> simp

/-- Nothing is left to release of a message of the plan. -/
theorem unreleased_nil (hid : messageId ∈ entries.map Prod.fst) :
    unreleased more (foldVault O more checks effectTypes) messageId = [] := by
  rw [List.eq_nil_iff_forall_not_mem]
  intro root hroot
  obtain ⟨hnames, herased⟩ := mem_unreleased.mp hroot
  have hdropped : erased (foldErasures more) messageId root = true :=
    h.erased_iff.mpr (Or.inr ⟨hid, h.erasing.names_iff.mp hnames⟩)
  exact Bool.false_ne_true (herased.symm.trans hdropped)

/-- An edge stays where it is of no event of a message of the plan. -/
theorem retained_iff {edge : Retained} :
    edge ∈ (foldVault O more checks effectTypes).retained ↔
      edge ∈ (foldVault O set checks effectTypes).retained ∧
        ¬ ∃ event ∈ set.read, event.cid = edge.cid ∧
          ∃ id ∈ entries.map Prod.fst, event.data.message = some id := by
  have herasing := h.erasing
  rw [foldVault_retained, foldVault_retained, herasing.released_eq, mem_retainedRoots,
    mem_retainedRoots, herasing.kept]
  obtain ⟨events, hread, hdata, hroots⟩ := herasing.read
  constructor
  · rintro (⟨event, hkept, hcid, hroot⟩ | ⟨event, hmore, hcid, hroot⟩)
    · refine ⟨Or.inl ⟨event, hkept, hcid, hroot⟩, ?_⟩
      rintro ⟨other, hother, hsame, -⟩
      exact set.read_ne_kept hother hkept (hsame.trans hcid.symm)
    · obtain ⟨hin, hkeeps, hprepared⟩ := mem_rootsKept.mp hroot
      rw [hread] at hmore
      rcases List.mem_append.mp hmore with hold | hnew
      · refine ⟨Or.inr ⟨event, hold, hcid, mem_rootsKept.mpr ⟨hin, fun id hid => ?_, hprepared⟩⟩, ?_⟩
        · refine Bool.eq_false_iff.mpr fun herased => ?_
          exact Bool.false_ne_true ((hkeeps id hid).symm.trans (h.erased_iff.mpr (Or.inl herased)))
        · rintro ⟨other, hother, hsame, id, hid, hmessage⟩
          obtain rfl := VaultEventSet.read_inj hother hold (hsame.trans hcid.symm)
          exact Bool.false_ne_true ((hkeeps id hmessage).symm.trans
            (h.erased_iff.mpr (Or.inr ⟨hid, other, hold, hmessage, hin⟩)))
      · have hdraft : event.data ∈ drafts.map VaultData.messageErased := by
          rw [← hdata]
          exact List.mem_map_of_mem hnew
        obtain ⟨draft, -, hsame⟩ := List.mem_map.mp hdraft
        rw [hroots event hnew, ← hsame] at hin
        cases hin
  · rintro ⟨⟨event, hkept, hcid, hroot⟩ | ⟨event, hold, hcid, hroot⟩, hout⟩
    · exact Or.inl ⟨event, hkept, hcid, hroot⟩
    · obtain ⟨hin, hkeeps, hprepared⟩ := mem_rootsKept.mp hroot
      refine Or.inr ⟨event, ?_, hcid, mem_rootsKept.mpr ⟨hin, fun id hid => ?_, hprepared⟩⟩
      · rw [hread]
        exact List.mem_append_left _ hold
      · refine Bool.eq_false_iff.mpr fun herased => ?_
        rcases h.erased_iff.mp herased with herased | ⟨hplanned, -⟩
        · exact Bool.false_ne_true ((hkeeps id hid).symm.trans herased)
        · exact hout ⟨event, hold, hcid, id, hplanned, hid⟩

end Planned

end Plan

/-! ## Erasing is exact -/

/-- What erasing some messages leaves: no root of an event of theirs, and of every other event
what it retained. -/
structure ErasesExactly (before after : VaultFold) (set : VaultEventSet)
    (messages : MessageId → Prop) : Prop where
  complete : ∀ event ∈ set.read, ∀ id, event.data.message = some id → messages id →
    ∀ root, ⟨event.cid, root⟩ ∉ after.retained
  minimal : ∀ cid, (∀ event ∈ set.read, event.cid = cid →
      ∀ id, event.data.message = some id → ¬ messages id) →
    ∀ root, ⟨cid, root⟩ ∈ after.retained ↔ ⟨cid, root⟩ ∈ before.retained

section Exact

variable {O : Outside} {set more : VaultEventSet} {checks : VaultChecks} {effectTypes : List JsString}
  {entries : List (MessageId × JsString)} {drafts : List MessageErased}

theorem Planned.erasesExactly (h : Planned O set more checks effectTypes entries drafts)
    {messages : MessageId → Prop} (hmessages : ∀ id, messages id ↔ id ∈ entries.map Prod.fst) :
    ErasesExactly (foldVault O set checks effectTypes) (foldVault O more checks effectTypes) more
      messages where
  complete := by
    intro event hevent id hid hin root hretained
    refine (h.retained_iff.mp hretained).2 ⟨event, ?_, rfl, id, (hmessages id).mp hin, hid⟩
    exact h.erasing.message_of_mem hevent hid
  minimal := by
    intro cid hother root
    rw [h.retained_iff]
    refine and_iff_left_of_imp fun _ => ?_
    rintro ⟨event, hevent, hcid, id, hin, hid⟩
    obtain ⟨events, hread, -⟩ := h.erasing.read
    refine hother event ?_ hcid id hid ((hmessages id).mpr hin)
    rw [hread]
    exact List.mem_append_left _ hevent

theorem mem_eraseEntries {messageIds : List MessageId} {because : JsString} {id : MessageId} :
    id ∈ ((sorted (OMap.once messageIds)).map fun messageId => (messageId, because)).map Prod.fst ↔
      id ∈ messageIds := by
  simp [Function.comp_def]

theorem mem_closureEntries {id : MessageId} :
    id ∈ (Cmp.sortBy (Cmp.comap Prod.fst Json.compareUnits) (erasureReasons set).entries).map
      Prod.fst ↔ ∃ event ∈ set.of messageErased, event.data.messageId = id := by
  have hkeys : id ∈ (erasureReasons set).keys ↔
      ∃ event ∈ set.of messageErased, event.data.messageId = id := by
    rw [erasureReasons, OMap.mem_keys_foldl_first]
    simp [OMap.keys, OMap.empty]
  rw [← hkeys, OMap.keys]
  simp only [List.mem_map, Cmp.mem_sortBy]

/-- Nothing is drafted again for messages of a plan. -/
theorem Planned.eraseDrafts_nil (h : Planned O set more checks effectTypes entries drafts)
    {messageIds : List MessageId} (hids : ∀ id ∈ messageIds, id ∈ entries.map Prod.fst)
    (because : JsString) :
    eraseDrafts more (foldVault O more checks effectTypes) messageIds because = .ok [] := by
  refine draftEach_nil fun entry hentry => h.unreleased_nil (hids _ ?_)
  exact mem_eraseEntries.mp (List.mem_map_of_mem hentry)

variable (O set checks effectTypes)

/-- After the erases drafted for any messages, no event of one of them retains a root, and every
other event retains what it did; no erase is drafted for them again, and none is owed. After
the erases owed, the same holds of the messages erased before, and no more are owed. -/
theorem erasure_is_exact :
    (∀ messageIds because drafts more,
      eraseDrafts set (foldVault O set checks effectTypes) messageIds because = .ok drafts →
      set.Appends (drafts.map VaultData.messageErased) more →
      ErasesExactly (foldVault O set checks effectTypes) (foldVault O more checks effectTypes) more
          (· ∈ messageIds) ∧
        (∀ reason, eraseDrafts more (foldVault O more checks effectTypes) messageIds reason = .ok []) ∧
        ∀ owed, erasureClosure more (foldVault O more checks effectTypes) = .ok owed →
          ∀ draft ∈ owed, draft.messageId ∉ messageIds) ∧
    ∀ drafts more, erasureClosure set (foldVault O set checks effectTypes) = .ok drafts →
      set.Appends (drafts.map VaultData.messageErased) more →
      ErasesExactly (foldVault O set checks effectTypes) (foldVault O more checks effectTypes) more
          (fun id => ∃ event ∈ set.of messageErased, event.data.messageId = id) ∧
        erasureClosure more (foldVault O more checks effectTypes) = .ok [] ∧
        ∀ messageIds reason,
          (∀ id ∈ messageIds, ∃ event ∈ set.of messageErased, event.data.messageId = id) →
          eraseDrafts more (foldVault O more checks effectTypes) messageIds reason = .ok [] := by
  refine ⟨fun messageIds because drafts more hdrafts happends => ?_,
    fun drafts more hdrafts happends => ?_⟩
  · have hplan : Planned O set more checks effectTypes _ drafts := ⟨hdrafts, happends⟩
    refine ⟨hplan.erasesExactly fun id => mem_eraseEntries.symm,
      hplan.eraseDrafts_nil fun id hid => mem_eraseEntries.mpr hid, ?_⟩
    intro owed howed draft hdraft hid
    exact (draftEach_mem howed draft hdraft).2 (hplan.unreleased_nil (mem_eraseEntries.mpr hid))
  · have hplan : Planned O set more checks effectTypes _ drafts := ⟨hdrafts, happends⟩
    refine ⟨hplan.erasesExactly fun id => mem_closureEntries.symm, ?_,
      fun messageIds reason hids => hplan.eraseDrafts_nil
        (fun id hid => mem_closureEntries.mpr (hids id hid)) reason⟩
    refine draftEach_nil fun entry hentry => hplan.unreleased_nil ?_
    -- a message erased now was erased before, or is of a draft, which is of one that was
    obtain ⟨event, hevent, hid⟩ := mem_closureEntries.mp (List.mem_map_of_mem hentry)
    obtain ⟨read, hread, -, hkind⟩ := VaultEventSet.mem_of.mp hevent
    rcases hplan.erasing.messageErased_of_mem hread hkind with hread | hdraft
    · exact mem_closureEntries.mpr ⟨⟨read.event, event.data⟩,
        VaultEventSet.mem_of.mpr ⟨read, hread, rfl, hkind⟩, hid⟩
    · exact hid ▸ (draftEach_mem hdrafts _ hdraft).1

end Exact

/-! ## An example: one of two messages of one body -/

section Example

def noChecks : VaultChecks := ⟨fun _ => none, fun _ => none, fun _ => none, fun _ => none⟩

def exampleContent : Content where
  msgType := lit "t"
  thid := none
  pthid := none
  createdTime := none
  expiresTime := none
  pleaseAck := none
  ack := []
  headers := []
  bodyCid := lit "body"
  attachmentCids := []
  intentCid := lit "intent"

def exampleEvent (cid : EventCid) (roots : List Cid) : EventStore.Event :=
  ⟨⟨lit "at", lit "author", lit "type", roots, .scalar .null⟩, cid⟩

/-- A message sent and one received, of one body. -/
def exampleSent : VaultEventSet :=
  (VaultEventSet.empty.apply (exampleEvent (lit "out") [lit "body"])
    (.messageOut ⟨exampleContent, lit "m", lit "d", lit "peer", none, none⟩) (by decide) rfl).apply
    (exampleEvent (lit "in") [lit "body"])
    (.messageIn ⟨exampleContent, lit "n", lit "wire", lit "key", none, none⟩) (by decide) rfl

def exampleErase : MessageErased := ⟨lit "m", [lit "body"], lit "user"⟩

def exampleErased : VaultEventSet :=
  exampleSent.apply (exampleEvent (lit "erased") []) (.messageErased exampleErase) (by decide) rfl

theorem erasure_is_exact_example :
    eraseDrafts exampleSent (foldVault .silent exampleSent noChecks []) [lit "m"] (lit "user") =
        .ok [exampleErase] ∧
      exampleSent.Appends [.messageErased exampleErase] exampleErased ∧
      ErasesExactly (foldVault .silent exampleSent noChecks [])
        (foldVault .silent exampleErased noChecks []) exampleErased (· ∈ [lit "m"]) := by
  have hdrafts : eraseDrafts exampleSent (foldVault .silent exampleSent noChecks []) [lit "m"]
      (lit "user") = .ok [exampleErase] := by rfl
  have happends : exampleSent.Appends [.messageErased exampleErase] exampleErased :=
    .next (exampleEvent (lit "erased") []) (by decide) rfl (.none _)
  exact ⟨hdrafts, happends,
    ((erasure_is_exact .silent exampleSent noChecks []).1 _ _ _ _ hdrafts happends).1⟩

end Example

end Estoc.Vault
