import Estoc.Vault.Hosted

/-!
# One intent for a rotation

The records of a rotation away from a pair, read as one intent: this predecessor, toward the
peer anywhere in its verified same-local context, replaced by this successor. Two replicas
hold the same records in orders of their own, and what they reuse has to be the same record.

The reading sorts before it groups, and an event has one place in canonical order, so the
groups are those of the set of records. What is decided before the sort, whether a record is
contradicted and whether there are several predecessors, asks only what the set holds. That
the members of one group share a context, and not only a first channel, is where
same-local contexts have to be classes.
-/

set_option linter.unusedSectionVars false

namespace Estoc.Vault

open Json (lit)
open Utf16 (JsString)
open EventStore (decimal)

structure DecisionGroup where
  fromDidId : DidId
  toDidId : DidId
  /-- The verified same-local context the records' pairs fall in. -/
  context : List Channel
  /-- In canonical event order, each under its own status. -/
  records : List Decision

structure DecisionGroups where
  groups : List DecisionGroup
  /-- The records whose pair is not in the fold yet. -/
  unresolved : List Decision

def DecisionStatus.refused : DecisionStatus → Bool
  | .invalid _ => true
  | _ => false

def DecisionStatus.isCandidate : DecisionStatus → Bool
  | .candidate _ => true
  | _ => false

def DecisionStatus.text : DecisionStatus → JsString
  | .invalid _ => lit "invalid"
  | .conflict _ => lit "conflict"
  | .pending _ => lit "pending"
  | .candidate _ => lit "candidate"

def compareDecisions (a b : Decision) : Ordering := compareVaultEvents a.event b.event

/-! ## The groups -/

/-- What a group is kept under: the two entities and the first channel of the context. -/
abbrev GroupKey := DidId × DidId × Option Channel

structure Grouping where
  groups : OMap GroupKey DecisionGroup
  unresolved : List Decision

section

variable (fold : Continuity)

def keyIn (record : Decision) (channel : Channel) : GroupKey :=
  (record.event.data.fromDidId, record.event.data.toDidId, (fold.sameLocal channel).head?)

/-- One record read, in the order of the sort. -/
def Grouping.read (grouping : Grouping) (record : Decision) : Grouping :=
  if record.status.refused then grouping
  else
    match record.channel with
    | none => { grouping with unresolved := grouping.unresolved ++ [record] }
    | some channel =>
      let key := keyIn fold record channel
      let group := (grouping.groups.get? key).getD
        ⟨record.event.data.fromDidId, record.event.data.toDidId, fold.sameLocal channel, []⟩
      { grouping with
        groups := grouping.groups.set key { group with records := group.records ++ [record] } }

/-- The intents the records support, a record refused for good left out. -/
def decisionGroups (records : List Decision) : DecisionGroups :=
  let grouping := (Cmp.sortBy compareDecisions records).foldl (Grouping.read fold) ⟨OMap.empty, []⟩
  ⟨grouping.groups.values, grouping.unresolved⟩

/-! ## The intent -/

inductive RotationIntent where
  | none
  | conflict (records : List Decision) (because : JsString)
  | pending (record : Decision) (because : JsString)
  | candidate (candidate : Decision) (group : DecisionGroup)

def related (records : List Decision) : List Decision :=
  records.filter fun record => !record.status.refused

/-- What contradicts a record: its own status, or the continuity it has reached. -/
def contradicted (record : Decision) : Option JsString :=
  match record.status, fold.status record.event.cid with
  | .conflict because, _ | _, .conflict because =>
    some (lit "the rotation " ++ record.event.cid ++ lit " is in conflict: " ++ because)
  | _, _ => none

def pendingOn (record : Decision) : RotationIntent :=
  .pending record (lit "the rotation " ++ record.event.cid ++ lit " is pending: " ++
    match record.status with
    | .pending because => because
    | status => status.text)

/-- The intent of records none of which is refused or contradicted. -/
def oneIntent (related : List Decision) (groups : DecisionGroups) : RotationIntent :=
  if 1 < groups.groups.length ∨
      1 < (OMap.once (related.map fun record => record.event.data.fromDidId)).length then
    .conflict related (decimal related.length ++ lit " rotations here are not one intent")
  else
    match groups.unresolved, groups.groups with
    | record :: _, _ => pendingOn record
    | [], group :: _ =>
      match group.records.find? fun record => record.status.isCandidate, group.records with
      | some candidate, _ => .candidate candidate group
      | none, record :: _ => pendingOn record
      -- a group has a record, and a record that is related is in a group or unresolved
      | none, [] => .none
    | [], [] => .none

def rotationIntent (records : List Decision) : RotationIntent :=
  if related records = [] then .none
  else
    match (related records).findSome? (contradicted fold) with
    | some because => .conflict (related records) because
    | none => oneIntent (related records) (decisionGroups fold (related records))

/-- The intent a rotation away from the pair reuses: the one recorded from that local DID
anywhere in its verified same-local context. -/
def decisionFor (localDid peerDid : Did) : RotationIntent :=
  rotationIntent fold (fold.decisionsIn (channelOf localDid peerDid))

end

/-! ## What the groups hold -/

section

variable {fold : Continuity}

def keyOf (fold : Continuity) (record : Decision) : Option GroupKey :=
  record.channel.map (keyIn fold record)

/-- The group of a key, out of the records that have it. -/
def groupOf (fold : Continuity) (key : GroupKey) : List Decision → Option DecisionGroup
  | [] => none
  | first :: rest =>
    some ⟨key.1, key.2.1, (first.channel.map fold.sameLocal).getD [], first :: rest⟩

theorem groupOf_append (key : GroupKey) (records : List Decision) {record : Decision}
    {channel : Channel} (hchannel : record.channel = some channel)
    (hkey : keyIn fold record channel = key) :
    groupOf fold key (records ++ [record]) =
      some { (groupOf fold key records).getD
          ⟨record.event.data.fromDidId, record.event.data.toDidId, fold.sameLocal channel, []⟩ with
        records := ((groupOf fold key records).getD
          ⟨record.event.data.fromDidId, record.event.data.toDidId, fold.sameLocal channel,
            []⟩).records ++ [record] } := by
  cases records with
  | nil =>
      rw [List.nil_append, groupOf, groupOf, hchannel, ← hkey]
      rfl
  | cons first rest => rfl

/-- After any records that stand, what a key holds are those that have it. -/
theorem grouping_spec (fold : Continuity) {records : List Decision} (h : ∀ r ∈ records, r.status.refused = false) :
    (records.foldl (Grouping.read fold) ⟨OMap.empty, []⟩).unresolved =
        records.filter (fun r => r.channel.isNone) ∧
      ∀ key, (records.foldl (Grouping.read fold) ⟨OMap.empty, []⟩).groups.get? key =
        groupOf fold key (records.filter fun r => keyOf fold r = some key) := by
  induction records using List.reverseRecOn with
  | nil => exact ⟨rfl, fun key => rfl⟩
  | append_singleton records record ih =>
      obtain ⟨hunresolved, hgroups⟩ := ih fun r hr => h r (List.mem_append_left _ hr)
      have hstands := h record (List.mem_append_right _ (List.mem_singleton.mpr rfl))
      rw [List.foldl_append, List.foldl_cons, List.foldl_nil, Grouping.read, if_neg (by simp [hstands])]
      cases hchannel : record.channel with
      | none =>
          refine ⟨?_, fun key => ?_⟩
          · simp only [hunresolved, List.filter_append]
            rw [List.filter_singleton, hchannel]
            rfl
          · simp only [hgroups, List.filter_append]
            rw [List.filter_singleton, keyOf, hchannel]
            simp
      | some channel =>
          refine ⟨?_, fun key => ?_⟩
          · simp only [hunresolved, List.filter_append]
            rw [List.filter_singleton, hchannel]
            simp
          · simp only [OMap.get?_set, List.filter_append, hgroups]
            rw [List.filter_singleton, keyOf, hchannel]
            by_cases hkey : keyIn fold record channel = key
            · rw [if_pos hkey.symm, Option.map_some, hkey, decide_eq_true rfl]
              exact (groupOf_append key _ hchannel hkey).symm
            · rw [if_neg (Ne.symm hkey)]
              simp [hkey]

/-! ## The order of the records -/

/-- Records of one event are one record, as those of one fold are. -/
def OneEach (records : List Decision) : Prop :=
  ∀ r ∈ records, ∀ r' ∈ records, r.event.cid = r'.event.cid → r = r'

/-- What a reading comes to: the status, and under a candidate which one and its group. -/
inductive RotationOutcome where
  | none
  | conflict
  | pending
  | candidate (candidate : Decision) (group : DecisionGroup)

def RotationIntent.outcome : RotationIntent → RotationOutcome
  | .none => .none
  | .conflict _ _ => .conflict
  | .pending _ _ => .pending
  | .candidate chosen group => .candidate chosen group

instance : Std.TransCmp compareDecisions :=
  inferInstanceAs (Std.TransCmp (Cmp.comap (fun d : Decision => d.event.event)
    EventStore.compareEvents))

theorem cid_eq_of_compare {a b : Decision} (h : compareDecisions a b = .eq) :
    a.event.cid = b.event.cid := by
  rw [compareDecisions, compareVaultEvents, EventStore.compareEvents, Ordering.then_eq_eq] at h
  exact @Std.LawfulEqCmp.eq_of_compare _ Json.compareUnits _ _ _ h.2

/-- One set of records is sorted into one list. -/
theorem sorted_eq {records records' : List Decision} (hone : OneEach records)
    (h : records.Perm records') :
    Cmp.sortBy compareDecisions records = Cmp.sortBy compareDecisions records' := by
  have hperm := ((@Cmp.sortBy_perm _ compareDecisions records).trans h).trans
    (@Cmp.sortBy_perm _ compareDecisions records').symm
  refine Cmp.eq_of_sorted (fun a ha b hb heq => ?_) hperm (Cmp.sortBy_sorted records)
    (Cmp.sortBy_sorted records')
  exact hone a (Cmp.mem_sortBy.mp ha) b (Cmp.mem_sortBy.mp hb) (cid_eq_of_compare heq)

theorem decisionGroups_eq {records records' : List Decision} (hone : OneEach records)
    (h : records.Perm records') : decisionGroups fold records = decisionGroups fold records' := by
  rw [decisionGroups, decisionGroups, sorted_eq hone h]

theorem length_once_eq {α : Type} [DecidableEq α] {l l' : List α} (h : l.Perm l') :
    (OMap.once l).length = (OMap.once l').length := by
  refine List.Perm.length_eq ((List.perm_ext_iff_of_nodup (OMap.nodup_once l)
    (OMap.nodup_once l')).mpr fun a => ?_)
  rw [OMap.mem_once, OMap.mem_once]
  exact h.mem_iff

theorem oneIntent_outcome {records records' : List Decision} (h : records.Perm records')
    (groups : DecisionGroups) :
    (oneIntent records groups).outcome = (oneIntent records' groups).outcome := by
  have hsize := length_once_eq (h.map fun record => record.event.data.fromDidId)
  unfold oneIntent
  rw [hsize]
  split
  · rfl
  · rfl

theorem contradicted_perm (fold : Continuity) {records records' : List Decision} (h : records.Perm records') :
    (records.findSome? (contradicted fold)).isSome =
      (records'.findSome? (contradicted fold)).isSome := by
  rw [Bool.eq_iff_iff, List.isSome_findSome?, List.isSome_findSome?]
  simp only [List.any_eq_true]
  exact exists_congr fun r => and_congr_left' h.mem_iff

/-- The records that stand decide, in whatever order they come. -/
theorem rotationIntent_outcome {records records' : List Decision} (hone : OneEach records)
    (h : (related records).Perm (related records')) :
    (rotationIntent fold records).outcome = (rotationIntent fold records').outcome := by
  have hrelated : OneEach (related records) := fun r hr r' hr' =>
    hone r (List.mem_of_mem_filter hr) r' (List.mem_of_mem_filter hr')
  have hnil : related records = [] ↔ related records' = [] := by
    rw [← List.length_eq_zero_iff, ← List.length_eq_zero_iff, h.length_eq]
  have hcontradicted := contradicted_perm fold h
  unfold rotationIntent
  rw [decisionGroups_eq hrelated h]
  by_cases hempty : related records = []
  · rw [if_pos hempty, if_pos (hnil.mp hempty)]
  · rw [if_neg hempty, if_neg fun h' => hempty (hnil.mpr h')]
    cases hfound : (related records).findSome? (contradicted fold) with
    | some because =>
        rw [hfound] at hcontradicted
        obtain ⟨because', hfound'⟩ := Option.isSome_iff_exists.mp hcontradicted.symm
        rw [hfound']
        rfl
    | none =>
        rw [hfound] at hcontradicted
        rw [Option.isNone_iff_eq_none.mp (Option.isSome_eq_false_iff.mp hcontradicted.symm)]
        exact oneIntent_outcome h _

theorem related_related (records : List Decision) : related (related records) = related records := by
  rw [related, related, List.filter_filter]
  simp only [Bool.and_self]

/-- A record refused for good leaves no trace. -/
theorem rotationIntent_related (records : List Decision) :
    rotationIntent fold (related records) = rotationIntent fold records := by
  rw [rotationIntent, rotationIntent, related_related]

/-! ## The candidate -/

theorem oneIntent_candidate {records : List Decision} {groups : DecisionGroups}
    {candidate : Decision} {group : DecisionGroup}
    (h : oneIntent records groups = .candidate candidate group) :
    groups.unresolved = [] ∧ groups.groups = [group] ∧
      group.records.find? (fun record => record.status.isCandidate) = some candidate := by
  obtain ⟨gs, unresolved⟩ := groups
  unfold oneIntent at h
  split at h
  · cases h
  · next hfew =>
    have hlength : gs.length ≤ 1 := not_lt.mp fun h' => hfew (Or.inl h')
    cases unresolved with
    | cons record rest => cases h
    | nil =>
        cases gs with
        | nil => cases h
        | cons g rest =>
            have hrest : rest = [] := List.length_eq_zero_iff.mp (by
              rw [List.length_cons] at hlength
              omega)
            simp only at h
            split at h
            · next found hfound =>
              cases h
              exact ⟨rfl, by rw [hrest], hfound⟩
            · cases h
            · cases h

/-- Contexts with one first channel are one. -/
theorem sameLocal_eq_of_head {model : ContinuityModel} (hcontexts : Contexts model) {c d : Channel}
    (h : (model.history c).sameLocal.head? = (model.history d).sameLocal.head?) :
    (model.history c).sameLocal = (model.history d).sameLocal := by
  cases hc : (model.history c).sameLocal with
  | nil =>
      have hself := hcontexts.self c
      rw [hc] at hself
      cases hself
  | cons x rest =>
      have hx : x ∈ (model.history c).sameLocal := by rw [hc]; exact List.mem_cons_self
      have hx' : x ∈ (model.history d).sameLocal := by
        rw [hc, List.head?_cons] at h
        exact List.mem_of_mem_head? h.symm
      rw [← hc, ← hcontexts.same hx, hcontexts.same hx']

/-- What holds of the records where one of them is a candidate over all of them. -/
structure ChosenOver (fold : Continuity) (records : List Decision) (candidate : Decision)
    (group : DecisionGroup) : Prop where
  /-- one predecessor, one successor, within one verified same-local context -/
  intent : ∀ r ∈ records, r.status.refused = false →
    r.event.data.fromDidId = group.fromDidId ∧ r.event.data.toDidId = group.toDidId ∧
      ∃ channel, r.channel = some channel ∧ fold.sameLocal channel = group.context
  /-- none is in conflict, by its own status or by the continuity it has reached -/
  unopposed : ∀ r ∈ records, r.status.refused = false →
    (∀ because, r.status ≠ .conflict because) ∧
      ∀ because, fold.status r.event.cid ≠ .conflict because
  mem : candidate ∈ records
  isCandidate : candidate.status.isCandidate = true
  first : ∀ r ∈ records, r.status.isCandidate = true → (compareDecisions candidate r).isLE
  group : group.records = Cmp.sortBy compareDecisions (related records)

/-- A single group holds every record, where none of them is unresolved. -/
theorem single_group {records : List Decision} {group : DecisionGroup}
    (h : ∀ r ∈ records, r.status.refused = false)
    (hgroups : (decisionGroups fold records).groups = [group])
    (hunresolved : (decisionGroups fold records).unresolved = []) :
    ∃ key, (∀ r ∈ records, keyOf fold r = some key) ∧
      groupOf fold key (Cmp.sortBy compareDecisions records) = some group := by
  have hsorted : ∀ r ∈ Cmp.sortBy compareDecisions records, r.status.refused = false :=
    fun r hr => h r (Cmp.mem_sortBy.mp hr)
  obtain ⟨hnone, hget⟩ := grouping_spec fold hsorted
  rw [decisionGroups] at hgroups hunresolved
  simp only [hnone] at hunresolved
  set grouping := (Cmp.sortBy compareDecisions records).foldl (Grouping.read fold) ⟨OMap.empty, []⟩
  have hvalues : grouping.groups.values = [group] := hgroups
  have hsize : grouping.groups.size = 1 := by
    have := congrArg List.length hvalues
    rwa [OMap.values, List.length_map] at this
  have hmem : group ∈ grouping.groups.values := by
    rw [hvalues]
    exact List.mem_singleton.mpr rfl
  obtain ⟨key, hkey⟩ := OMap.mem_values.mp hmem
  have hall : ∀ r ∈ records, keyOf fold r = some key := by
    intro r hr
    cases hchannel : r.channel with
    | none =>
        have hmem : r ∈ (Cmp.sortBy compareDecisions records).filter fun r => r.channel.isNone :=
          List.mem_filter.mpr ⟨Cmp.mem_sortBy.mpr hr, by rw [hchannel]; rfl⟩
        rw [hunresolved] at hmem
        cases hmem
    | some channel =>
        have hkeyOf : keyOf fold r = some (keyIn fold r channel) := by rw [keyOf, hchannel]; rfl
        by_contra hne
        -- a group of its own would be a second one
        have hmem : keyIn fold r channel ∈ grouping.groups.keys := by
          rw [OMap.mem_keys, hget]
          cases hfilter : (Cmp.sortBy compareDecisions records).filter
              fun r' => keyOf fold r' = some (keyIn fold r channel) with
          | nil =>
              have hin : r ∈ (Cmp.sortBy compareDecisions records).filter
                  fun r' => keyOf fold r' = some (keyIn fold r channel) :=
                List.mem_filter.mpr ⟨Cmp.mem_sortBy.mpr hr, decide_eq_true hkeyOf⟩
              rw [hfilter] at hin
              cases hin
          | cons first rest => exact ⟨_, rfl⟩
        have htwo := OMap.two_le_size.mpr ⟨_, _, hmem, OMap.mem_keys.mpr ⟨group, hkey⟩, fun heq =>
          hne (by rw [hkeyOf, heq])⟩
        omega
  refine ⟨key, hall, ?_⟩
  rw [hget, List.filter_eq_self.mpr fun r hr =>
    decide_eq_true (hall r (Cmp.mem_sortBy.mp hr))] at hkey
  exact hkey

theorem contradicted_eq_none {record : Decision} (h : contradicted fold record = none) :
    (∀ because, record.status ≠ .conflict because) ∧
      ∀ because, fold.status record.event.cid ≠ .conflict because := by
  unfold contradicted at h
  constructor <;> intro because heq <;> rw [heq] at h
  · cases h
  · cases hstatus : record.status <;> rw [hstatus] at h <;> cases h

theorem mem_related {records : List Decision} {record : Decision} :
    record ∈ related records ↔ record ∈ records ∧ record.status.refused = false := by
  rw [related, List.mem_filter, Bool.not_eq_true']

theorem not_refused_of_candidate {status : DecisionStatus} (h : status.isCandidate = true) :
    status.refused = false := by
  cases status <;> first | rfl | cases h

/-- A candidate stands over all the records, and first among those that could. -/
theorem chosenOver_of_candidate (hcontexts : Contexts fold.model) {records : List Decision}
    {candidate : Decision} {group : DecisionGroup}
    (h : rotationIntent fold records = .candidate candidate group) :
    ChosenOver fold records candidate group := by
  unfold rotationIntent at h
  split at h
  · cases h
  split at h
  · cases h
  next hclear =>
  obtain ⟨hunresolved, hgroups, hfound⟩ := oneIntent_candidate h
  obtain ⟨key, hall, hgroup⟩ := single_group (fun r hr => (mem_related.mp hr).2) hgroups hunresolved
  obtain ⟨hcandidate, before, after, hsplit, hbefore⟩ := List.find?_eq_some_iff_append.mp hfound
  have hrecords : group.records = Cmp.sortBy compareDecisions (related records) := by
    cases hsorted : Cmp.sortBy compareDecisions (related records) with
    | nil => rw [hsorted] at hgroup; cases hgroup
    | cons first rest => rw [hsorted] at hgroup; cases hgroup; rfl
  have hmem : ∀ {r}, r ∈ group.records ↔ r ∈ records ∧ r.status.refused = false := by
    intro r
    rw [hrecords, Cmp.mem_sortBy, mem_related]
  have hchosen : candidate ∈ group.records := by
    rw [hsplit]
    exact List.mem_append_right _ List.mem_cons_self
  refine ⟨fun r hr hstands => ?_, fun r hr hstands => ?_, (hmem.mp hchosen).1, hcandidate,
    fun r hr hstands => ?_, hrecords⟩
  · -- every record has the key of the group, whose context is that of its first record
    cases hsorted : Cmp.sortBy compareDecisions (related records) with
    | nil => rw [hsorted] at hgroup; cases hgroup
    | cons first rest =>
        rw [hsorted] at hgroup
        cases hgroup
        have hfirst : first ∈ related records :=
          Cmp.mem_sortBy.mp (by rw [hsorted]; exact List.mem_cons_self)
        obtain ⟨c, hc, hkey⟩ := Option.map_eq_some_iff.mp (hall r (mem_related.mpr ⟨hr, hstands⟩))
        obtain ⟨d, hd, hkey'⟩ := Option.map_eq_some_iff.mp (hall first hfirst)
        refine ⟨congrArg Prod.fst hkey, congrArg (fun k => k.2.1) hkey, c, hc, ?_⟩
        rw [hd]
        exact sameLocal_eq_of_head hcontexts (congrArg (fun k => k.2.2) (hkey.trans hkey'.symm))
  · exact contradicted_eq_none (List.findSome?_eq_none_iff.mp hclear r (mem_related.mpr ⟨hr, hstands⟩))
  · have hr' : r ∈ group.records := hmem.mpr ⟨hr, not_refused_of_candidate hstands⟩
    have hsorted := @Cmp.sortBy_sorted _ compareDecisions _ (related records)
    rw [← hrecords, hsplit] at hsorted
    rw [hsplit] at hr'
    rcases List.mem_append.mp hr' with hr' | hr'
    · have hnot := hbefore r hr'
      rw [hstands] at hnot
      cases hnot
    · rcases List.mem_cons.mp hr' with rfl | hr'
      · exact Std.ReflCmp.isLE_rfl
      · exact (List.pairwise_cons.mp (List.pairwise_append.mp hsorted).2.1).1 r hr'

/-! ## What a pair reuses -/

theorem decisionsIn_eq {c d : Channel} (hcontexts : Contexts fold.model) (h : d ∈ fold.sameLocal c)
    (hlocal : d.localDid = c.localDid) : fold.decisionsIn d = fold.decisionsIn c := by
  have hsame : fold.sameLocal d = fold.sameLocal c := hcontexts.same h
  unfold Continuity.decisionsIn
  rw [hsame, hlocal]

end

/-- The decisions of a fold are named by their events. -/
theorem oneEach_of_fold {O : Outside} {set : VaultEventSet} {checks : VaultChecks}
    {effectTypes : List JsString} {records : List Decision}
    (h : ∀ r ∈ records,
      r ∈ (foldVault O set checks effectTypes).continuity.evidence.decisions.values) :
    OneEach records := by
  intro r hr r' hr' hcid
  obtain ⟨cid, hget⟩ := OMap.mem_values.mp (h r hr)
  obtain ⟨cid', hget'⟩ := OMap.mem_values.mp (h r' hr')
  have hkey : cid = cid' := by
    rw [← foldDecisions_cid hget, ← foldDecisions_cid hget', hcid]
  rw [← hkey, hget] at hget'
  exact Option.some.inj hget'

/-- A fold reads one intent out of its decisions. Their order decides nothing, and the refused
among them neither; a candidate stands over all the others, of one predecessor and one
successor within one context, and first in canonical order among those that could; and the
pairs of one context, ours the same, reuse one answer. -/
theorem rotation_is_one_intent (O : Outside) (set : VaultEventSet) (checks : VaultChecks)
    (effectTypes : List JsString) :
    let fold := (foldVault O.hosting set checks effectTypes).continuity
    (∀ records, (∀ r ∈ records, r ∈ fold.evidence.decisions.values) → OneEach records) ∧
      (∀ records records', OneEach records → records.Perm records' →
        (rotationIntent fold records).outcome = (rotationIntent fold records').outcome) ∧
      (∀ records, rotationIntent fold (related records) = rotationIntent fold records) ∧
      (∀ records candidate group, rotationIntent fold records = .candidate candidate group →
        ChosenOver fold records candidate group) ∧
      ∀ localDid peerDid peerDid',
        channelOf localDid peerDid' ∈ fold.sameLocal (channelOf localDid peerDid) →
        decisionFor fold localDid peerDid' = decisionFor fold localDid peerDid := by
  intro fold
  have hcontexts : Contexts fold.model := contexts_deriveHosted _
  refine ⟨fun records h => oneEach_of_fold h, fun records records' hone hperm => ?_,
    rotationIntent_related, fun records candidate group h => chosenOver_of_candidate hcontexts h,
    fun localDid peerDid peerDid' h => ?_⟩
  · exact rotationIntent_outcome hone (hperm.filter _)
  · rw [decisionFor, decisionFor, decisionsIn_eq hcontexts h rfl]

/-! ## Two records of one intent -/

/-- Every channel is alone in its context. -/
def apart : ContinuityModel :=
  { Outside.silent.deriveContinuity [] with history := fun channel => ⟨[], [channel]⟩ }

def decidedAt (at_ cid : JsString) : Decision where
  event := ⟨{ at_, author := [], type := [], roots := [], data := .scalar .null, cid },
    ⟨lit "a0", lit "B", lit "a1", none, []⟩⟩
  channel := some ⟨lit "A", lit "B"⟩
  status := .candidate (.localDecision ⟨lit "A", lit "B"⟩ (.rotate (lit "C")))

/-- The earlier record is the candidate, though it comes second. -/
example :
    let earlier := decidedAt (lit "1") (lit "y")
    let later := decidedAt (lit "2") (lit "x")
    (rotationIntent ⟨⟨OMap.empty, OMap.empty, OMap.empty⟩, [], OMap.empty, apart⟩
      [later, earlier]).outcome =
      .candidate earlier ⟨lit "a0", lit "a1", [⟨lit "A", lit "B"⟩], [earlier, later]⟩ := rfl

end Estoc.Vault
