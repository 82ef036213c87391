import Estoc.Lib.MemoWalk
import Estoc.Vault.Dids

/-!
# The lineage of an entity

The branch an entity's generation leads back to. The generations are followed back from the
entity until one is answered already, is an entry, waits or fails, then read forward again, and
each entity on the way is given its answer once.

The status, the anchor and the start are what the plain recursion by predecessor says, whatever
was asked before; only the wording of a fault tells where a walk came in. A chain that leads back
to itself is invalid all along. What leads back is the generations of the profile made here: an
entity under another profile follows none, and is unsupported wherever its predecessor leads.
-/

set_option linter.unusedSectionVars false

namespace Estoc.Vault

open Json (lit lit_ofList)
open Utf16 (JsString)

def GENERATION_PROFILE : JsString := lit "v1"

inductive Lineage where
  | entry
  | branch (anchor : Channel) (start : DidId)
  | pending (because : JsString)
  | unsupported (profile : JsString)
  | invalid (because : JsString)

def DidGeneration.profile : DidGeneration → JsString
  | .entry profile => profile
  | .start profile _ _ => profile
  | .next_ profile _ => profile

/-- A generation that is no entry: the DID it names as its predecessor, and for a start the
peer's it is bound to. -/
structure Succession where
  profile : JsString
  predecessor : Did
  binding : Option Did

def DidGeneration.succession : DidGeneration → Option Succession
  | .entry _ => none
  | .start profile predecessor binding => some ⟨profile, predecessor, some binding⟩
  | .next_ profile predecessor => some ⟨profile, predecessor, none⟩

/-- What a lineage is read from: the entities, the consistent one of each DID, and all that
claim one. -/
structure LineageTable where
  dids : OMap DidId LocalDidEntity
  byDid : OMap Did DidId
  claimants : Did → List DidId

/-- What a start or a next is, given what its predecessor is. -/
def follows (didId : DidId) (generation : Succession) : Lineage → Lineage
  | .pending because =>
    .pending (lit "its predecessor " ++ generation.predecessor ++ lit " waits: " ++ because)
  | .invalid because =>
    .invalid (lit "its predecessor " ++ generation.predecessor ++ lit " is invalid: " ++ because)
  | .unsupported profile =>
    .invalid (lit "its predecessor " ++ generation.predecessor ++ lit " is under profile " ++
      profile ++ lit ", not " ++ generation.profile)
  | .entry =>
    match generation.binding with
    | some binding => .branch (channelOf generation.predecessor binding) didId
    | none => .invalid (lit "a next follows a start or a next, and its predecessor " ++
        generation.predecessor ++ lit " is an entry")
  | .branch anchor start =>
    match generation.binding with
    | none => .branch anchor start
    | some _ => .invalid (lit "a start follows an entry, and its predecessor " ++
        generation.predecessor ++ lit " is in a branch")

namespace LineageTable

variable (table : LineageTable)

/-- Where a predecessor is found: among the consistent entities. A DID only an entity in
conflict claims fails the chain for good, one no entity claims leaves it waiting. -/
def predecessorOf (predecessor : Did) : Lineage ⊕ DidId :=
  match table.byDid.get? predecessor with
  | some didId => .inr didId
  | none =>
    match sorted (table.claimants predecessor) with
    | [] => .inl (.pending (lit "the creation of its predecessor " ++ predecessor ++
        lit " is not here"))
    | claimed :: _ => .inl (.invalid (lit "its predecessor " ++ predecessor ++ lit " is entity " ++
        claimed ++ lit ", which is in conflict"))

/-- One entity of a chain: what it is on its own, or the entity it follows. -/
def here (current : DidId) : Lineage ⊕ DidId :=
  match table.dids.get? current with
  | none => .inl (.invalid (lit "no entity " ++ current ++ lit " is recorded here"))
  | some entity =>
    if entity.conflict then
      .inl (.invalid (lit "entity " ++ current ++ lit " is in conflict: " ++ entity.fault))
    else
      match entity.created with
      | none => .inl (.pending (lit "entity " ++ current ++ lit " has no creation here"))
      | some created =>
        if created.generation.profile ≠ GENERATION_PROFILE then
          .inl (.unsupported created.generation.profile)
        else
          match created.generation.succession with
          | none => .inl .entry
          | some generation => table.predecessorOf generation.predecessor

/-- The generation an entity on a chain is of; one that follows another has it. -/
def generationOf (didId : DidId) : Option Succession :=
  ((table.dids.get? didId).bind LocalDidEntity.created).bind (·.generation.succession)

def walk : MemoWalk DidId Lineage where
  here := table.here
  follow didId result :=
    match table.generationOf didId with
    | some generation => follows didId generation result
    | none => result
  looped current := .invalid (lit "the generations of " ++ current ++ lit " lead back to itself")

/-- What is remembered after some lineages were asked for. -/
def asked (didIds : List DidId) : Option (OMap DidId Lineage) :=
  table.walk.asked (table.dids.size + 1) OMap.empty didIds

end LineageTable

/-- What the lineages of a set are read from. -/
def lineageTable (set : VaultEventSet) (fold : DidFold) : LineageTable :=
  ⟨fold.entities, fold.byDid, claimants set⟩

/-! ## What is said of a lineage -/

/-- A lineage without the wording of its faults. -/
inductive LineageStatus where
  | entry
  | branch (anchor : Channel) (start : DidId)
  | pending
  | unsupported
  | invalid
deriving DecidableEq

def Lineage.status : Lineage → LineageStatus
  | .entry => .entry
  | .branch anchor start => .branch anchor start
  | .pending _ => .pending
  | .unsupported _ => .unsupported
  | .invalid _ => .invalid

/-- Nothing follows what is invalid or under another profile. -/
theorem follows_invalid {didId : DidId} {generation : Succession} {lineage : Lineage}
    (h : lineage.status = .invalid ∨ lineage.status = .unsupported) :
    (follows didId generation lineage).status = .invalid := by
  rcases h with h | h <;> cases lineage <;> cases h <;> rfl

namespace LineageTable

variable {table : LineageTable} {didId predecessor : DidId}

/-- An entity follows another through a generation of its own. -/
theorem generationOf_of_follows (h : table.here didId = .inr predecessor) :
    ∃ generation, table.generationOf didId = some generation ∧
      table.byDid.get? generation.predecessor = some predecessor := by
  unfold here at h
  split at h
  next => cases h
  next entity hentity =>
    split at h
    next => cases h
    next =>
      split at h
      next => cases h
      next created hcreated =>
        split at h
        next => cases h
        next =>
          split at h
          next => cases h
          next generation hgeneration =>
            refine ⟨generation, ?_, ?_⟩
            · rw [generationOf, hentity, Option.bind_some, hcreated, Option.bind_some, hgeneration]
            · unfold predecessorOf at h
              split at h
              next didId hdid =>
                cases h
                exact hdid
              next => split at h <;> cases h

/-- What plain recursion by predecessor says of an entity: its own status, or what its
generation makes of its predecessor's; invalid where the recursion never ends. -/
def Plain (table : LineageTable) (didId : DidId) (status : LineageStatus) : Prop :=
  table.walk.Answer Lineage.status .invalid didId status

end LineageTable

/-! ## Claims that lead back to themselves -/

/-- A creation of the one names as its predecessor a DID that a creation of the other spells. -/
def Precedes (set : VaultEventSet) (didId other : DidId) : Prop :=
  ∃ event ∈ set.of didCreated, event.data.didId = didId ∧
    ∃ generation, event.data.generation.succession = some generation ∧
      ∃ creation ∈ set.of didCreated, creation.data.didId = other ∧
        (creation.data.did = generation.predecessor ∨
          creation.data.longFormDid = generation.predecessor)

/-- On a cycle of claimed predecessors, or leading into one. -/
def Cyclic (set : VaultEventSet) (didId : DidId) : Prop :=
  ∃ other, Relation.ReflTransGen (Precedes set) didId other ∧ Relation.TransGen (Precedes set) other other

/-- A creation of the entity is under a profile this version does not make. -/
def Foreign (set : VaultEventSet) (didId : DidId) : Prop :=
  ∃ event ∈ set.of didCreated, event.data.didId = didId ∧
    event.data.generation.profile ≠ GENERATION_PROFILE

section Cycles

variable {O : Outside} {set : VaultEventSet} {mediations : MediationFold}
  {keyChecks : Verdicts KeyCheck} {didId other : DidId}

theorem Cyclic.claims (h : Cyclic set didId) : ∃ other, Precedes set didId other ∧ Cyclic set other := by
  obtain ⟨last, hleads, hcycle⟩ := h
  rcases Relation.ReflTransGen.cases_head hleads with rfl | ⟨next, hnext, hrest⟩
  · obtain ⟨next, hnext, hback⟩ := Relation.TransGen.head'_iff.mp hcycle
    exact ⟨next, hnext, didId, hback, hcycle⟩
  · exact ⟨next, hnext, last, hrest, hcycle⟩

theorem mem_claimants {spelling : Did} {event : VaultEvent DidCreated}
    (h : event ∈ set.of didCreated)
    (hspelling : event.data.did = spelling ∨ event.data.longFormDid = spelling) :
    event.data.didId ∈ claimants set spelling := by
  refine List.mem_filter.mpr ⟨mem_didIds_of_created h, List.any_eq_true.mpr ⟨event, ?_, ?_⟩⟩
  · rw [creationsOf_eq]
    exact List.mem_filter.mpr ⟨h, decide_eq_true rfl⟩
  · rw [Bool.or_eq_true, beq_iff_eq, beq_iff_eq]
    exact hspelling

theorem entityOf_conflict : (entityOf O set mediations keyChecks didId).conflict =
    !(entityConflicts O set keyChecks didId (creationOf set didId)).isEmpty := rfl

theorem entityOf_created_eq : (entityOf O set mediations keyChecks didId).created =
    (creationOf set didId).toOption.join := rfl

/-- An entity not in conflict was created as every creation of it says. -/
theorem creationOf_event {event : VaultEvent DidCreated}
    (h : (entityOf O set mediations keyChecks event.data.didId).conflict = false)
    (hevent : event ∈ set.of didCreated) :
    ∃ created, creationOf set event.data.didId = .ok (some created) ∧ event.data = created := by
  have hmem : event ∈ creationsOf set event.data.didId := by
    rw [creationsOf_eq]
    exact List.mem_filter.mpr ⟨hevent, decide_eq_true rfl⟩
  obtain ⟨creation, hcreation⟩ := creationOf_of_not_conflict h
  cases creation with
  | some created => exact ⟨created, hcreation, (creationOf_some hcreation).2 event hmem⟩
  | none =>
    unfold creationOf at hcreation
    split at hcreation
    next hnone =>
      rw [hnone] at hmem
      cases hmem
    next => split at hcreation <;> cases hcreation

/-- An entity not in conflict is the only one to claim a DID of its own. -/
theorem claimants_unique (h : (entityOf O set mediations keyChecks didId).conflict = false)
    {created : DidCreated} (hcreated : creationOf set didId = .ok (some created)) {spelling : Did}
    (hspelling : spelling = created.did ∨ spelling = created.longFormDid)
    (hother : other ∈ claimants set spelling) : other = didId := by
  rw [entityOf_conflict, Bool.not_eq_false', List.isEmpty_iff, hcreated, entityConflicts] at h
  have hclaimed := (List.append_eq_nil_iff.mp (List.append_eq_nil_iff.mp h).1).1
  by_contra hne
  rw [claimed, List.flatMap_eq_nil_iff] at hclaimed
  have hnone := hclaimed spelling (by simpa using hspelling)
  rw [List.map_eq_nil_iff, List.filter_eq_nil_iff] at hnone
  exact hnone other hother (by simpa using hne)

/-- A DID finds the one entity that claims it. -/
theorem byDid_unique {spelling : Did}
    (h : (foldDids O set mediations keyChecks).byDid.get? spelling = some didId)
    (hother : other ∈ claimants set spelling) : other = didId := by
  obtain ⟨entry, hentry, hspelling, howner⟩ := OMap.get?_index_some h
  obtain ⟨entity, hentity, hentry⟩ := List.mem_flatMap.mp hentry
  obtain ⟨owner, -, rfl⟩ := List.mem_map.mp hentity
  split at hentry
  next => cases hentry
  next hconflict =>
    split at hentry
    next => cases hentry
    next created hcreated =>
      have hown : entry.2 = owner ∧ (entry.1 = created.did ∨ entry.1 = created.longFormDid) := by
        rcases List.mem_cons.mp hentry with rfl | hentry
        · exact ⟨rfl, Or.inl rfl⟩
        · rw [List.mem_singleton.mp hentry]
          exact ⟨rfl, Or.inr rfl⟩
      subst hspelling
      subst howner
      rw [hown.1]
      exact claimants_unique (Bool.eq_false_iff.mpr hconflict) (entityOf_created hcreated) hown.2 hother

variable (O mediations keyChecks) in
/-- An entity on a cycle of claims or leading into one ends the chain at a fault or follows
another such. -/
theorem Cyclic.here (h : Cyclic set didId) :
    (∃ lineage, (lineageTable set (foldDids O set mediations keyChecks)).here didId = .inl lineage ∧
      (lineage.status = .invalid ∨ lineage.status = .unsupported ∧ Foreign set didId)) ∨
    ∃ next, (lineageTable set (foldDids O set mediations keyChecks)).here didId = .inr next ∧
      Cyclic set next := by
  obtain ⟨other, ⟨event, hevent, rfl, generation, hgeneration, creation, hcreation, rfl, hspelling⟩,
    hother⟩ := h.claims
  have hget : (foldDids O set mediations keyChecks).entities.get? event.data.didId =
      some (entityOf O set mediations keyChecks event.data.didId) := by
    rw [foldDids_get?, if_pos (mem_didIds_of_created hevent)]
  have hclaims := mem_claimants hcreation hspelling
  unfold LineageTable.here lineageTable
  dsimp only
  rw [hget]
  dsimp only
  split
  next => exact Or.inl ⟨_, rfl, Or.inl rfl⟩
  next hconflict =>
    obtain ⟨created, hcreated, hsame⟩ := creationOf_event (Bool.eq_false_iff.mpr hconflict) hevent
    have hrecorded : (entityOf O set mediations keyChecks event.data.didId).created = some created := by
      rw [entityOf_created_eq, hcreated]
      rfl
    rw [hrecorded, ← hsame]
    dsimp only
    split
    next hprofile => exact Or.inl ⟨_, rfl, Or.inr ⟨rfl, event, hevent, rfl, hprofile⟩⟩
    next =>
      rw [hgeneration]
      dsimp only
      unfold LineageTable.predecessorOf
      dsimp only
      split
      next next hnext =>
        refine Or.inr ⟨next, rfl, ?_⟩
        rw [← byDid_unique hnext hclaims]
        exact hother
      next =>
        split
        next hnone =>
          have hmem := mem_sorted.mpr hclaims
          rw [hnone] at hmem
          cases hmem
        next => exact Or.inl ⟨_, rfl, Or.inl rfl⟩

/-- On a cycle of predecessors or leading into one, an entity is invalid, or unsupported
through its own profile. -/
theorem Cyclic.status (h : Cyclic set didId) {status : LineageStatus}
    (hplain : (lineageTable set (foldDids O set mediations keyChecks)).Plain didId status) :
    status = .invalid ∨ status = .unsupported ∧ Foreign set didId := by
  rcases hplain with ⟨lineage, hyields, rfl⟩ | ⟨-, rfl⟩
  · induction hyields with
    | @here didId lineage hhere =>
      rcases h.here O mediations keyChecks with
        ⟨other, hother, hstatus⟩ | ⟨next, hnext, -⟩
      · cases hhere.symm.trans hother
        exact hstatus
      · cases hhere.symm.trans hnext
    | @follow didId next lineage hhere rest ih =>
      rcases h.here O mediations keyChecks with
        ⟨other, hother, -⟩ | ⟨next', hnext', hcyclic⟩
      · cases hhere.symm.trans hother
      · cases hhere.symm.trans hnext'
        obtain ⟨generation, hgeneration, -⟩ := LineageTable.generationOf_of_follows hhere
        refine Or.inl ?_
        change (match (lineageTable set (foldDids O set mediations keyChecks)).generationOf didId with
          | some generation => follows didId generation lineage
          | none => lineage).status = .invalid
        rw [hgeneration]
        exact follows_invalid ((ih hcyclic).imp_right And.left)
  · exact Or.inl rfl

end Cycles

/-! ## The lineages of a fold -/

section Example

end Example

end Estoc.Vault
