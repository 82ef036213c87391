import Estoc.Lib.Cmp
import Estoc.Vault.Outside

/-!
# The vault's own communication DIDs

The mediation arrangements, and over them the DID entities: for each entity ID the one
creation its events agree on, its document read, where that sends, the arrangement it is
routed by, and everything that keeps it from being live, the conflicts first. An entity in
conflict cannot be used for cryptography however its arrangement stands. Whether a document
carries the keys the seed derives is checked beside the fold and handed in.
-/

set_option linter.unusedSectionVars false

namespace Estoc.Vault

open Json (lit)
open Utf16 (JsString)
open Checked (refuse)

/-- Whether a recorded entity's document carries the keys the seed derives for it. -/
inductive KeyCheck where
  | verified
  | mismatch
deriving DecidableEq

/-- Verdicts reached beside a fold: none where none was. -/
abbrev Verdicts (ν : Type) := JsString → Option ν

/-- Texts in the order of their code units. -/
def sorted (texts : List JsString) : List JsString := Cmp.sortBy Json.compareUnits texts

def joined (texts : List JsString) : JsString := (lit ", ").intercalate texts

/-! ## Mediations -/

inductive MediationStatus where
  | usable
  | pending
  | retired
  | conflict
deriving DecidableEq

def MediationStatus.text : MediationStatus → JsString
  | .usable => lit "usable"
  | .pending => lit "pending"
  | .retired => lit "retired"
  | .conflict => lit "conflict"

structure Mediation where
  mediationId : MediationId
  mediatorDid : Option Did
  me : Option Me
  routingDid : Option Did
  retired : Option JsString
  faults : List JsString
  identity : Option KeyCheck
  status : MediationStatus

structure MediationFold where
  mediations : OMap MediationId Mediation
  byRoutingDid : OMap Did (List Mediation)

/-- The arrangements any grant of which names a routing DID, under either spelling. -/
def MediationFold.through (fold : MediationFold) (routingDid : Did) : List Mediation :=
  (fold.byRoutingDid.get? (canonicalDid routingDid)).getD []

section Mediations

variable (set : VaultEventSet) (keyChecks : Verdicts KeyCheck)

/-- Each created arrangement's creation, the first in canonical order; none where the
recorded creations disagree on the mediator or on `me`. -/
def mediationCreations : OMap MediationId (Option MediationCreated) :=
  let groups := OMap.groupBy (set.of mediationCreated) (·.data.mediationId)
  OMap.index groups.entries Prod.fst fun group =>
    group.2.head?.bind fun first =>
      if group.2.all fun event =>
          sameDid event.data.mediatorDid first.data.mediatorDid && event.data.me == first.data.me
      then some first.data else none

/-- The routing DIDs an arrangement was granted, canonical, each as it was first spelled. -/
def routingDidsOf (granted : List (VaultEvent MediationGranted)) : OMap Did Did :=
  granted.foldl (fun dids event =>
    let routingDid := canonicalDid event.data.routingDid
    if dids.has routingDid then dids else dids.set routingDid event.data.routingDid) OMap.empty

def mediationFaults (created : Option (Option MediationCreated)) (routingDids : OMap Did Did)
    (identity : Option KeyCheck) : List JsString :=
  (if created = some none then [lit "creations disagree"] else []) ++
  (if 1 < routingDids.size then [lit "grants disagree: " ++ joined (sorted routingDids.keys)]
    else []) ++
  (match created.join with
    | some creation =>
      if routingDids.size = 1 ∧ routingDids.has (canonicalDid creation.mediatorDid) = false then
        [lit "an arrangement is routed through its mediator"]
      else []
    | none => []) ++
  (if identity = some .mismatch then [lit "the seed does not derive the arrangement's keys"]
    else [])

def mediationOf (mediationId : MediationId) : Mediation :=
  let granted := OMap.groupBy (set.of mediationGranted) (·.data.mediationId)
  let retired := OMap.groupBy (set.of mediationRetired) (·.data.mediationId)
  let created := (mediationCreations set).get? mediationId
  let routingDids := routingDidsOf ((granted.get? mediationId).getD [])
  let identity := keyChecks mediationId
  let faults := mediationFaults created routingDids identity
  let conflict := !faults.isEmpty
  let retirement := ((retired.get? mediationId).getD []).head?.map (·.data.because)
  let routingDid := if routingDids.size = 1 ∧ conflict = false then routingDids.values.head? else none
  let creation := if conflict then none else created.join
  { mediationId
    mediatorDid := creation.map (·.mediatorDid)
    me := creation.map (·.me)
    routingDid
    retired := retirement
    faults
    identity
    status :=
      if conflict then .conflict
      else if retirement.isSome then .retired
      else if creation.isNone || routingDid.isNone || identity.isNone then .pending
      else .usable }

def mediationIds : List MediationId :=
  sorted (OMap.once ((set.of mediationCreated).map (·.data.mediationId) ++
    (set.of mediationGranted).map (·.data.mediationId) ++
    (set.of mediationRetired).map (·.data.mediationId) ++
    (set.of mediationSelected).map (·.data.mediationId)))

def foldMediations : MediationFold :=
  let granted := OMap.groupBy (set.of mediationGranted) (·.data.mediationId)
  let mediations := (mediationIds set).map (mediationOf set keyChecks)
  { mediations := OMap.index mediations Mediation.mediationId id
    byRoutingDid := mediations.foldl (fun byRoutingDid mediation =>
      (routingDidsOf ((granted.get? mediation.mediationId).getD [])).keys.foldl
        (fun byRoutingDid routingDid => byRoutingDid.set routingDid
          ((byRoutingDid.get? routingDid).getD [] ++ [mediation])) byRoutingDid) OMap.empty }

end Mediations

/-! ## Entities -/

structure KeyNames where
  authentication : KeyName
  keyAgreement : KeyName
deriving DecidableEq

/-- The document's methods for each use. -/
structure MethodIds where
  authentication : List DidUrl
  keyAgreement : List DidUrl
deriving DecidableEq

structure LocalDidEntity where
  didId : DidId
  created : Option DidCreated
  resolution : Option PeerResolution
  keyNames : KeyNames
  methodIds : MethodIds
  routeTarget : Option RouteTarget
  mediation : Option MediationId
  retired : Option JsString
  faults : List JsString
  conflict : Bool
  identity : Option KeyCheck
  live : Bool

/-- The first thing held against an entity. -/
def LocalDidEntity.fault (entity : LocalDidEntity) : JsString := entity.faults.headD []

section Documents

variable (O : Outside)

/-- The document a recorded entity encodes: the long form resolves, and `did` is its short
form. -/
def didDocumentOf (created : DidCreated) : Except JsString PeerResolution := do
  let resolution ← O.peerResolution created.longFormDid
  refuse (resolution.did ≠ created.did) (lit "DID entity " ++ created.didId ++ lit " records " ++
    created.did ++ lit ", not the short form of its long form")
  pure resolution

/-- Where the document's one service sends; a long form named there is validated on its
own. -/
def routeTargetOfService (uri : JsString) : Except JsString RouteTarget :=
  match O.serviceTargetOf uri with
  | none => .error (lit "the document sends to " ++ uri ++ lit ", neither a DID nor an HTTPS or WSS URL")
  | some (.direct endpoint) => .ok (.direct endpoint)
  | some (.mediated routingDid) =>
    match O.canonicalDidOf routingDid with
    | .ok _ => .ok (.mediated routingDid)
    | .error because => .error (lit "the document sends to " ++ uri ++
        lit ", a did:peer:4 long form that does not resolve: " ++ because)

/-- What reading an entity's document gives, up to where it fails. -/
structure DocumentReading where
  resolution : Option PeerResolution
  methodIds : MethodIds
  routeTarget : Option RouteTarget
  fault : Option JsString

/-- The document with the services it names and the methods it authorizes. -/
def documentParts (created : DidCreated) :
    Except JsString (PeerResolution × List JsString × MethodIds) := do
  let read ← didDocumentOf O created
  let uris ← O.didcommServiceUris read.document
  let authentication ← O.authorizedMethodIds read.document .authentication
  let keyAgreement ← O.authorizedMethodIds read.document .keyAgreement
  pure (read, uris, ⟨authentication, keyAgreement⟩)

def readDocument (created : DidCreated) : DocumentReading :=
  match documentParts O created with
  | .error because => ⟨none, ⟨[], []⟩, none, some because⟩
  | .ok (read, [uri], methodIds) =>
    match routeTargetOfService O uri with
    | .error because => ⟨some read, methodIds, none, some because⟩
    | .ok target => ⟨some read, methodIds, some target, none⟩
  | .ok (read, _, methodIds) =>
    ⟨some read, methodIds, none, some (lit "the document does not send to exactly one endpoint")⟩

end Documents

/-- The usable arrangement whose grant names the routing DID, and where none is, what each
that names it is instead. -/
def routedBy (mediations : MediationFold) (routingDid : Did) : Option MediationId × List JsString :=
  let through := mediations.through routingDid
  match through.find? fun mediation => mediation.status = .usable with
  | some usable => (some usable.mediationId, [])
  | none =>
    if through.isEmpty then (none, [lit "no mediation arrangement routes through " ++ routingDid])
    else (none, through.map fun mediation =>
      lit "mediation " ++ mediation.mediationId ++ lit " is " ++ mediation.status.text)

section Entities

variable (O : Outside) (set : VaultEventSet) (mediations : MediationFold)
  (keyChecks : Verdicts KeyCheck)

def didIds : List DidId :=
  sorted (OMap.once ((set.of didCreated).map (·.data.didId) ++
    (set.of didDisclosed).map (·.data.didId) ++ (set.of didRetired).map (·.data.didId)))

/-- The creations of an entity, in canonical order. -/
def creationsOf (didId : DidId) : List (VaultEvent DidCreated) :=
  ((OMap.groupBy (set.of didCreated) (·.data.didId)).get? didId).getD []

/-- The entities a creation of which spells a DID so. -/
def claimants (spelling : Did) : List DidId :=
  (didIds set).filter fun didId =>
    (creationsOf set didId).any fun event =>
      event.data.did == spelling || event.data.longFormDid == spelling

/-- The creation an entity's events agree on, and the conflict where they do not. -/
def creationOf (didId : DidId) : Except JsString (Option DidCreated) :=
  match creationsOf set didId with
  | [] => .ok none
  | first :: rest =>
    if rest.all fun event => event.data == first.data then .ok (some first.data)
    else .error (lit "creations disagree")

/-- A spelling of the entity's that another entity also claims. -/
def claimed (didId : DidId) (creation : DidCreated) : List JsString :=
  [creation.did, creation.longFormDid].flatMap fun spelling =>
    ((claimants set spelling).filter (· ≠ didId)).map fun other =>
      spelling ++ lit " is also entity " ++ other

/-- What makes an entity a conflict, given what its creations come to. -/
def entityConflicts (didId : DidId) (creation : Except JsString (Option DidCreated)) :
    List JsString :=
  (match creation with
    | .error because => [because]
    | .ok none => []
    | .ok (some creation) => claimed set didId creation ++ (readDocument O creation).fault.toList) ++
  (if keyChecks didId = some .mismatch then [lit "the seed does not derive the entity's keys"]
    else [])

/-- What an entity is still short of. -/
def entityFaults (didId : DidId) (creation : Except JsString (Option DidCreated))
    (reading : Option DocumentReading) : List JsString :=
  (match creation with
    | .ok none => [lit "no creation"]
    | _ => []) ++
  (match reading.bind DocumentReading.routeTarget with
    | some (.mediated routingDid) => (routedBy mediations routingDid).2
    | _ => []) ++
  (if keyChecks didId = none ∧ (reading.bind DocumentReading.resolution).isSome then
      [lit "the keys are not yet checked against the seed"]
    else [])

def entityOf (didId : DidId) : LocalDidEntity :=
  let creation := creationOf set didId
  let created := creation.toOption.join
  let reading := created.map (readDocument O)
  let conflicts := entityConflicts O set keyChecks didId creation
  let faults := entityFaults mediations keyChecks didId creation reading
  let routeTarget := reading.bind DocumentReading.routeTarget
  let retirement := ((OMap.groupBy (set.of didRetired) (·.data.didId)).get? didId).getD []
    |>.head?.map (·.data.because)
  { didId
    created
    resolution := reading.bind DocumentReading.resolution
    keyNames := ⟨didKeyName didId .authentication, didKeyName didId .keyAgreement⟩
    methodIds := (reading.map DocumentReading.methodIds).getD ⟨[], []⟩
    routeTarget
    mediation := match routeTarget with
      | some (.mediated routingDid) => (routedBy mediations routingDid).1
      | _ => none
    retired := retirement
    faults := conflicts ++ faults
    conflict := !conflicts.isEmpty
    identity := keyChecks didId
    live := conflicts.isEmpty && faults.isEmpty && retirement.isNone }

structure DidFold where
  entities : OMap DidId LocalDidEntity
  byKey : OMap KeyName DidId
  byDid : OMap Did DidId

namespace DidFold

/-- The entity a key name derives from, whatever its state. -/
def entityOfKey (fold : DidFold) (name : KeyName) : Option DidId := fold.byKey.get? name

/-- The entity a spelling belongs to; none for one no consistent entity records. -/
def entityOfDid (fold : DidFold) (did : Did) : Option DidId := fold.byDid.get? did

end DidFold

def foldDids : DidFold :=
  let dids := (didIds set).map (entityOf O set mediations keyChecks)
  { entities := OMap.index dids LocalDidEntity.didId id
    byKey := OMap.index (dids.flatMap fun did =>
      [(did.keyNames.authentication, did.didId), (did.keyNames.keyAgreement, did.didId)])
      Prod.fst Prod.snd
    byDid := OMap.index (dids.flatMap fun did =>
      if did.conflict then []
      else match did.created with
        | none => []
        | some created => [(created.did, did.didId), (created.longFormDid, did.didId)])
      Prod.fst Prod.snd }

end Entities

/-! ## What the fold finds -/

section Lookup

variable {O : Outside} {set : VaultEventSet} {mediations : MediationFold}
  {keyChecks : Verdicts KeyCheck} {didId : DidId}

@[simp] theorem mem_sorted {texts : List JsString} {text : JsString} :
    text ∈ sorted texts ↔ text ∈ texts := Cmp.mem_sortBy

theorem mem_didIds_of_created {event : VaultEvent DidCreated} (h : event ∈ set.of didCreated) :
    event.data.didId ∈ didIds set := by
  rw [didIds, mem_sorted, OMap.mem_once]
  exact List.mem_append_left _ (List.mem_append_left _ (List.mem_map_of_mem h))

/-- Every ID an event names has its entity, and no other ID has one. -/
theorem foldDids_get? : (foldDids O set mediations keyChecks).entities.get? didId =
    if didId ∈ didIds set then some (entityOf O set mediations keyChecks didId) else none := by
  split
  · rename_i h
    have hmem := List.mem_map_of_mem (f := entityOf O set mediations keyChecks) h
    refine OMap.get?_index hmem fun other hother hid => ?_
    obtain ⟨otherId, -, rfl⟩ := List.mem_map.mp hother
    exact congrArg (entityOf O set mediations keyChecks) hid
  · rename_i h
    refine OMap.get?_index_of_not fun other hother hid => h ?_
    obtain ⟨otherId, hmem, rfl⟩ := List.mem_map.mp hother
    exact hid ▸ hmem

/-- The names an entity's keys have. -/
theorem mem_keyed {entry : KeyName × DidId} :
    (entry ∈ ((didIds set).map (entityOf O set mediations keyChecks)).flatMap fun did =>
      [(did.keyNames.authentication, did.didId), (did.keyNames.keyAgreement, did.didId)]) ↔
    entry.2 ∈ didIds set ∧ ∃ role, entry.1 = didKeyName entry.2 role := by
  obtain ⟨name, owner⟩ := entry
  rw [List.mem_flatMap]
  constructor
  · intro ⟨did, hdid, h⟩
    obtain ⟨id, hid, rfl⟩ := List.mem_map.mp hdid
    obtain h | h := List.mem_cons.mp h
    · cases h
      exact ⟨hid, .authentication, rfl⟩
    · cases List.mem_singleton.mp h
      exact ⟨hid, .keyAgreement, rfl⟩
  · intro ⟨hid, role, hname⟩
    refine ⟨entityOf O set mediations keyChecks owner, List.mem_map_of_mem hid, ?_⟩
    dsimp only at hname
    subst hname
    cases role
    · exact List.mem_cons_self
    · exact List.mem_cons_of_mem _ List.mem_cons_self

/-- A key name finds the one entity it derives from. -/
theorem entityOfKey_eq_some {name : KeyName} :
    (foldDids O set mediations keyChecks).entityOfKey name = some didId ↔
      didId ∈ didIds set ∧ ∃ role, name = didKeyName didId role := by
  constructor
  · intro h
    obtain ⟨entry, hentry, hname, howner⟩ := OMap.get?_index_some h
    subst hname
    subst howner
    exact mem_keyed.mp hentry
  · intro h
    have hmem := (@mem_keyed O set mediations keyChecks (name, didId)).mpr h
    refine OMap.get?_index hmem fun other hother hname => ?_
    obtain ⟨-, role, hrole⟩ := mem_keyed.mp hother
    obtain ⟨-, role', hrole'⟩ := h
    exact (didKeyName_inj (hrole.symm.trans (hname.trans hrole'))).1

theorem creationsOf_eq (set : VaultEventSet) (didId : DidId) :
    creationsOf set didId = (set.of didCreated).filter (·.data.didId = didId) :=
  OMap.getD_groupBy _ _ _

/-- The creation of an entity is what all of its creations say. -/
theorem creationOf_some {created : DidCreated} (h : creationOf set didId = .ok (some created)) :
    creationsOf set didId ≠ [] ∧ ∀ event ∈ creationsOf set didId, event.data = created := by
  unfold creationOf at h
  split at h
  · cases h
  · rename_i first rest hevents
    split at h
    · rename_i hall
      cases h
      rw [hevents]
      refine ⟨List.cons_ne_nil _ _, List.forall_mem_cons.mpr ⟨rfl, fun event hevent => ?_⟩⟩
      exact eq_of_beq (List.all_eq_true.mp hall event hevent)
    · cases h

theorem entityOf_created {created : DidCreated}
    (h : (entityOf O set mediations keyChecks didId).created = some created) :
    creationOf set didId = .ok (some created) := by
  change (creationOf set didId).toOption.join = some created at h
  cases hcreation : creationOf set didId with
  | error because => rw [hcreation] at h; cases h
  | ok creation =>
    rw [hcreation] at h
    exact congrArg Except.ok h

/-- Creations that disagree are a conflict. -/
theorem creationOf_of_not_conflict
    (h : (entityOf O set mediations keyChecks didId).conflict = false) :
    ∃ creation, creationOf set didId = .ok creation := by
  cases hcreation : creationOf set didId with
  | ok creation => exact ⟨creation, rfl⟩
  | error because =>
    change (!(entityConflicts O set keyChecks didId (creationOf set didId)).isEmpty) = false at h
    rw [hcreation] at h
    cases h

end Lookup

end Estoc.Vault
