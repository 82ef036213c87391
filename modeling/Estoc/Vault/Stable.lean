import Estoc.Vault.Fold

/-!
# What more events leave as it was

A vault only gains events, and the verdicts beside it are only added to. Most of what a fold
says may change with that: an entity retires or falls into conflict, continuity is lost to a
conflict, a pair is denied. Two things rest on nothing that may be withdrawn, once the entity
they are at stays out of conflict: that an observation is authenticated and its proof bound,
and that a preparation is valid. The walk is from the entity up. An entity not in conflict has
the creation it had, so its document, so its keys; a source complete under it is complete; and
so is what rests on the source.
-/

set_option linter.unusedSectionVars false

namespace Estoc.Vault

open Json (lit)
open Utf16 (JsString)
open Checked (refuse)

/-- Verdicts added to, none of them changed. -/
def Verdicts.Le {ν : Type} (verdicts more : Verdicts ν) : Prop :=
  ∀ key verdict, verdicts key = some verdict → more key = some verdict

structure VaultChecks.Le (checks more : VaultChecks) : Prop where
  mediationKeys : Verdicts.Le checks.mediationKeys more.mediationKeys
  didKeys : Verdicts.Le checks.didKeys more.didKeys
  resolutionChecks : Verdicts.Le checks.resolutionChecks more.resolutionChecks
  proofChecks : Verdicts.Le checks.proofChecks more.proofChecks

section Entities

variable {O : Outside} {set more : VaultEventSet} {mediations mediations' : MediationFold}
  {keyChecks keyChecks' : Verdicts KeyCheck} {didId : DidId}

theorem creationsOf_le (hset : set.Le more) {event : VaultEvent DidCreated}
    (h : event ∈ creationsOf set didId) : event ∈ creationsOf more didId := by
  rw [creationsOf_eq] at h ⊢
  obtain ⟨hmem, hid⟩ := List.mem_filter.mp h
  exact List.mem_filter.mpr ⟨hset.of_mem hmem, hid⟩

theorem mem_didIds_le (hset : set.Le more) (h : didId ∈ didIds set) : didId ∈ didIds more := by
  rw [didIds, mem_sorted, OMap.mem_once] at h ⊢
  simp only [List.mem_append, List.mem_map] at h ⊢
  obtain (⟨event, hmem, hid⟩ | ⟨event, hmem, hid⟩) | ⟨event, hmem, hid⟩ := h
  · exact Or.inl (Or.inl ⟨event, hset.of_mem hmem, hid⟩)
  · exact Or.inl (Or.inr ⟨event, hset.of_mem hmem, hid⟩)
  · exact Or.inr ⟨event, hset.of_mem hmem, hid⟩

/-- What is known of an entity not in conflict by its creation alone. -/
structure SameEntity (entity entity' : LocalDidEntity) : Prop where
  created : entity'.created = entity.created
  resolution : entity'.resolution = entity.resolution
  keyNames : entity'.keyNames = entity.keyNames
  methodIds : entity'.methodIds = entity.methodIds

/-- An entity that stays out of conflict is what its creation made it. -/
theorem entityOf_stable (hset : set.Le more)
    (hcreated : (entityOf O set mediations keyChecks didId).created.isSome = true)
    (hconflict : (entityOf O more mediations' keyChecks' didId).conflict = false) :
    SameEntity (entityOf O set mediations keyChecks didId)
      (entityOf O more mediations' keyChecks' didId) := by
  obtain ⟨created, hcreated⟩ := Option.isSome_iff_exists.mp hcreated
  have hbefore := entityOf_created hcreated
  obtain ⟨hsome, hall⟩ := creationOf_some hbefore
  obtain ⟨creation, hafter⟩ := creationOf_of_not_conflict hconflict
  obtain ⟨event, hevent⟩ := List.exists_mem_of_ne_nil _ hsome
  have hevent' := creationsOf_le hset hevent
  -- both agree with a creation that was already there
  have hcreation : creation = some created := by
    cases creation with
    | none =>
      unfold creationOf at hafter
      split at hafter
      · rename_i hnil
        rw [hnil] at hevent'
        cases hevent'
      · split at hafter <;> cases hafter
    | some other =>
      rw [← (creationOf_some hafter).2 event hevent', hall event hevent]
  rw [hcreation] at hafter
  have hsame : creationOf more didId = creationOf set didId := hafter.trans hbefore.symm
  constructor
  · change (creationOf more didId).toOption.join = (creationOf set didId).toOption.join
    rw [hsame]
  · change (((creationOf more didId).toOption.join).map (readDocument O)).bind _ =
      (((creationOf set didId).toOption.join).map (readDocument O)).bind _
    rw [hsame]
  · rfl
  · change ((((creationOf more didId).toOption.join).map (readDocument O)).map _).getD _ =
      ((((creationOf set didId).toOption.join).map (readDocument O)).map _).getD _
    rw [hsame]

theorem SameEntity.keyAgreementTypeOf {entity entity' : LocalDidEntity}
    (h : SameEntity entity entity') :
    keyAgreementTypeOf O entity' = keyAgreementTypeOf O entity := by
  unfold Vault.keyAgreementTypeOf
  rw [h.resolution, h.methodIds]

end Entities

/-! ## Sources -/

section Sources

variable {O : Outside} {data : MessageIn} {peer : ResolvedPeer} {entity entity' : LocalDidEntity}

/-- What the local entity says, once nothing is missing of it. -/
theorem readLocal_placed {found : Option LocalDidEntity} {here : LocalReading}
    (h : readLocal O data peer found = .ok here) (hmissing : here.missing = [])
    (hchannel : here.channel.isSome = true) :
    ∃ entity created, found = some entity ∧ entity.conflict = false ∧
      entity.created = some created ∧ entity.keyNames.keyAgreement = data.localKeyName ∧
      entity.identity.isSome = true ∧ created.did ≠ peer.did ∧
      data.messageId = inboundMessageId O.derive peer.did created.did data.wireMessageId ∧
      here = ⟨some (channelOf created.did peer.did), keyAgreementTypeOf O entity, []⟩ := by
  unfold readLocal at h
  split at h
  · cases h
    cases hmissing
  · rename_i entity
    split at h
    · cases h
    · rename_i hconflict
      split at h
      · cases h
      · rename_i hkey
        split at h
        · cases h
          cases hmissing
        · rename_i created hcreated
          dsimp only at h
          split at h
          · cases h
          · rename_i hpeer
            split at h
            · cases h
            · rename_i hid
              cases h
              have hidentity : entity.identity ≠ none := by
                intro hnone
                rw [if_pos hnone] at hmissing
                cases hmissing
              refine ⟨entity, created, rfl, by simpa using hconflict, hcreated, not_not.mp hkey,
                Option.isSome_iff_ne_none.mpr hidentity, hpeer, not_not.mp hid, ?_⟩
              rw [if_neg hidentity]

/-- The entity that stays out of conflict says the same. -/
theorem readLocal_stable {here : LocalReading} (h : readLocal O data peer (some entity) = .ok here)
    (hmissing : here.missing = []) (hchannel : here.channel.isSome = true)
    (hsame : SameEntity entity entity') (hconflict : entity'.conflict = false)
    (hidentity : entity.identity.isSome = true → entity'.identity.isSome = true) :
    readLocal O data peer (some entity') = .ok here := by
  obtain ⟨found, created, hfound, -, hcreated, hkey, hchecked, hpeer, hid, hhere⟩ :=
    readLocal_placed h hmissing hchannel
  cases hfound
  have hchecked' := Option.isSome_iff_ne_none.mp (hidentity hchecked)
  have hcreated' := hsame.created.trans hcreated
  unfold readLocal
  simp only [hconflict, Bool.false_eq_true, if_false, hsame.keyNames, hkey, ne_eq, not_true_eq_false,
    hcreated', hpeer, ← hid, hchecked', hsame.keyAgreementTypeOf, hhere]

section Resolutions

variable {set more : VaultEventSet} {checks checks' : Verdicts EvidenceCheck}
  {localKeyType : Option KeyType} {resolution : VaultEvent PeerResolved}

/-- A resolution nothing is missing of is still one nothing is missing of. -/
theorem checkResolution_stable (hchecks : checks.Le checks')
    (h : checkResolution O checks data peer localKeyType resolution = .ok []) :
    checkResolution O checks' data peer localKeyType resolution = .ok [] := by
  unfold checkResolution at h ⊢
  obtain ⟨hnamed, h⟩ := Checked.refuse_bind_eq_ok.mp h
  obtain ⟨peerKey, hpeerKey, h⟩ := Checked.bind_eq_ok.mp h
  obtain ⟨hvalid, h⟩ := Checked.refuse_bind_eq_ok.mp h
  obtain ⟨hcurve, h⟩ := Checked.refuse_bind_eq_ok.mp h
  have hcheck : checks resolution.cid = some .verified := by
    cases hc : checks resolution.cid with
    | none => rw [if_pos hc] at h; cases h
    | some check =>
      cases check with
      | verified => rfl
      | invalid => exact absurd hc hvalid
  have hcheck' := hchecks _ _ hcheck
  refine Checked.refuse_bind_eq_ok.mpr ⟨hnamed, ?_⟩
  refine Checked.bind_eq_ok.mpr ⟨peerKey, hpeerKey, ?_⟩
  refine Checked.refuse_bind_eq_ok.mpr ⟨by rw [hcheck']; decide, ?_⟩
  refine Checked.refuse_bind_eq_ok.mpr ⟨hcurve, ?_⟩
  rw [hcheck']
  rfl

theorem readResolution_stable (hset : set.Le more) (hchecks : checks.Le checks')
    (h : readResolution O set checks data peer localKeyType = (some resolution, .ok [])) :
    readResolution O more checks' data peer localKeyType = (some resolution, .ok []) := by
  unfold readResolution at h ⊢
  split at h
  · cases h
  · cases h
  · rename_i found hfound
    obtain ⟨hsame, hchecked⟩ := Prod.mk.inj h
    cases hsame
    rw [hset.resolve hfound]
    exact congrArg (Prod.mk _) (checkResolution_stable hchecks hchecked)

end Resolutions

/-- What a complete source rests on. -/
theorem placed_complete {localDidId : Option DidId} {here : LocalReading} {missing : List JsString}
    {found : Option (VaultEvent PeerResolved)} {didId : DidId} {resolution : VaultEvent PeerResolved}
    {channel : Channel} (h : placed localDidId here found missing = .complete didId resolution channel) :
    here.missing = [] ∧ missing = [] ∧ localDidId = some didId ∧ found = some resolution ∧
      here.channel = some channel := by
  unfold placed at h
  split at h
  · rename_i d r c hmissing hchannel
    cases h
    obtain ⟨hhere, hmissing⟩ := List.append_eq_nil_iff.mp hmissing
    exact ⟨hhere, hmissing, rfl, rfl, hchannel⟩
  · cases h

/-- What a complete observation was read from. -/
def Authenticated (O : Outside) (set : VaultEventSet) (checks : Verdicts EvidenceCheck)
    (data : MessageIn) (found : Option LocalDidEntity) (resolution : VaultEvent PeerResolved)
    (channel : Channel) : Prop :=
  ∃ peer here, data.peer = some peer ∧ readLocal O data peer found = .ok here ∧
    here.missing = [] ∧ here.channel = some channel ∧
    readResolution O set checks data peer here.keyType = (some resolution, .ok [])

theorem sourceStatus_complete {set : VaultEventSet} {checks : Verdicts EvidenceCheck}
    {localDidId : Option DidId} {found : Option LocalDidEntity} {didId : DidId}
    {resolution : VaultEvent PeerResolved} {channel : Channel} :
    sourceStatus O set checks data localDidId found = .complete didId resolution channel ↔
      localDidId = some didId ∧ Authenticated O set checks data found resolution channel := by
  constructor
  · intro h
    unfold sourceStatus at h
    split at h
    · cases h
    · rename_i peer hpeer
      split at h
      · cases h
      · rename_i here hhere
        split at h
        · cases h
        · rename_i res missing hres
          obtain ⟨hnone, hmissing, hlocal, hfound, hchannel⟩ := placed_complete h
          subst hmissing
          subst hfound
          exact ⟨hlocal, ⟨peer, here, hpeer, hhere, hnone, hchannel, hres⟩⟩
  · intro ⟨hlocal, ⟨peer, here, hpeer, hhere, hnone, hchannel, hres⟩⟩
    unfold sourceStatus
    rw [hpeer]
    simp only [hhere, hres]
    unfold placed
    rw [hnone, hlocal, hchannel]
    rfl

end Sources

section Vaults

variable {O : Outside} {set more : VaultEventSet} {checks checks' : VaultChecks}
  {effectTypes : List JsString} {cid : EventCid}

/-- The entity an observation is at, as a fold has it. -/
def VaultFold.localEntity (fold : VaultFold) (cid : EventCid) : Option LocalDidEntity :=
  ((fold.channels.sources.get? cid).bind (·.localDidId)).bind fold.dids.entities.get?

theorem foldVault_source {source : Source} :
    (foldVault O set checks effectTypes).channels.sources.get? cid = some source ↔
    ∃ event ∈ set.of messageIn, event.cid = cid ∧
      source = sourceOf O set checks.resolutionChecks
        (foldVault O set checks effectTypes).dids event := foldSources_get?

theorem foldVault_carrier {source : Source}
    (h : (foldVault O set checks effectTypes).channels.sources.get? cid = some source) :
    (foldVault O set checks effectTypes).channels.carriers.get? cid =
      carried O checks.proofChecks source := foldCarriers_get? h

theorem foldVault_entity {didId : DidId} :
    (foldVault O set checks effectTypes).dids.entities.get? didId =
      if didId ∈ didIds set then
        some (entityOf O set (foldMediations set checks.mediationKeys) checks.didKeys didId)
      else none := foldDids_get?

/-- An observation authenticated is authenticated with more events, at the pair it was, while
the entity it is at stays out of conflict. -/
theorem source_stable (hset : set.Le more) (hchecks : checks.Le checks') {source : Source}
    {didId : DidId} {resolution : VaultEvent PeerResolved} {channel : Channel}
    (hsource : (foldVault O set checks effectTypes).channels.sources.get? cid = some source)
    (hcomplete : source.status = .complete didId resolution channel)
    (hlocal : ∀ entity, (foldVault O more checks' effectTypes).localEntity cid = some entity →
      entity.conflict = false) :
    ∃ source', (foldVault O more checks' effectTypes).channels.sources.get? cid = some source' ∧
      source'.event = source.event ∧ source'.status = .complete didId resolution channel := by
  obtain ⟨event, hevent, hcid, rfl⟩ := foldVault_source.mp hsource
  obtain ⟨hdidId, ⟨peer, here, hpeer, hhere, hnone, hchannel, hres⟩⟩ :=
    sourceStatus_complete.mp hcomplete
  obtain ⟨entity, created, hfound, -, hcreated, -, -, -, -, -⟩ :=
    readLocal_placed hhere hnone (by rw [hchannel]; rfl)
  -- the key name still finds the entity
  have hkey := entityOfKey_eq_some.mp hdidId
  have hkey' : (foldVault O more checks' effectTypes).dids.entityOfKey event.data.localKeyName =
      some didId := entityOfKey_eq_some.mpr ⟨mem_didIds_le hset hkey.1, hkey.2⟩
  have hentity : entityOf O set (foldMediations set checks.mediationKeys) checks.didKeys didId =
      entity := by
    rw [hdidId, Option.bind_some, foldVault_entity, if_pos hkey.1] at hfound
    exact Option.some.inj hfound
  have hfound' : (foldVault O more checks' effectTypes).dids.entities.get? didId =
      some (entityOf O more (foldMediations more checks'.mediationKeys) checks'.didKeys didId) := by
    rw [foldVault_entity, if_pos (mem_didIds_le hset hkey.1)]
  have hsource' := (@foldVault_source O more checks' effectTypes cid _).mpr
    ⟨event, hset.of_mem hevent, hcid, rfl⟩
  refine ⟨_, hsource', rfl, ?_⟩
  have hconflict := hlocal _ (by
    rw [VaultFold.localEntity, hsource', Option.bind_some]
    change Option.bind ((foldVault O more checks' effectTypes).dids.entityOfKey _) _ = _
    rw [hkey', Option.bind_some, hfound'])
  refine sourceStatus_complete.mpr ⟨hkey', ⟨peer, here, hpeer, ?_, hnone, hchannel,
    readResolution_stable hset hchecks.resolutionChecks hres⟩⟩
  rw [hkey', Option.bind_some, hfound']
  rw [hfound] at hhere
  subst hentity
  refine readLocal_stable hhere hnone (by rw [hchannel]; rfl)
    (entityOf_stable hset (by rw [hcreated]; rfl) hconflict) hconflict fun hidentity => ?_
  obtain ⟨check, hcheck⟩ := Option.isSome_iff_exists.mp hidentity
  exact Option.isSome_iff_exists.mpr ⟨check, hchecks.didKeys _ _ hcheck⟩

/-! ## Proofs and admissions -/

/-- A proof that is verified, or none. -/
def Positive (carrier : Option Carrier) : Prop :=
  ∀ found, carrier = some found → ∃ proof, found.proof = .verified proof

/-- A verified proof is read the same with more verdicts. -/
theorem carrierOf_stable {source source' : Source} {jwt : JsString} {sender : Did}
    {check check' : Option ProofCheck} (hstatus : source'.status = source.status)
    (hcheck : ∀ verdict, check = some verdict → check' = some verdict)
    (hverified : ∃ proof, (carrierOf O source jwt sender check).1 = .verified proof) :
    carrierOf O source' jwt sender check' = carrierOf O source jwt sender check := by
  have hchannel : source'.channel = source.channel := by
    unfold Source.channel
    rw [hstatus]
  cases check with
  | some verdict =>
    rw [hcheck verdict rfl]
    unfold carrierOf
    rw [hchannel, hstatus]
  | none =>
    obtain ⟨proof, hproof⟩ := hverified
    unfold carrierOf at hproof
    repeat' split at hproof
    all_goals contradiction

theorem carried_stable {source source' : Source} {proofChecks proofChecks' : Verdicts ProofCheck}
    (hevent : source'.event = source.event) (hstatus : source'.status = source.status)
    (hchecks : proofChecks.Le proofChecks') (h : Positive (carried O proofChecks source)) :
    Positive (carried O proofChecks' source') := by
  intro found hfound
  unfold carried at hfound h
  rw [hevent] at hfound
  split at hfound
  · rename_i jwt peer hjwt hpeer
    rw [hjwt, hpeer] at h
    obtain ⟨proof, hproof⟩ := h _ rfl
    cases hfound
    refine ⟨proof, ?_⟩
    dsimp only at hproof ⊢
    rw [carrierOf_stable hstatus (fun verdict => hchecks _ verdict) ⟨proof, hproof⟩]
    exact hproof
  · cases hfound

theorem readSource_positive {source : Source} {evidence : ChannelEvidence} :
    readSource source evidence = .positive ↔
      (∃ didId resolution channel, source.status = .complete didId resolution channel) ∧
        Positive (evidence.carriers.get? source.event.cid) := by
  unfold readSource Positive
  cases hstatus : source.status <;> cases hcarrier : evidence.carriers.get? source.event.cid with
  | none => simp
  | some carrier => cases hproof : carrier.proof <;> simp [hproof]

theorem admissionStatus_effective {evidence : ChannelEvidence} {event : VaultEvent MessageAdmitted} :
    admissionStatus set evidence event = .effective ↔
      (∃ observed, set.resolve event.data.sourceEventCid messageIn = .present observed) ∧
      ∃ source, evidence.sources.get? event.data.sourceEventCid = some source ∧
        readSource source evidence = .positive := by
  unfold admissionStatus
  constructor
  · intro h
    split at h
    · cases h
    · rename_i observed source hresolve hsource
      refine ⟨⟨observed, hresolve⟩, source, hsource, ?_⟩
      split at h
      · cases h
      · cases h
      · assumption
    · cases h
  · rintro ⟨⟨observed, hresolve⟩, source, hsource, hpositive⟩
    rw [hresolve, hsource]
    dsimp only
    rw [hpositive]

/-- An observation an effective admission names. -/
theorem admitted_iff : AdmissionFold.admitted (foldVault O set checks effectTypes).admissions cid = true ↔
    (∃ admission ∈ set.of messageAdmitted, admission.data.sourceEventCid = cid) ∧
    ∃ source, (foldVault O set checks effectTypes).channels.sources.get? cid = some source ∧
      readSource source (foldVault O set checks effectTypes).channels = .positive := by
  rw [AdmissionFold.admitted, List.any_eq_true]
  constructor
  · intro ⟨admission, hadmission, heffective⟩
    obtain ⟨hmem, hcid⟩ := List.mem_filter.mp hadmission
    obtain ⟨event, hevent, rfl⟩ := List.mem_map.mp hmem
    obtain ⟨-, hsource⟩ := admissionStatus_effective.mp (of_decide_eq_true heffective)
    have hcid : event.data.sourceEventCid = cid := of_decide_eq_true hcid
    exact ⟨⟨event, hevent, hcid⟩, hcid ▸ hsource⟩
  · intro ⟨⟨event, hevent, hcid⟩, source, hsource, hpositive⟩
    obtain ⟨observed, hobserved, hobservedcid, -⟩ := foldVault_source.mp hsource
    subst hcid
    refine ⟨_, List.mem_filter.mpr ⟨List.mem_map_of_mem hevent, decide_eq_true rfl⟩,
      decide_eq_true (admissionStatus_effective.mpr ⟨⟨observed, ?_⟩, source, hsource, hpositive⟩)⟩
    exact VaultEventSet.resolve_eq_present.mpr ⟨hobserved, hobservedcid⟩

/-- An admission that was effective stays effective, while the entity its observation is at
stays out of conflict. -/
theorem admitted_stable (hset : set.Le more) (hchecks : checks.Le checks')
    (h : AdmissionFold.admitted (foldVault O set checks effectTypes).admissions cid = true)
    (hlocal : ∀ entity, (foldVault O more checks' effectTypes).localEntity cid = some entity →
      entity.conflict = false) :
    AdmissionFold.admitted (foldVault O more checks' effectTypes).admissions cid = true := by
  obtain ⟨⟨admission, hadmission, hcid⟩, source, hsource, hpositive⟩ := admitted_iff.mp h
  obtain ⟨⟨didId, resolution, channel, hcomplete⟩, hproof⟩ := readSource_positive.mp hpositive
  obtain ⟨source', hsource', hevent, hcomplete'⟩ :=
    source_stable hset hchecks hsource hcomplete hlocal
  refine admitted_iff.mpr ⟨⟨admission, hset.of_mem hadmission, hcid⟩, source', hsource', ?_⟩
  refine readSource_positive.mpr ⟨⟨didId, resolution, channel, hcomplete'⟩, ?_⟩
  rw [foldSources_cid hsource, foldVault_carrier hsource] at hproof
  rw [foldSources_cid hsource', foldVault_carrier hsource']
  exact carried_stable hevent (hcomplete'.trans hcomplete.symm) hchecks.proofChecks hproof

end Vaults

end Estoc.Vault
