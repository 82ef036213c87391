import Estoc.Mediator.Steps

/-!
# Deliveries are conserved

Packages and deliveries are two tables that six operations keep in step. What they keep
is that a delivery is to a replica of the account that its package is of, and that a
package which once had a delivery is there as long as one is left. Both rest on names
that tell rows apart: no two packages are given one id, and no DID is a replica's and a
shared recipient's at once.
-/

set_option linter.unusedSectionVars false

namespace Estoc.Mediator

open Utf16 (JsString)
open Json (lit)
open Sql (mem_insertOrIgnore mem_delete insertOrIgnore delete update Tx)

/-- The id a call would give a package. -/
def Call.packageId : Call → Option JsString
  | .fanOut id _ _ _ _ _ => some id
  | _ => none

/-- What holds of the mail in every state: `used` are the ids that packages were given,
`waiting` are of packages that were stored with a delivery. -/
structure Conserved (used waiting : List JsString) (db : Db) : Prop where
  keys : foreignKeys db = true
  given : ∀ p ∈ db.packages, p.id ∈ used
  known : ∀ id ∈ waiting, id ∈ used
  packageOnce : (db.packages.map Package.id).Nodup
  deliveryOnce : (db.deliveries.map Delivery.id).Nodup
  replicaOnce : (db.replicas.map Replica.replicaDid).Nodup
  recipientOnce : (db.recipients.map Recipient.recipientDid).Nodup
  apart : ∀ r ∈ db.replicas, ∀ s ∈ db.recipients, r.replicaDid ≠ s.recipientDid
  within : ∀ d ∈ db.deliveries, ∀ p ∈ db.packages, ∀ r ∈ db.replicas,
    p.id = d.packageId → r.replicaDid = d.replicaDid → r.accountDid = p.accountDid
  queued : ∀ id ∈ waiting, ((∃ p ∈ db.packages, p.id = id) ↔ ∃ d ∈ db.deliveries, d.packageId = id)

variable {used waiting : List JsString} {db db' : Db}

/-- A delivery's package and replica are there. -/
theorem keys_delivery (h : foreignKeys db = true) {d : Delivery} (hd : d ∈ db.deliveries) :
    (∃ p ∈ db.packages, p.id = d.packageId) ∧ ∃ r ∈ db.replicas, r.replicaDid = d.replicaDid := by
  simp only [foreignKeys, Bool.and_eq_true, List.all_eq_true] at h
  obtain ⟨hp, hr⟩ := h.1.1.2 d hd
  simp only [hasPackage, hasReplica, List.any_eq_true, beq_iff_eq] at hp hr
  exact ⟨hp, hr⟩

/-! ## Rows go -/

/-- No table of the mail holds anything new. -/
structure Fewer (db db' : Db) : Prop where
  replicas : (db'.replicas.map fun r => (r.replicaDid, r.accountDid)).Sublist
    (db.replicas.map fun r => (r.replicaDid, r.accountDid))
  recipients : db'.recipients.Sublist db.recipients
  packages : db'.packages.Sublist db.packages
  deliveries : db'.deliveries.Sublist db.deliveries

theorem Fewer.replica (hf : Fewer db db') {r : Replica} (hr : r ∈ db'.replicas) :
    ∃ s ∈ db.replicas, s.replicaDid = r.replicaDid ∧ s.accountDid = r.accountDid := by
  obtain ⟨s, hs, heq⟩ := List.mem_map.mp (hf.replicas.subset (List.mem_map.mpr ⟨r, hr, rfl⟩))
  exact ⟨s, hs, congrArg Prod.fst heq, congrArg Prod.snd heq⟩

theorem Conserved.fewer (h : Conserved used waiting db) (hf : Fewer db db')
    (hkeys : foreignKeys db' = true)
    (hqueued : ∀ id ∈ waiting,
      ((∃ p ∈ db'.packages, p.id = id) ↔ ∃ d ∈ db'.deliveries, d.packageId = id)) :
    Conserved used waiting db' where
  keys := hkeys
  given p hp := h.given p (hf.packages.subset hp)
  known := h.known
  packageOnce := (hf.packages.map _).nodup h.packageOnce
  deliveryOnce := (hf.deliveries.map _).nodup h.deliveryOnce
  replicaOnce := by
    have hsub := hf.replicas.map Prod.fst
    simp only [List.map_map, Function.comp_def] at hsub
    exact hsub.nodup h.replicaOnce
  recipientOnce := (hf.recipients.map _).nodup h.recipientOnce
  apart r hr s hs := by
    obtain ⟨r', hr', hdid, _⟩ := hf.replica hr
    exact hdid ▸ h.apart r' hr' s (hf.recipients.subset hs)
  within d hd p hp r hr hid hdid := by
    obtain ⟨r', hr', hdid', haccount⟩ := hf.replica hr
    rw [← haccount]
    exact h.within d (hf.deliveries.subset hd) p (hf.packages.subset hp) r' hr' hid
      (hdid'.trans hdid)
  queued := hqueued

/-- More ids may have been given. -/
theorem Conserved.grow (h : Conserved used waiting db) {used' : List JsString}
    (hsub : used ⊆ used') : Conserved used' waiting db :=
  { h with
    given := fun p hp => hsub (h.given p hp)
    known := fun id hid => hsub (h.known id hid) }

/-- The mail is left alone. -/
theorem Conserved.same (h : Conserved used waiting db) (hkeys : foreignKeys db' = true)
    (hreplicas : db'.replicas = db.replicas) (hrecipients : db'.recipients = db.recipients)
    (hpackages : db'.packages = db.packages) (hdeliveries : db'.deliveries = db.deliveries) :
    Conserved used waiting db' := by
  refine h.fewer ⟨?_, ?_, ?_, ?_⟩ hkeys ?_
  · rw [hreplicas]
  · rw [hrecipients]
  · rw [hpackages]
  · rw [hdeliveries]
  · rw [hpackages, hdeliveries]
    exact h.queued

/-- Deliveries end, and the packages left with none. -/
theorem queued_ended (h : Conserved used waiting db) (which : Delivery → Bool) {id : JsString}
    (hid : id ∈ waiting) :
    (∃ p ∈ (ended which db).packages, p.id = id) ↔
      ∃ d ∈ (ended which db).deliveries, d.packageId = id := by
  -- ids tell deliveries apart, so an ending id is of a delivery that ends
  have hending : ∀ d ∈ db.deliveries,
      ((db.deliveries.filter which).map Delivery.id).contains d.id = which d := by
    intro d hd
    rw [Bool.eq_iff_iff, List.contains_iff_mem, List.mem_map]
    refine ⟨fun ⟨e, he, heq⟩ => ?_, fun hw => ⟨d, List.mem_filter.mpr ⟨hd, hw⟩, rfl⟩⟩
    obtain ⟨he, hw⟩ := List.mem_filter.mp he
    rw [← List.inj_on_of_nodup_map h.deliveryOnce he hd heq]
    exact hw
  simp only [ended, mem_delete]
  constructor
  · intro ⟨p, ⟨hp, hleft⟩, hpid⟩
    obtain ⟨d, hd, hdid⟩ := (h.queued id hid).mp ⟨p, hp, hpid⟩
    by_cases hw : which d = true
    · simp only [Bool.and_eq_false_iff, List.any_eq_false, Bool.and_eq_true, beq_iff_eq,
        Bool.not_eq_false', List.any_eq_true, not_and, Bool.not_eq_true'] at hleft
      rcases hleft with hnone | ⟨e, he, heid, hends⟩
      · exact absurd (hdid.trans hpid.symm) (hnone d hd hw)
      · rw [hending e he] at hends
        exact ⟨e, ⟨he, hends⟩, heid.trans hpid⟩
    · exact ⟨d, ⟨hd, by simpa using hw⟩, hdid⟩
  · intro ⟨d, ⟨hd, hw⟩, hdid⟩
    obtain ⟨p, hp, hpid⟩ := (keys_delivery h.keys hd).1
    refine ⟨p, ⟨hp, ?_⟩, hpid.trans hdid⟩
    simp only [Bool.and_eq_false_iff, Bool.not_eq_false', List.any_eq_true, Bool.and_eq_true,
      beq_iff_eq, Bool.not_eq_true']
    exact .inr ⟨d, hd, hpid.symm, (hending d hd).trans hw⟩

theorem fewer_ended (which : Delivery → Bool) : Fewer db (ended which db) :=
  ⟨List.Sublist.refl _, List.Sublist.refl _, List.filter_sublist, List.filter_sublist⟩

theorem conserved_ended (h : Conserved used waiting db) (which : Delivery → Bool)
    (hkeys : foreignKeys (ended which db) = true) : Conserved used waiting (ended which db) :=
  h.fewer (fewer_ended which) hkeys fun _ hid => queued_ended h which hid

/-- A package and its deliveries go together. -/
theorem queued_gone (h : Conserved used waiting db) {going : Package → Bool}
    {ending : Delivery → Bool} (hending : ∀ d ∈ db.deliveries, ∀ p ∈ db.packages,
      p.id = d.packageId → ending d = going p) {id : JsString} (hid : id ∈ waiting) :
    (∃ p ∈ delete going db.packages, p.id = id) ↔
      ∃ d ∈ delete ending db.deliveries, d.packageId = id := by
  simp only [mem_delete]
  constructor
  · intro hpackage
    obtain ⟨p, ⟨hp, hgoing⟩, hpid⟩ := hpackage
    obtain ⟨d, hd, hdid⟩ := (h.queued id hid).mp ⟨p, hp, hpid⟩
    exact ⟨d, ⟨hd, (hending d hd p hp (hpid.trans hdid.symm)).trans hgoing⟩, hdid⟩
  · intro hdelivery
    obtain ⟨d, ⟨hd, hends⟩, hdid⟩ := hdelivery
    obtain ⟨p, hp, hpid⟩ := (keys_delivery h.keys hd).1
    exact ⟨p, ⟨hp, (hending d hd p hp hpid).symm.trans hends⟩, hpid.trans hdid⟩

theorem conserved_purgeExpired (h : Conserved used waiting db) (now : Millis) :
    Conserved used waiting (landed (purgeExpired now) db) := by
  refine landed_keeps h fun n t ht hkeys => ?_
  have hafter := purgeExpired_ok ht
  refine h.fewer ⟨?_, ?_, ?_, ?_⟩ hkeys fun id hid => ?_
  · rw [hafter]
  · rw [hafter]
  · rw [hafter]
    exact List.filter_sublist
  · rw [hafter]
    exact List.filter_sublist
  · rw [hafter]
    refine queued_gone h (fun d _ p hp hpid => ?_) hid
    -- the package that lapses is the delivery's own
    rw [Bool.eq_iff_iff, List.any_eq_true, decide_eq_true_iff]
    refine ⟨fun ⟨q, hq, hboth⟩ => ?_, fun hlapses => ⟨p, hp, by simp [hlapses, hpid]⟩⟩
    simp only [Bool.and_eq_true, decide_eq_true_eq, beq_iff_eq] at hboth
    rw [← List.inj_on_of_nodup_map h.packageOnce hq hp (hboth.2.trans hpid.symm)]
    exact hboth.1

theorem conserved_deleteReplicaAccount (h : Conserved used waiting db) (account mediator : Did) :
    Conserved used waiting (landed (deleteReplicaAccount account mediator) db) := by
  refine landed_keeps h fun bound t ht hkeys => ?_
  have hafter := deleteReplicaAccount_ok ht
  refine h.fewer ⟨?_, ?_, ?_, ?_⟩ hkeys fun id hid => ?_
  · rw [hafter.replicas]
    exact List.filter_sublist.map _
  · rw [hafter.recipients]
    exact List.filter_sublist
  · rw [hafter.packages]
    exact List.filter_sublist
  · rw [hafter.deliveries]
    exact List.filter_sublist
  · rw [hafter.packages, hafter.deliveries]
    refine queued_gone h (fun d hd p hp hpid => ?_) hid
    -- a replica of the account is sent packages of the account alone
    rw [Bool.eq_iff_iff, Bool.or_eq_true, List.any_eq_true, List.any_eq_true]
    simp only [Bool.and_eq_true, beq_iff_eq]
    constructor
    · rintro (⟨q, hq, hof, hqid⟩ | ⟨r, hr, hof, hdid⟩)
      · rw [← List.inj_on_of_nodup_map h.packageOnce hq hp (hqid.trans hpid.symm)]
        exact hof
      · rw [← h.within d hd p hp r hr hpid hdid]
        exact hof
    · intro hof
      exact .inl ⟨p, hp, hof, hpid⟩

theorem conserved_removeReplica (h : Conserved used waiting db) (account mediator replica : Did)
    (now : Millis) :
    Conserved used waiting (landed (removeReplica account mediator replica now) db) := by
  refine landed_keeps h fun outcome t ht hkeys => ?_
  have hafter := removeReplica_ok ht
  refine h.fewer ⟨?_, ?_, ?_, ?_⟩ hkeys fun id hid => ?_
  · -- a removed replica keeps its row
    have hsame : t.db.replicas.map (fun r => (r.replicaDid, r.accountDid)) =
        db.replicas.map fun r => (r.replicaDid, r.accountDid) := by
      rw [hafter.replicas, update, List.map_map]
      refine List.map_congr_left fun r _ => ?_
      simp only [Function.comp_apply]
      split <;> rfl
    rw [hsame]
  · rw [hafter.recipients]
  · rw [hafter.packages]
    exact (fewer_ended _).packages
  · rw [hafter.deliveries]
    exact (fewer_ended (removing db account mediator replica)).deliveries
  · rw [hafter.packages, hafter.deliveries]
    exact queued_ended h (removing db account mediator replica) hid

/-! ## Rows come -/

theorem conserved_addReplica (h : Conserved used waiting db) (account mediator replica long : Did)
    (grant : JsString) (maxReplicas : Nat) (now : Millis) :
    Conserved used waiting
      (landed (addReplica account mediator replica long grant maxReplicas now) db) := by
  refine landed_keeps h fun outcome t ht hkeys => ?_
  have hafter := addReplica_ok ht
  rw [hafter] at hkeys ⊢
  split at hkeys
  case isFalse hnot => rwa [if_neg hnot]
  case isTrue hfree =>
    rw [if_pos hfree]
    simp only [Bool.and_eq_true] at hfree
    obtain ⟨⟨⟨⟨_, _⟩, _⟩, hshared⟩, _⟩ := hfree
    let row : Replica := ⟨replica, account, enrolledIn db account + 1, long, grant,
      (now / 1000).floor, none⟩
    by_cases hclash : (db.replicas.any fun b => row.clash b) = true
    · simp only [insertOrIgnore]
      rw [if_pos hclash]
      exact h
    simp only [insertOrIgnore] at hkeys ⊢
    rw [if_neg hclash] at hkeys ⊢
    simp only [List.any_eq_true, not_exists, not_and] at hclash
    have hnew : ∀ r ∈ db.replicas, r.replicaDid ≠ replica := by
      intro r hr heq
      exact hclash r hr (by simp [row, Replica.clash, heq])
    simp only [notSharedRecipient, Bool.not_eq_true', List.any_eq_false, List.contains_iff_mem,
      List.mem_cons, List.not_mem_nil, or_false, or_self] at hshared
    refine { h with keys := hkeys, replicaOnce := ?_, apart := ?_, within := ?_ }
    · rw [List.map_append, List.map_singleton, List.nodup_append_comm, List.singleton_append,
        List.nodup_cons]
      refine ⟨fun hmem => ?_, h.replicaOnce⟩
      obtain ⟨r, hr, heq⟩ := List.mem_map.mp hmem
      exact hnew r hr heq
    · intro r hr s hs
      rcases List.mem_append.mp hr with hr | hr
      · exact h.apart r hr s hs
      · rw [List.mem_singleton.mp hr]
        exact fun heq => hshared s hs heq.symm
    · intro d hd p hp r hr hid hdid
      rcases List.mem_append.mp hr with hr | hr
      · exact h.within d hd p hp r hr hid hdid
      · -- no delivery is yet to the replica that is added
        obtain ⟨s, hs, hsdid⟩ := (keys_delivery h.keys hd).2
        rw [List.mem_singleton.mp hr] at hdid
        exact absurd (hsdid.trans hdid.symm) (hnew s hs)

theorem conserved_addSharedRecipient (h : Conserved used waiting db)
    (account mediator recipient long : Did) (maxRecipients : Nat) (now : Millis) :
    Conserved used waiting
      (landed (addSharedRecipient account mediator recipient long maxRecipients now) db) := by
  refine landed_keeps h fun outcome t ht hkeys => ?_
  have hafter := addSharedRecipient_ok ht
  rw [hafter] at hkeys ⊢
  split at hkeys
  case isFalse hnot => rwa [if_neg hnot]
  case isTrue hfree =>
    rw [if_pos hfree]
    simp only [Bool.and_eq_true, unbound] at hfree
    obtain ⟨⟨_, ⟨_, _⟩, hreplica⟩, _⟩ := hfree
    by_cases hclash : (db.recipients.any fun b => recipient == b.recipientDid) = true
    · simp only [insertOrIgnore]
      rw [if_pos hclash]
      exact h
    simp only [insertOrIgnore] at hkeys ⊢
    rw [if_neg hclash] at hkeys ⊢
    simp only [List.any_eq_true, not_exists, not_and, beq_iff_eq] at hclash
    simp only [notReplica, spellings, Bool.not_eq_true', List.any_eq_false, List.contains_iff_mem,
      List.mem_cons, not_or] at hreplica
    refine { h with keys := hkeys, recipientOnce := ?_, apart := ?_ }
    · rw [List.map_append, List.map_singleton, List.nodup_append_comm, List.singleton_append,
        List.nodup_cons]
      refine ⟨fun hmem => ?_, h.recipientOnce⟩
      obtain ⟨s, hs, heq⟩ := List.mem_map.mp hmem
      exact hclash s hs heq.symm
    · intro r hr s hs
      rcases List.mem_append.mp hs with hs | hs
      · exact h.apart r hr s hs
      · rw [List.mem_singleton.mp hs]
        exact (hreplica r hr).1

theorem mem_sharedBy {next account : Did} :
    account ∈ sharedBy db next ↔
      ∃ s ∈ db.recipients, s.recipientDid = next ∧ s.accountDid = account := by
  simp [sharedBy, and_assoc]

/-- One account shares a DID at most. -/
theorem head_sharedBy (h : Conserved used waiting db) {next account : Did} :
    (sharedBy db next).head? = some account ↔ account ∈ sharedBy db next := by
  refine ⟨List.mem_of_head? , fun hmem => ?_⟩
  obtain ⟨s, hs, hnext, haccount⟩ := mem_sharedBy.mp hmem
  obtain ⟨first, hfirst⟩ : ∃ first, (sharedBy db next).head? = some first := by
    cases hlist : sharedBy db next with
    | nil => simp [hlist] at hmem
    | cons first rest => exact ⟨first, rfl⟩
  obtain ⟨s', hs', hnext', haccount'⟩ := mem_sharedBy.mp (List.mem_of_head? hfirst)
  rw [hfirst, ← haccount', ← haccount,
    List.inj_on_of_nodup_map h.recipientOnce hs' hs (hnext'.trans hnext.symm)]

/-- A replica that a package of the account is queued for: an active one of the account,
when the DID is one the account shares or the replica's own. -/
def Target (db : Db) (next account : Did) (r : Replica) : Prop :=
  r ∈ db.replicas ∧ r.active = true ∧ r.accountDid = account ∧
    (r.replicaDid = next ∨ ∃ s ∈ db.recipients, s.recipientDid = next ∧ s.accountDid = account)

/-- An account takes mail for what it shares and for its replicas. -/
theorem mem_accountsOf {next account : Did} (hmem : account ∈ accountsOf db next) :
    (∃ s ∈ db.recipients, s.recipientDid = next ∧ s.accountDid = account) ∨
      ∃ r ∈ db.replicas, r.replicaDid = next ∧ r.accountDid = account := by
  rcases List.mem_append.mp hmem with hshared | hown
  · exact .inl (mem_sharedBy.mp hshared)
  · obtain ⟨r, hr, haccount⟩ := List.mem_map.mp hown
    obtain ⟨hr, hwhich⟩ := List.mem_filter.mp hr
    simp only [Bool.and_eq_true, beq_iff_eq] at hwhich
    exact .inr ⟨r, hr, hwhich.1, haccount⟩

/-- The targets are the account's, whichever way the account came to take the package. -/
theorem mem_targets (h : Conserved used waiting db) {next account : Did}
    (haccount : account ∈ accountsOf db next) {r : Replica} :
    r ∈ targets db next ↔ Target db next account r := by
  simp only [targets, List.mem_filter, Bool.and_eq_true, Bool.or_eq_true, beq_iff_eq,
    head_sharedBy h, mem_sharedBy, Target]
  constructor
  · intro ⟨hr, hnext, hactive⟩
    rcases mem_accountsOf haccount with ⟨s, hs, hsnext, hsaccount⟩ | ⟨r', hr', hown, hraccount⟩
    · rcases hnext with hown | ⟨s', hs', hsnext', hsaccount'⟩
      · exact absurd (hown.trans hsnext.symm) (h.apart r hr s hs)
      · have heq := List.inj_on_of_nodup_map h.recipientOnce hs' hs (hsnext'.trans hsnext.symm)
        refine ⟨hr, hactive, ?_, .inr ⟨s, hs, hsnext, hsaccount⟩⟩
        rw [← hsaccount', heq, hsaccount]
    · rcases hnext with hown' | ⟨s', hs', hsnext', _⟩
      · have heq := List.inj_on_of_nodup_map h.replicaOnce hr hr' (hown'.trans hown.symm)
        exact ⟨hr, hactive, heq ▸ hraccount, .inl hown'⟩
      · exact absurd (hown.trans hsnext'.symm) (h.apart r' hr' s' hs')
  · intro ⟨hr, hactive, hof, hnext⟩
    refine ⟨hr, ?_, hactive⟩
    rcases hnext with hown | ⟨s, hs, hsnext, hsaccount⟩
    · exact .inl hown
    · exact .inr ⟨s, hs, hsnext, hsaccount.trans hof.symm⟩

section
variable {options : Options} {id : JsString} {deliveryId : Nat → JsString} {now : Millis} {next : Did}
  {packed : JsString} {bounds : PackageBounds}

/-- A package under a new id: no account has room for it, or one takes it in and its
targets get a delivery each. -/
theorem Taken.cases (h : Conserved used waiting db) (hnew : id ∉ used)
    (ht : Taken options id deliveryId now next packed bounds db db') :
    (hasPackage db' id = false ∧ db'.packages = db.packages ∧ db'.deliveries = db.deliveries) ∨
      ∃ account ∈ accountsOf db next, hasPackage db' id = true ∧
        db'.packages = db.packages ++ [⟨id, account, next, packed,
          (Utf16.encodeUtf8 packed).length, now, lapses options now bounds⟩] ∧
        db'.deliveries = db.deliveries ++
          (targets db next).mapIdx fun i r => ⟨deliveryId i, id, r.replicaDid⟩ := by
  have hnone : hasPackage db id = false := by
    rw [hasPackage, List.any_eq_false]
    exact fun p hp heq => hnew (beq_iff_eq.mp heq ▸ h.given p hp)
  have hpackages := ht.packages
  have hdeliveries := ht.deliveries
  have hone := ht.one
  cases hlist : takers options db now next (Utf16.encodeUtf8 packed).length bounds with
  | nil =>
      rw [hlist, List.map_nil, List.append_nil] at hpackages
      have hnone' : hasPackage db' id = false := by
        rw [hasPackage, hpackages]
        exact hnone
      rw [hnone', if_neg Bool.false_ne_true, List.append_nil] at hdeliveries
      exact .inl ⟨hnone', hpackages, hdeliveries⟩
  | cons account rest =>
      rw [hlist, List.length_cons] at hone
      have hrest : rest = [] := List.eq_nil_of_length_eq_zero (by omega)
      rw [hlist, hrest, List.map_singleton] at hpackages
      have hthere : hasPackage db' id = true := by simp [hasPackage, hpackages]
      rw [hthere, if_pos rfl] at hdeliveries
      refine .inr ⟨account, ?_, hthere, hpackages, hdeliveries⟩
      have hmem : account ∈ takers options db now next (Utf16.encodeUtf8 packed).length bounds := by
        rw [hlist]
        exact List.mem_cons_self
      exact List.mem_of_mem_filter hmem

/-- The deliveries that a package is queued with. -/
theorem mem_rows {table : List Replica} {d : Delivery} :
    d ∈ table.mapIdx (fun i r => (⟨deliveryId i, id, r.replicaDid⟩ : Delivery)) →
      d.packageId = id ∧ ∃ r ∈ table, r.replicaDid = d.replicaDid := by
  intro hmem
  obtain ⟨i, hi, rfl⟩ := List.mem_mapIdx.mp hmem
  exact ⟨rfl, table[i], List.getElem_mem hi, rfl⟩

theorem conserved_taken (h : Conserved used waiting db) (hnew : id ∉ used)
    (ht : Taken options id deliveryId now next packed bounds db db')
    (hkeys : foreignKeys db' = true) : Conserved (id :: used) waiting db' := by
  have hreplicas : db'.replicas = db.replicas := by rw [ht.rest]
  have hrecipients : db'.recipients = db.recipients := by rw [ht.rest]
  have hknown : ∀ i ∈ waiting, i ∈ id :: used := fun i hi => List.mem_cons_of_mem _ (h.known i hi)
  rcases ht.cases h hnew with ⟨_, hpackages, hdeliveries⟩ |
    ⟨account, haccount, _, hpackages, hdeliveries⟩
  · have hsame := h.same hkeys hreplicas hrecipients hpackages hdeliveries
    exact { hsame with
      given := fun p hp => List.mem_cons_of_mem _ (hsame.given p hp), known := hknown }
  have hother : ∀ p ∈ db.packages, p.id ≠ id := fun p hp heq => hnew (heq ▸ h.given p hp)
  have hlate : ∀ d ∈ db.deliveries, d.packageId ≠ id := by
    intro d hd heq
    obtain ⟨p, hp, hpid⟩ := (keys_delivery h.keys hd).1
    exact hother p hp (hpid.trans heq)
  constructor
  · exact hkeys
  · intro p hp
    rw [hpackages] at hp
    rcases List.mem_append.mp hp with hp | hp
    · exact List.mem_cons_of_mem _ (h.given p hp)
    · rw [List.mem_singleton.mp hp]
      exact List.mem_cons_self
  · exact hknown
  · rw [hpackages, List.map_append, List.map_singleton, List.nodup_append_comm,
      List.singleton_append, List.nodup_cons]
    refine ⟨fun hmem => ?_, h.packageOnce⟩
    obtain ⟨p, hp, hpid⟩ := List.mem_map.mp hmem
    exact hother p hp hpid
  · -- an id that clashed would have failed the batch
    have hdrop := ht.distinct
    have hpairs := ht.apart
    have hsplit : db'.deliveries = db.deliveries ++ db'.deliveries.drop db.deliveries.length := by
      rw [hdeliveries, List.drop_left]
    rw [hsplit, List.map_append, List.nodup_append]
    refine ⟨h.deliveryOnce, ?_, ?_⟩
    · refine List.nodup_iff_pairwise_ne.mpr (List.pairwise_map.mpr (hpairs.imp ?_))
      intro a b hab heq
      simp [Delivery.clash, heq] at hab
    · intro i hi j hj heq
      obtain ⟨d, hd, rfl⟩ := List.mem_map.mp hi
      obtain ⟨e, he, rfl⟩ := List.mem_map.mp hj
      have hclash := List.any_eq_false.mp (hdrop e he) d hd
      exact hclash (by simp [Delivery.clash, heq])
  · rw [hreplicas]
    exact h.replicaOnce
  · rw [hrecipients]
    exact h.recipientOnce
  · rw [hreplicas, hrecipients]
    exact h.apart
  · rw [hpackages, hdeliveries, hreplicas]
    intro d hd p hp r hr hid hdid
    rcases List.mem_append.mp hd with hd | hd <;> rcases List.mem_append.mp hp with hp | hp
    · exact h.within d hd p hp r hr hid hdid
    · rw [List.mem_singleton.mp hp] at hid
      exact absurd hid.symm (hlate d hd)
    · exact absurd (hid.trans (mem_rows hd).1) (hother p hp)
    · rw [List.mem_singleton.mp hp]
      obtain ⟨_, s, hs, hsdid⟩ := mem_rows hd
      obtain ⟨hs, _, hsaccount, _⟩ := (mem_targets h haccount).mp hs
      rw [List.inj_on_of_nodup_map h.replicaOnce hr hs (hdid.trans hsdid.symm)]
      exact hsaccount
  · intro i hi
    have hne : i ≠ id := fun heq => hnew (heq ▸ h.known i hi)
    rw [hpackages, hdeliveries]
    constructor
    · intro ⟨p, hp, hpid⟩
      rcases List.mem_append.mp hp with hp | hp
      · obtain ⟨d, hd, hdid⟩ := (h.queued i hi).mp ⟨p, hp, hpid⟩
        exact ⟨d, List.mem_append_left _ hd, hdid⟩
      · rw [List.mem_singleton.mp hp] at hpid
        exact absurd hpid.symm hne
    · intro ⟨d, hd, hdid⟩
      rcases List.mem_append.mp hd with hd | hd
      · obtain ⟨p, hp, hpid⟩ := (h.queued i hi).mpr ⟨d, hd, hdid⟩
        exact ⟨p, List.mem_append_left _ hp, hpid⟩
      · exact absurd (hdid.symm.trans (mem_rows hd).1) hne

theorem conserved_fanOut (h : Conserved used waiting db) (hnew : id ∉ used) :
    Conserved (id :: used) waiting
      (landed (fanOut options id deliveryId now next packed bounds) db) := by
  have hmore : Conserved (id :: used) waiting db :=
    { h with
      given := fun p hp => List.mem_cons_of_mem _ (h.given p hp)
      known := fun i hi => List.mem_cons_of_mem _ (h.known i hi) }
  refine landed_keeps hmore fun outcome t ht hkeys => ?_
  rcases fanOut_ok ht with ⟨_, hsame⟩ | ⟨htaken, _⟩
  · rw [hsame]
    exact hmore
  · exact conserved_taken h hnew htaken hkeys

/-- What a stored package was queued with: one delivery for each target of its account,
each to its own replica, behind those that were there. -/
def Queued (db db' : Db) (next : Did) (id : JsString) (deliveries : List Delivery) : Prop :=
  db'.deliveries = db.deliveries ++ deliveries ∧ (∀ d ∈ deliveries, d.packageId = id) ∧
    (deliveries.map Delivery.replicaDid).Nodup ∧
    ∃ p ∈ db'.packages, p.id = id ∧ ∀ did, did ∈ deliveries.map Delivery.replicaDid ↔
      ∃ r, Target db next p.accountDid r ∧ r.replicaDid = did

theorem queued_stored (h : Conserved used waiting db) (hnew : id ∉ used) {t : Tx Db}
    {deliveries : List Delivery}
    (ht : fanOut options id deliveryId now next packed bounds ⟨db, false⟩ =
      .ok (.stored deliveries, t)) (hkeys : foreignKeys t.db = true) :
    Queued db t.db next id deliveries ∧
      (deliveries ≠ [] → Conserved (id :: used) (id :: waiting) t.db) := by
  rcases fanOut_ok ht with ⟨hlapsed, _⟩ | ⟨htaken, houtcome⟩
  · cases hlapsed
  rcases htaken.cases h hnew with ⟨hnone, _⟩ | ⟨account, haccount, hthere, hpackages, hdeliveries⟩
  · rw [hnone, if_neg Bool.false_ne_true] at houtcome
    split at houtcome <;> cases houtcome
  rw [if_pos hthere, FanOutOutcome.stored.injEq] at houtcome
  -- what was queued before is for other packages
  have hbefore : db.deliveries.filter (·.packageId == id) = [] := by
    refine List.filter_eq_nil_iff.mpr fun d hd heq => ?_
    obtain ⟨p, hp, hpid⟩ := (keys_delivery h.keys hd).1
    exact hnew (hpid.trans (beq_iff_eq.mp heq) ▸ h.given p hp)
  have hrows : deliveries =
      (targets db next).mapIdx fun i r => ⟨deliveryId i, id, r.replicaDid⟩ := by
    rw [houtcome, hdeliveries, List.filter_append, hbefore, List.nil_append]
    exact List.filter_eq_self.mpr fun d hd => beq_iff_eq.mpr (mem_rows hd).1
  have hdids : deliveries.map Delivery.replicaDid = (targets db next).map Replica.replicaDid := by
    rw [hrows]
    exact List.ext_getElem (by simp) (by simp)
  refine ⟨⟨hrows ▸ hdeliveries, fun d hd => (mem_rows (hrows ▸ hd)).1, ?_, _,
    hpackages ▸ List.mem_append_right _ (List.mem_singleton.mpr rfl), rfl, fun did => ?_⟩, ?_⟩
  · rw [hdids]
    exact (List.filter_sublist.map _).nodup h.replicaOnce
  · rw [hdids, List.mem_map]
    exact exists_congr fun r => and_congr_left fun _ => mem_targets h haccount
  · intro hne
    obtain ⟨d, hd⟩ := List.exists_mem_of_ne_nil _ hne
    have hafter := conserved_taken h hnew htaken hkeys
    refine { hafter with
      known := List.forall_mem_cons.mpr ⟨List.mem_cons_self, hafter.known⟩
      queued := List.forall_mem_cons.mpr ⟨⟨fun _ => ?_, fun _ => ?_⟩, hafter.queued⟩ }
    · rw [hdeliveries, ← hrows]
      exact ⟨d, List.mem_append_right _ hd, (mem_rows (hrows ▸ hd)).1⟩
    · rw [hpackages]
      exact ⟨_, List.mem_append_right _ (List.mem_singleton.mpr rfl), rfl⟩

end

/-! ## Runs -/

theorem conserved_after (options : Options) {call : Call} (h : Conserved used waiting db)
    (hnew : ∀ id, call.packageId = some id → id ∉ used) :
    Conserved (call.packageId.toList ++ used) waiting (call.after options db) := by
  cases call with
  | grantMediation did now =>
      refine landed_keeps h fun held t ht hkeys => ?_
      have hafter := grantMediation_ok ht
      split at hafter <;>
        exact h.same hkeys (by rw [hafter]) (by rw [hafter]) (by rw [hafter]) (by rw [hafter])
  | revokeMediation did =>
      refine landed_keeps h fun _ t ht hkeys => ?_
      obtain ⟨s, hs, hafter⟩ := revokeMediation_ok ht
      refine h.same hkeys ?_ ?_ ?_ ?_
      · rw [hafter]
        exact hs.replicas
      · rw [hafter]
        exact hs.recipients
      · rw [hafter]
        exact hs.packages
      · rw [hafter]
        exact hs.deliveries
  | addRecipient owner recipient now =>
      refine landed_keeps h fun result t ht hkeys => ?_
      have hafter := addRecipient_ok ht
      split at hafter <;>
        exact h.same hkeys (by rw [hafter]) (by rw [hafter]) (by rw [hafter]) (by rw [hafter])
  | removeRecipient owner recipient =>
      refine landed_keeps h fun there t ht hkeys => ?_
      have hafter := removeRecipient_ok ht
      exact h.same hkeys (by rw [hafter]) (by rw [hafter]) (by rw [hafter]) (by rw [hafter])
  | registerReplicaAccount account long mediator create now registration =>
      refine landed_keeps h fun outcome t ht hkeys => ?_
      have hafter := registerReplicaAccount_ok ht
      split at hafter <;>
        exact h.same hkeys (by rw [hafter]) (by rw [hafter]) (by rw [hafter]) (by rw [hafter])
  | deleteReplicaAccount account mediator =>
      exact conserved_deleteReplicaAccount h account mediator
  | addReplica account mediator replica long grant maxReplicas now =>
      exact conserved_addReplica h account mediator replica long grant maxReplicas now
  | removeReplica account mediator replica now =>
      exact conserved_removeReplica h account mediator replica now
  | addSharedRecipient account mediator recipient long maxRecipients now =>
      exact conserved_addSharedRecipient h account mediator recipient long maxRecipients now
  | removeSharedRecipient account mediator recipient =>
      refine landed_keeps h fun outcome t ht hkeys => ?_
      have hafter := removeSharedRecipient_ok ht
      rw [hafter] at hkeys ⊢
      exact h.fewer ⟨List.Sublist.refl _, List.filter_sublist, List.Sublist.refl _,
        List.Sublist.refl _⟩ hkeys h.queued
  | fanOut id deliveryId now next packed bounds => exact conserved_fanOut h (hnew id rfl)
  | acknowledgeDeliveries replica ids =>
      refine landed_keeps h fun _ t ht hkeys => ?_
      have hafter := acknowledgeDeliveries_ok ht
      rw [hafter] at hkeys ⊢
      exact conserved_ended h _ hkeys
  | purgeExpired now => exact conserved_purgeExpired h now

theorem conserved_empty : Conserved [] [] Db.empty where
  keys := rfl
  given _ hp := by cases hp
  known _ hi := by cases hi
  packageOnce := List.nodup_nil
  deliveryOnce := List.nodup_nil
  replicaOnce := List.nodup_nil
  recipientOnce := List.nodup_nil
  apart _ hr := by cases hr
  within _ hd := by cases hd
  queued _ hi := by cases hi

theorem conserved_run (options : Options) {calls : List Call} (h : Conserved used waiting db)
    (hnew : (calls.filterMap Call.packageId ++ used).Nodup) :
    Conserved (calls.filterMap Call.packageId ++ used) waiting (run options calls db) := by
  induction calls generalizing db used with
  | nil => exact h
  | cons call calls ih =>
      have hperm : (calls.filterMap Call.packageId ++ (call.packageId.toList ++ used)).Perm
          ((call :: calls).filterMap Call.packageId ++ used) := by
        cases hid : call.packageId with
        | none => simp [hid]
        | some id => simp [hid]
      have hcall : ∀ id, call.packageId = some id → id ∉ used := by
        intro id hid hused
        rw [List.filterMap_cons_some hid, List.cons_append, List.nodup_cons] at hnew
        exact hnew.1 (List.mem_append_right _ hused)
      exact (ih (conserved_after options h hcall) (hperm.nodup_iff.mpr hnew)).grow hperm.subset

theorem run_append (options : Options) (before after : List Call) (db : Db) :
    run options (before ++ after) db = run options after (run options before db) := by
  induction before generalizing db with
  | nil => rfl
  | cons call before ih => exact ih _

/-- The deliveries of the replicas other than one. -/
def others (replica : Did) (db : Db) : List Delivery :=
  db.deliveries.filter fun d => !(d.replicaDid == replica)

theorem others_delete {replica : Did} {which : Delivery → Bool} {table : List Delivery}
    (hwhich : ∀ d, which d = true → d.replicaDid = replica) :
    (delete which table).filter (fun d => !(d.replicaDid == replica)) =
      table.filter fun d => !(d.replicaDid == replica) := by
  rw [delete, List.filter_filter]
  refine List.filter_congr fun d _ => ?_
  cases hd : which d with
  | false => simp
  | true => simp [hwhich d hd]

/-- After any calls, given that no two packages get one id:
a package that is stored is queued for its targets, and, where it has any, is there as
long as one of its deliveries is; no delivery is of a package that is gone; what one
replica acknowledges, and its removal, leave the others' deliveries as they are; and what
has not expired outlives a purge. -/
theorem fanOut_conserves (options : Options) (calls : List Call)
    (hfresh : (calls.filterMap Call.packageId).Nodup) :
    let db := run options calls .empty
    (∀ before id deliveryId now next packed bounds after deliveries stored,
      calls = before ++ .fanOut id deliveryId now next packed bounds :: after →
      Sql.transaction foreignKeys (fanOut options id deliveryId now next packed bounds)
        (run options before .empty) = .ok (.stored deliveries, stored) →
      Queued (run options before .empty) stored next id deliveries ∧
        (deliveries ≠ [] →
          ((∃ p ∈ db.packages, p.id = id) ↔ ∃ d ∈ db.deliveries, d.packageId = id))) ∧
    (∀ d ∈ db.deliveries, ∃ p ∈ db.packages, p.id = d.packageId) ∧
    (∀ replica ids, others replica (landed (acknowledgeDeliveries replica ids) db) =
      others replica db) ∧
    (∀ account mediator replica now,
      others replica (landed (removeReplica account mediator replica now) db) =
        others replica db) ∧
    ∀ now, ∀ p ∈ db.packages, now < p.expiresAt → p ∈ (landed (purgeExpired now) db).packages := by
  intro db
  have hdb : Conserved _ [] db := conserved_run options conserved_empty (by rwa [List.append_nil])
  refine ⟨fun before id deliveryId now next packed bounds after deliveries stored hcalls hstored => ?_,
    fun d hd => (keys_delivery hdb.keys hd).1, fun replica ids => ?_,
    fun account mediator replica now => ?_, fun now p hp hlate => ?_⟩
  · let call : Call := .fanOut id deliveryId now next packed bounds
    rw [hcalls, List.filterMap_append, List.filterMap_cons_some (show call.packageId = some id from rfl)]
      at hfresh
    obtain ⟨hnodup, hrest, hapart⟩ := List.nodup_append.mp hfresh
    have hbefore : Conserved _ [] (run options before .empty) :=
      conserved_run options conserved_empty (by rwa [List.append_nil])
    rw [List.append_nil] at hbefore
    have hnew : id ∉ before.filterMap Call.packageId := fun hmem =>
      hapart id hmem id List.mem_cons_self rfl
    obtain ⟨⟨t, ht, rfl⟩, hkeys⟩ := Sql.transaction_ok hstored
    obtain ⟨hqueued, hwaiting⟩ := queued_stored hbefore hnew ht hkeys
    refine ⟨hqueued, fun hne => ?_⟩
    -- from here on the package is one that had a delivery
    have hlanded : db = run options after t.db := by
      have hcall : call.after options (run options before .empty) = t.db := by
        show landed _ _ = _
        rw [landed, hstored]
      show run options calls .empty = _
      rw [hcalls, run_append, run, hcall]
    have hafter := @conserved_run _ _ _ options after (hwaiting hne) ?_
    · rw [hlanded]
      exact hafter.queued id List.mem_cons_self
    · refine List.nodup_append_comm.mp (List.nodup_cons.mpr ⟨?_, List.nodup_append.mpr ⟨hnodup, ?_, ?_⟩⟩)
      · exact fun hmem => (List.mem_append.mp hmem).elim hnew (List.nodup_cons.mp hrest).1
      · exact (List.nodup_cons.mp hrest).2
      · exact fun i hi j hj => hapart i hi j (List.mem_cons_of_mem _ hj)
  · refine landed_keeps (P := fun db' => others replica db' = others replica db) rfl
      fun _ t ht _ => ?_
    rw [acknowledgeDeliveries_ok ht]
    refine others_delete fun d hd => ?_
    exact beq_iff_eq.mp (Bool.and_eq_true_iff.mp hd).1
  · refine landed_keeps (P := fun db' => others replica db' = others replica db) rfl
      fun outcome t ht _ => ?_
    rw [others, (removeReplica_ok ht).deliveries]
    refine others_delete fun d hd => ?_
    obtain ⟨r, _, hr⟩ := List.any_eq_true.mp hd
    simp only [enrolled, Bool.and_eq_true, beq_iff_eq] at hr
    exact hr.2.symm.trans hr.1.1
  · refine landed_keeps (P := fun db' => p ∈ db'.packages) hp fun n t ht _ => ?_
    rw [purgeExpired_ok ht]
    exact mem_delete.mpr ⟨hp, by simpa using hlate⟩

/-- Mail for a replica's own DID waits for that replica alone: the account's other active
replica is queued nothing. -/
theorem fanOut_to_one_replica :
    let db := run ⟨1000, 10⟩
      [.registerReplicaAccount (lit "a") (lit "A") (lit "m") true 1 (lit "r"),
        .addReplica (lit "a") (lit "m") (lit "r1") (lit "R1") [] 2 2,
        .addReplica (lit "a") (lit "m") (lit "r2") (lit "R2") [] 2 3] .empty
    let batch := fanOut ⟨1000, 10⟩ (lit "p") (fun i => [i.toUInt16]) 4 (lit "r1") (lit "mail")
      ⟨none, 100⟩
    let deliveries := [⟨[0], lit "p", lit "r1"⟩]
    Sql.transaction foreignKeys batch db = .ok (.stored deliveries, landed batch db) ∧
      ¬∀ r ∈ db.replicas, r.active = true →
        (∃ p ∈ (landed batch db).packages, p.id = lit "p" ∧ p.accountDid = r.accountDid) →
          ∃ d ∈ deliveries, d.replicaDid = r.replicaDid := by
  decide +kernel

/-- A package for two replicas is there while the second has not acknowledged it. -/
theorem fanOut_conserves_example :
    let options : Options := ⟨1000, 10⟩
    let before : List Call :=
      [.registerReplicaAccount (lit "a") (lit "A") (lit "m") true 1 (lit "r"),
        .addReplica (lit "a") (lit "m") (lit "r1") (lit "R1") [] 2 2,
        .addReplica (lit "a") (lit "m") (lit "r2") (lit "R2") [] 2 3,
        .addSharedRecipient (lit "a") (lit "m") (lit "s") (lit "S") 5 4]
    let calls := before ++
      [.fanOut (lit "p") (fun i => [i.toUInt16]) 5 (lit "s") (lit "mail") ⟨none, 100⟩,
        .acknowledgeDeliveries (lit "r1") [[0]]]
    (∃ d ∈ (run options calls .empty).deliveries, d.packageId = lit "p") ∧
      ∃ p ∈ (run options calls .empty).packages, p.id = lit "p" := by
  intro options before calls
  have hleft : ∃ d ∈ (run options calls .empty).deliveries, d.packageId = lit "p" := by
    decide +kernel
  have hbatch : Sql.transaction foreignKeys
      (fanOut options (lit "p") (fun i => [i.toUInt16]) 5 (lit "s") (lit "mail") ⟨none, 100⟩)
      (run options before .empty) =
      .ok (.stored [⟨[0], lit "p", lit "r1"⟩, ⟨[1], lit "p", lit "r2"⟩], landed
        (fanOut options (lit "p") (fun i => [i.toUInt16]) 5 (lit "s") (lit "mail") ⟨none, 100⟩)
        (run options before .empty)) := by
    decide +kernel
  obtain ⟨hstored, _⟩ := fanOut_conserves options calls (by decide)
  obtain ⟨_, hthere⟩ := hstored before _ _ _ _ _ _ _ _ _ rfl hbatch
  exact ⟨hleft, (hthere (by decide)).mpr hleft⟩

end Estoc.Mediator
