import Estoc.Mediator.Store

/-!
# What each call leaves

One lemma for each operation says what the database is after a batch that landed.
Everything proved about runs is proved from these: no later proof looks into a batch.
-/

set_option linter.unusedSectionVars false

namespace Estoc.Mediator

open Utf16 (JsString)
open Sql (bind_ok select_ok select_bind_ok write_ok defer_ok pure_ok transaction_ok insert insertOrIgnore insertAll
  insertAll_eq_ok delete update Tx)
open Checked (bind_eq_ok)

/-- A batch leaves what its transaction made of the database, or the database. -/
theorem landed_cases {α : Type} (batch : Batch α) (db : Db) :
    landed batch db = db ∨
      ∃ a t, batch ⟨db, false⟩ = .ok (a, t) ∧ t.db = landed batch db ∧
        foreignKeys (landed batch db) = true := by
  unfold landed
  split
  · next a db' h =>
      obtain ⟨⟨t, ht, hdb⟩, hkeys⟩ := transaction_ok h
      exact .inr ⟨a, t, ht, hdb, hkeys⟩
  · exact .inl rfl

/-- What a batch keeps where it lands is kept. -/
theorem landed_keeps {α : Type} {batch : Batch α} {db : Db} {P : Db → Prop} (h : P db)
    (hlands : ∀ a t, batch ⟨db, false⟩ = .ok (a, t) → foreignKeys t.db = true → P t.db) :
    P (landed batch db) := by
  rcases landed_cases batch db with heq | ⟨a, t, ht, hdb, hkeys⟩
  · rw [heq]
    exact h
  · rw [← hdb]
    exact hlands a t ht (hdb ▸ hkeys)

/-! ## Shared statements -/

/-- Two databases that differ in blobs alone. -/
structure SameButBlobs (db db' : Db) : Prop where
  accounts : db'.accounts = db.accounts
  keylist : db'.keylist = db.keylist
  replicaAccounts : db'.replicaAccounts = db.replicaAccounts
  replicas : db'.replicas = db.replicas
  recipients : db'.recipients = db.recipients
  packages : db'.packages = db.packages
  deliveries : db'.deliveries = db.deliveries
  executions : db'.executions = db.executions
  registrations : db'.registrations = db.registrations

theorem endBlobs_ok {which : Db → Blob → Bool} {t t' : Tx Db} {u : Unit}
    (h : endBlobs which t = .ok (u, t')) : SameButBlobs t.db t'.db := by
  obtain ⟨_, s, hs, h⟩ := bind_ok.mp h
  obtain ⟨hwrite, _⟩ := write_ok hs
  rw [bind_eq_ok] at hwrite
  obtain ⟨ended, _, hs⟩ := hwrite
  have hs := Except.ok.inj hs
  have h := modify_ok h
  constructor <;> rw [h, ← hs]

/-- What is left when some deliveries end: the packages that had one of them and no
other are gone. -/
def ended (which : Delivery → Bool) (db : Db) : Db :=
  { db with
    packages := delete (fun p =>
      db.deliveries.any (fun d => which d && d.packageId == p.id) &&
        !db.deliveries.any fun d => d.packageId == p.id &&
          !((db.deliveries.filter which).map Delivery.id).contains d.id) db.packages
    deliveries := delete which db.deliveries }

theorem endDeliveries_ok {which : Db → Delivery → Bool} {t t' : Tx Db} {u : Unit}
    (hwhich : ∀ db packages, which { db with packages } = which db)
    (h : endDeliveries which t = .ok (u, t')) : t'.db = ended (which t.db) t.db := by
  obtain ⟨_, s, hs, h⟩ := bind_ok.mp h
  obtain ⟨r, hr, h⟩ := modify_bind_ok h
  rw [modify_ok h, hr, defer_ok hs, ended]
  simp only [hwhich]

/-! ## Ordinary mediation -/

theorem grantMediation_ok {did : Did} {now : Millis} {t t' : Tx Db} {held : Bool}
    (h : grantMediation did now t = .ok (held, t')) :
    t'.db = if notReplicaMediation t.db (spellings did none) then
      { t.db with accounts := insertOrIgnore (fun a b => a.did == b.did) ⟨did, now⟩ t.db.accounts }
    else t.db := by
  obtain ⟨s, hs, h⟩ := modify_bind_ok h
  rw [(select_ok h).2, hs]

theorem revokeMediation_ok {did : Did} {t t' : Tx Db} {u : Unit}
    (h : revokeMediation did t = .ok (u, t')) :
    ∃ db, SameButBlobs t.db db ∧ t'.db =
      { db with
        accounts := delete (·.did == did) db.accounts
        keylist := db.keylist.filter fun k =>
          (delete (·.did == did) db.accounts).any (·.did == k.ownerDid)
        messages := db.messages.filter fun m =>
          (delete (·.did == did) db.accounts).any (·.did == m.ownerDid) } := by
  obtain ⟨_, s, hs, h⟩ := bind_ok.mp h
  exact ⟨s.db, endBlobs_ok hs, modify_ok h⟩

theorem addRecipient_ok {owner recipient : Did} {now : Millis} {t t' : Tx Db}
    {result : AddRecipientResult} (h : addRecipient owner recipient now t = .ok (result, t')) :
    t'.db = if notReplicaMediation t.db (spellings recipient none) then
      { t.db with
        keylist := insertOrIgnore (fun a b => a.recipientDid == b.recipientDid)
          ⟨recipient, owner, now⟩ t.db.keylist }
    else t.db := by
  replace h := select_bind_ok.mp h
  obtain ⟨s, hs, h⟩ := modify_bind_ok h
  replace h := select_bind_ok.mp h
  rw [(pure_ok h).2, hs]

theorem removeRecipient_ok {owner recipient : Did} {t t' : Tx Db} {there : Bool}
    (h : removeRecipient owner recipient t = .ok (there, t')) :
    t'.db = { t.db with
      keylist := delete (fun k => k.recipientDid == recipient && k.ownerDid == owner)
        t.db.keylist } := by
  replace h := select_bind_ok.mp h
  obtain ⟨s, hs, h⟩ := modify_bind_ok h
  rw [(pure_ok h).2, hs]

/-! ## Replica mediation -/

theorem registerReplicaAccount_ok {account long mediator : Did} {create : Bool} {now : Millis}
    {registration : JsString} {t t' : Tx Db} {outcome : RegisterAccountOutcome}
    (h : registerReplicaAccount account long mediator create now registration t =
      .ok (outcome, t')) :
    t'.db = if create && notOrdinary t.db (spellings account (some long)) &&
        notReplica t.db (spellings account (some long)) &&
        notSharedRecipient t.db (spellings account (some long)) then
      { t.db with
        replicaAccounts := insertOrIgnore (fun a b => a.did == b.did)
          ⟨account, mediator, long, now, registration⟩ t.db.replicaAccounts }
    else t.db := by
  obtain ⟨s, hs, h⟩ := modify_bind_ok h
  replace h := select_bind_ok.mp h
  rw [(pure_ok h).2, hs]

/-- The database without an account bound to the mediator, and all that was kept for
it. -/
structure Deleted (account mediator : Did) (db db' : Db) : Prop where
  accounts : db'.accounts = db.accounts
  keylist : db'.keylist = db.keylist
  replicaAccounts : db'.replicaAccounts =
    delete (fun a => a.did == account && a.mediator == mediator) db.replicaAccounts
  replicas : db'.replicas = delete (fun r => ofAccount db account mediator r.accountDid) db.replicas
  recipients : db'.recipients =
    delete (fun r => ofAccount db account mediator r.accountDid) db.recipients
  packages : db'.packages =
    delete (fun p => ofAccount db account mediator p.accountDid) db.packages
  deliveries : db'.deliveries = delete (fun d =>
    db.packages.any (fun p => ofAccount db account mediator p.accountDid && p.id == d.packageId) ||
      db.replicas.any fun r =>
        ofAccount db account mediator r.accountDid && r.replicaDid == d.replicaDid) db.deliveries
  executions : db'.executions =
    delete (fun e => ofAccount db account mediator e.accountDid) db.executions
  registrations : db'.registrations = db.registrations.filter fun x =>
    db'.executions.any (·.registrationId == x.registrationId)

theorem deleteReplicaAccount_ok {account mediator : Did} {t t' : Tx Db} {bound : Bool}
    (h : deleteReplicaAccount account mediator t = .ok (bound, t')) :
    Deleted account mediator t.db t'.db := by
  replace h := select_bind_ok.mp h
  obtain ⟨s1, h1, h⟩ := modify_bind_ok h
  obtain ⟨s2, h2, h⟩ := modify_bind_ok h
  obtain ⟨s3, h3, h⟩ := modify_bind_ok h
  obtain ⟨s4, h4, h⟩ := modify_bind_ok h
  obtain ⟨_, s5, h5, h⟩ := bind_ok.mp h
  obtain ⟨s6, h6, h⟩ := modify_bind_ok h
  obtain ⟨s7, h7, h⟩ := modify_bind_ok h
  have h5 := endBlobs_ok h5
  -- nothing before the last statement takes an account away
  have hbound : ∀ did, ofAccount s5.db account mediator did = ofAccount t.db account mediator did := by
    intro did
    rw [ofAccount, ofAccount, isBound, isBound, h5.replicaAccounts, h4, h3, h2, h1]
  rw [(pure_ok h).2, h7, h6]
  constructor
  · simp only [h5.accounts, h4, h3, h2, h1]
  · simp only [h5.keylist, h4, h3, h2, h1]
  · simp only [h5.replicaAccounts, h4, h3, h2, h1]
  · simp only [hbound, h5.replicas, h4, h3, h2, h1]
  · simp only [h5.recipients, h4, h3, h2, h1]
    rfl
  · simp only [h5.packages, h4, h3, h2, h1]
    rfl
  · simp only [h5.deliveries, h4, h3, h2, h1]
  · simp only [h5.executions, h4, h3, h2, h1]
    rfl
  · simp only [h5.registrations, h5.executions, h4, h3, h2, h1]

theorem addReplica_ok {account mediator replica long : Did} {grant : JsString} {maxReplicas : Nat}
    {now : Millis} {t t' : Tx Db} {outcome : AddReplicaOutcome}
    (h : addReplica account mediator replica long grant maxReplicas now t = .ok (outcome, t')) :
    t'.db = if isBound t.db account mediator && notOrdinary t.db (spellings replica (some long)) &&
        notReplicaAccount t.db [replica] && notSharedRecipient t.db [replica, replica] &&
        activeIn t.db account < maxReplicas then
      { t.db with
        replicas := insertOrIgnore Replica.clash
          ⟨replica, account, enrolledIn t.db account + 1, long, grant, (now / 1000).floor, none⟩
          t.db.replicas }
    else t.db := by
  obtain ⟨s, hs, h⟩ := modify_bind_ok h
  replace h := select_bind_ok.mp h
  replace h := select_bind_ok.mp h
  replace h := select_bind_ok.mp h
  rw [(pure_ok h).2, hs]

/-- The deliveries of the replica that a removal names. -/
def removing (db : Db) (account mediator replica : Did) (d : Delivery) : Bool :=
  db.replicas.any fun r => enrolled db account mediator replica r && r.replicaDid == d.replicaDid

/-- The database with a replica removed. -/
structure Removed (account mediator replica : Did) (now : Millis) (db db' : Db) : Prop where
  accounts : db'.accounts = db.accounts
  keylist : db'.keylist = db.keylist
  replicaAccounts : db'.replicaAccounts = db.replicaAccounts
  replicas : db'.replicas = update (fun r => enrolled db account mediator replica r && r.active)
    (fun r => { r with removedAt := some (now / 1000).floor }) db.replicas
  recipients : db'.recipients = db.recipients
  packages : db'.packages = (ended (removing db account mediator replica) db).packages
  deliveries : db'.deliveries = delete (removing db account mediator replica) db.deliveries
  executions : db'.executions = db.executions
  registrations : db'.registrations = db.registrations

theorem removeReplica_ok {account mediator replica : Did} {now : Millis} {t t' : Tx Db}
    {outcome : RemoveOutcome} (h : removeReplica account mediator replica now t = .ok (outcome, t')) :
    Removed account mediator replica now t.db t'.db := by
  replace h := select_bind_ok.mp h
  obtain ⟨_, s1, h1, h⟩ := bind_ok.mp h
  obtain ⟨_, s2, h2, h⟩ := bind_ok.mp h
  obtain ⟨s3, h3, h⟩ := modify_bind_ok h
  have h1 := endDeliveries_ok (fun _ _ => rfl) h1
  have h2 := endBlobs_ok h2
  have hbound : ∀ r, enrolled s2.db account mediator replica r =
      enrolled t.db account mediator replica r := by
    intro r
    rw [enrolled, enrolled, ofAccount, ofAccount, isBound, isBound, h2.replicaAccounts, h1]
    rfl
  replace h := select_bind_ok.mp h
  rw [(pure_ok h).2, h3]
  constructor
  · exact h2.accounts.trans (by rw [h1]; rfl)
  · exact h2.keylist.trans (by rw [h1]; rfl)
  · exact h2.replicaAccounts.trans (by rw [h1]; rfl)
  · simp only [hbound, h2.replicas, h1]
    rfl
  · exact h2.recipients.trans (by rw [h1]; rfl)
  · exact h2.packages.trans (by rw [h1]; rfl)
  · exact h2.deliveries.trans (by rw [h1]; rfl)
  · exact h2.executions.trans (by rw [h1]; rfl)
  · exact h2.registrations.trans (by rw [h1]; rfl)

theorem addSharedRecipient_ok {account mediator recipient long : Did} {maxRecipients : Nat}
    {now : Millis} {t t' : Tx Db} {outcome : ShareOutcome}
    (h : addSharedRecipient account mediator recipient long maxRecipients now t =
      .ok (outcome, t')) :
    t'.db = if isBound t.db account mediator && unbound t.db (spellings recipient (some long)) &&
        (t.db.recipients.filter (·.accountDid == account)).length < maxRecipients then
      { t.db with
        recipients := insertOrIgnore (fun a b => a.recipientDid == b.recipientDid)
          ⟨recipient, account, long, now⟩ t.db.recipients }
    else t.db := by
  replace h := select_bind_ok.mp h
  obtain ⟨s, hs, h⟩ := modify_bind_ok h
  replace h := select_bind_ok.mp h
  replace h := select_bind_ok.mp h
  rw [(pure_ok h).2, hs]

theorem removeSharedRecipient_ok {account mediator recipient : Did} {t t' : Tx Db}
    {outcome : UnshareOutcome}
    (h : removeSharedRecipient account mediator recipient t = .ok (outcome, t')) :
    t'.db = { t.db with
      recipients := delete (fun r =>
        r.recipientDid == recipient && ofAccount t.db account mediator r.accountDid)
        t.db.recipients } := by
  replace h := select_bind_ok.mp h
  replace h := select_bind_ok.mp h
  obtain ⟨s, hs, h⟩ := modify_bind_ok h
  rw [(pure_ok h).2, hs]

/-! ## Mail -/

/-- The database with a package taken in: a row for each account with room for it, and,
where it is kept, a delivery for each of its targets. -/
structure Taken (options : Options) (id : JsString) (deliveryId : Nat → JsString) (now : Millis)
    (next : Did) (packed : JsString) (bounds : PackageBounds) (db db' : Db) : Prop where
  rest : db' = { db with packages := db'.packages, deliveries := db'.deliveries }
  packages : db'.packages = db.packages ++
    (takers options db now next (Utf16.encodeUtf8 packed).length bounds).map fun account =>
      ⟨id, account, next, packed, (Utf16.encodeUtf8 packed).length, now, lapses options now bounds⟩
  fresh : takers options db now next (Utf16.encodeUtf8 packed).length bounds ≠ [] → hasPackage db id = false
  one : (takers options db now next (Utf16.encodeUtf8 packed).length bounds).length ≤ 1
  deliveries : db'.deliveries = db.deliveries ++
    if hasPackage db' id then (targets db next).mapIdx fun i r => ⟨deliveryId i, id, r.replicaDid⟩
    else []
  distinct : ∀ d ∈ db'.deliveries.drop db.deliveries.length,
    db.deliveries.any d.clash = false
  apart : (db'.deliveries.drop db.deliveries.length).Pairwise fun a b => b.clash a = false

theorem fanOut_ok {options : Options} {id : JsString} {deliveryId : Nat → JsString} {now : Millis}
    {next : Did} {packed : JsString} {bounds : PackageBounds} {t t' : Tx Db}
    {outcome : FanOutOutcome}
    (h : fanOut options id deliveryId now next packed bounds t = .ok (outcome, t')) :
    (outcome = .lapsed ∧ t'.db = t.db) ∨
      (Taken options id deliveryId now next packed bounds t.db t'.db ∧
        outcome = if hasPackage t'.db id then
            .stored (t'.db.deliveries.filter (·.packageId == id))
          else if accountsOf t'.db next = [] then .unknown else .full) := by
  unfold fanOut at h
  split at h
  · obtain ⟨hlapsed, rfl⟩ := pure_ok h
    exact .inl ⟨hlapsed, rfl⟩
  right
  obtain ⟨_, s1, h1, h⟩ := bind_ok.mp h
  obtain ⟨_, s2, h2, h⟩ := bind_ok.mp h
  replace h := select_bind_ok.mp h
  replace h := select_bind_ok.mp h
  replace h := select_bind_ok.mp h
  obtain ⟨houtcome, rfl⟩ := pure_ok h
  obtain ⟨h1, _⟩ := write_ok h1
  obtain ⟨h2, _⟩ := write_ok h2
  rw [bind_eq_ok] at h1 h2
  obtain ⟨packages, hpackages, h1⟩ := h1
  obtain ⟨deliveries, hdeliveries, h2⟩ := h2
  have h1 := (Except.ok.inj h1).symm
  have h2 := (Except.ok.inj h2).symm
  obtain ⟨hp, hfresh, hpairs⟩ := insertAll_eq_ok hpackages
  obtain ⟨hd, hclash, hapart⟩ := insertAll_eq_ok hdeliveries
  -- the second statement reads the replicas and accounts that the first left alone
  have hdb : t'.db = { t.db with packages, deliveries } := by rw [h2, h1]
  have hids : hasPackage s1.db id = hasPackage t'.db id := by
    rw [hdb, h1]
    rfl
  have htargets : targets s1.db next = targets t.db next := by
    rw [h1]
    rfl
  have hbefore : s1.db.deliveries = t.db.deliveries := by rw [h1]
  rw [hids, htargets] at hd hclash hapart
  rw [hbefore] at hd hclash
  have hdrop : t'.db.deliveries.drop t.db.deliveries.length = if hasPackage t'.db id then
      (targets t.db next).mapIdx fun i r => ⟨deliveryId i, id, r.replicaDid⟩ else [] := by
    have hafter : t'.db.deliveries = deliveries := by rw [hdb]
    rw [hafter, hd, List.drop_left]
  refine ⟨?_, houtcome⟩
  constructor
  · rw [hdb]
  · rw [hdb]
    exact hp
  · intro hne
    obtain ⟨account, haccount⟩ := List.exists_mem_of_ne_nil _ hne
    have hnone := hfresh _ (List.mem_map.mpr ⟨account, haccount, rfl⟩)
    rw [List.any_eq_false] at hnone
    rw [hasPackage, List.any_eq_false]
    intro p hmem heq
    exact hnone p hmem (beq_iff_eq.mpr (beq_iff_eq.mp heq).symm)
  · rw [List.pairwise_map] at hpairs
    match hlist : takers options t.db now next (Utf16.encodeUtf8 packed).length bounds with
    | [] => exact Nat.zero_le 1
    | [_] => exact Nat.le_refl 1
    | a :: b :: rest =>
      rw [hlist] at hpairs
      have hboth := (List.pairwise_cons.mp hpairs).1 b (by simp)
      simp [Package.clash] at hboth
  · rw [hdb]
    rw [hdb] at hd
    exact hd
  · rw [hdrop]
    exact hclash
  · rw [hdrop]
    exact hapart

theorem acknowledgeDeliveries_ok {replica : Did} {ids : List JsString} {t t' : Tx Db} {u : Unit}
    (h : acknowledgeDeliveries replica ids t = .ok (u, t')) :
    t'.db = ended (fun d => d.replicaDid == replica && ids.contains d.id) t.db :=
  endDeliveries_ok (fun _ _ => rfl) h

theorem purgeExpired_ok {now : Millis} {t t' : Tx Db} {n : Nat}
    (h : purgeExpired now t = .ok (n, t')) :
    t'.db = { t.db with
      messages := delete (·.expiresAt ≤ now) t.db.messages
      deliveries := delete (fun d =>
        t.db.packages.any fun p => p.expiresAt ≤ now && p.id == d.packageId) t.db.deliveries
      packages := delete (·.expiresAt ≤ now) t.db.packages } := by
  replace h := select_bind_ok.mp h
  obtain ⟨s1, h1, h⟩ := modify_bind_ok h
  obtain ⟨s2, h2, h⟩ := modify_bind_ok h
  replace h := select_bind_ok.mp h
  obtain ⟨s3, h3, h⟩ := modify_bind_ok h
  rw [(pure_ok h).2, h3, h2, h1]

end Estoc.Mediator
