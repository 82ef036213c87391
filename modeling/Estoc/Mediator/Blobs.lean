import Mathlib.Data.List.Perm.Basic
import Mathlib.Data.List.Nodup
import Estoc.Mediator.Executions

/-!
# No blob is lost

The bytes of a blob lie outside the database, under the blob's ID. A row in `blobs` holds
them; a row whose owner is gone leaves its ID in `ended_blobs`; and a purge or a drop answers
the IDs it took out of both, for the caller to delete the bytes of. `accounted` is those three
places in one list, and a call only ever moves an ID from one to the next: the list is the same
before and after, but for the ID of a blob just made.

What is retained of one owner's is within its quota for as long as the clock does not go back:
a row is made or renewed where there is room for it among the rows retained then, and what is
retained later is a part of those.
-/

set_option linter.unusedSectionVars false

namespace Estoc.Mediator

open Json (lit)
open Utf16 (JsString)
open Sql (bind_ok select_bind_ok write_ok pure_ok insert insertOrIgnore insert_eq_ok insertAll
  insertAll_eq_ok delete update mem_delete Tx)
open Checked (bind_eq_ok)

/-! ## What ends -/

/-- The blobs that `which` names have ended, and nothing else about blobs has changed. -/
structure Ends (which : Blob → Bool) (db db' : Db) : Prop where
  blobs : db'.blobs = delete which db.blobs
  endedBlobs : db'.endedBlobs = db.endedBlobs ++ (db.blobs.filter which).map Blob.id

section
variable {db db' : Db}

theorem ends_nothing (hblobs : db'.blobs = db.blobs) (hended : db'.endedBlobs = db.endedBlobs) :
    Ends (fun _ => false) db db' where
  blobs := by rw [hblobs]; exact (List.filter_eq_self.mpr fun _ _ => rfl).symm
  endedBlobs := by rw [hended, List.filter_false, List.map_nil, List.append_nil]

theorem endBlobs_ends {which : Db → Blob → Bool} {t t' : Tx Db} {u : Unit}
    (hwhich : ∀ db endedBlobs, which { db with endedBlobs } = which db)
    (h : endBlobs which t = .ok (u, t')) : Ends (which t.db) t.db t'.db := by
  obtain ⟨_, s, hs, h⟩ := bind_ok.mp h
  obtain ⟨hwrite, _⟩ := write_ok hs
  rw [bind_eq_ok] at hwrite
  obtain ⟨ended, hended, hs⟩ := hwrite
  obtain ⟨rfl, _, _⟩ := insertAll_eq_ok hended
  have hs := (Except.ok.inj hs).symm
  have h := modify_ok h
  constructor
  · rw [h, hs]
    simp only [hwhich]
  · rw [h, hs]

/-- A DID that may hold blobs goes on to. -/
theorem holdsBlobs_mono {did : Did} (haccounts : ∀ a ∈ db.accounts, a.did = did → a ∈ db'.accounts)
    (hreplicas : ∀ r ∈ db.replicas, r.replicaDid = did → r ∈ db'.replicas)
    (h : holdsBlobs db did = true) : holdsBlobs db' did = true := by
  rw [holdsBlobs, Bool.or_eq_true, hasAccount, List.any_eq_true, List.any_eq_true] at h ⊢
  refine h.imp ?_ ?_
  · intro h
    obtain ⟨a, ha, hdid⟩ := h
    exact ⟨a, haccounts a ha (beq_iff_eq.mp hdid), hdid⟩
  · intro h
    obtain ⟨r, hr, hdid⟩ := h
    exact ⟨r, hreplicas r hr (beq_iff_eq.mp (Bool.and_eq_true_iff.mp hdid).1), hdid⟩

theorem holdsBlobs_congr {did : Did} (haccounts : db'.accounts = db.accounts)
    (hreplicas : db'.replicas = db.replicas) : holdsBlobs db' did = holdsBlobs db did := by
  rw [holdsBlobs, holdsBlobs, hasAccount, hasAccount, haccounts, hreplicas]

theorem revokeMediation_ends {did : Did} {t t' : Tx Db} {u : Unit}
    (h : revokeMediation did t = .ok (u, t')) :
    Ends (fun b => b.ownerDid == did && hasAccount t.db did) t.db t'.db := by
  obtain ⟨_, s, hs, h⟩ := bind_ok.mp h
  have hends := endBlobs_ends (fun _ _ => rfl) hs
  have h := modify_ok h
  constructor
  · rw [h]
    exact hends.blobs
  · rw [h]
    exact hends.endedBlobs

/-- The blob is of a replica that the deletion of an account takes along. -/
def ofDeleted (db : Db) (account mediator : Did) (b : Blob) : Bool :=
  db.replicas.any fun r => ofAccount db account mediator r.accountDid && r.replicaDid == b.ownerDid

theorem deleteReplicaAccount_ends {account mediator : Did} {t t' : Tx Db} {bound : Bool}
    (h : deleteReplicaAccount account mediator t = .ok (bound, t')) :
    Ends (ofDeleted t.db account mediator) t.db t'.db := by
  replace h := select_bind_ok.mp h
  obtain ⟨s1, h1, h⟩ := modify_bind_ok h
  obtain ⟨s2, h2, h⟩ := modify_bind_ok h
  obtain ⟨s3, h3, h⟩ := modify_bind_ok h
  obtain ⟨s4, h4, h⟩ := modify_bind_ok h
  obtain ⟨_, s5, h5, h⟩ := bind_ok.mp h
  obtain ⟨s6, h6, h⟩ := modify_bind_ok h
  obtain ⟨s7, h7, h⟩ := modify_bind_ok h
  have hends : Ends (ofDeleted s4.db account mediator) s4.db s5.db :=
    endBlobs_ends (fun _ _ => rfl) h5
  have hwhich : ofDeleted s4.db account mediator = ofDeleted t.db account mediator := by
    rw [h4, h3, h2, h1]
    rfl
  rw [hwhich] at hends
  have hbefore : s4.db.blobs = t.db.blobs ∧ s4.db.endedBlobs = t.db.endedBlobs := by
    rw [h4, h3, h2, h1]
    exact ⟨rfl, rfl⟩
  rw [(pure_ok h).2, h7, h6]
  exact ⟨by rw [← hbefore.1]; exact hends.blobs,
    by rw [← hbefore.1, ← hbefore.2]; exact hends.endedBlobs⟩

/-- The blob is of the replica that is removed. -/
def ofRemoved (db : Db) (account mediator replica : Did) (b : Blob) : Bool :=
  db.replicas.any fun r => enrolled db account mediator replica r && r.replicaDid == b.ownerDid

theorem removeReplica_ends {account mediator replica : Did} {now : Millis} {t t' : Tx Db}
    {outcome : RemoveOutcome} (h : removeReplica account mediator replica now t = .ok (outcome, t')) :
    Ends (ofRemoved t.db account mediator replica) t.db t'.db := by
  replace h := select_bind_ok.mp h
  obtain ⟨_, s1, h1, h⟩ := bind_ok.mp h
  obtain ⟨_, s2, h2, h⟩ := bind_ok.mp h
  obtain ⟨s3, h3, h⟩ := modify_bind_ok h
  replace h := select_bind_ok.mp h
  have h1 := endDeliveries_ok (fun _ _ => rfl) h1
  have hends : Ends (ofRemoved s1.db account mediator replica) s1.db s2.db :=
    endBlobs_ends (fun _ _ => rfl) h2
  have hwhich : ofRemoved s1.db account mediator replica =
      ofRemoved t.db account mediator replica := by
    rw [h1]
    rfl
  rw [hwhich] at hends
  have hbefore : s1.db.blobs = t.db.blobs ∧ s1.db.endedBlobs = t.db.endedBlobs := by
    rw [h1]
    exact ⟨rfl, rfl⟩
  rw [(pure_ok h).2, h3]
  exact ⟨by rw [← hbefore.1]; exact hends.blobs,
    by rw [← hbefore.1, ← hbefore.2]; exact hends.endedBlobs⟩

/-- What a call of either mediation leaves of the blobs: it ends some, and whoever may hold
one it did not end may hold it still. -/
structure Ending (which : Blob → Bool) (db db' : Db) : Prop where
  ends : Ends which db db'
  holds : ∀ b ∈ db.blobs, which b = false → holdsBlobs db b.ownerDid = true →
    holdsBlobs db' b.ownerDid = true

theorem ending_same (hblobs : db'.blobs = db.blobs) (hended : db'.endedBlobs = db.endedBlobs)
    (haccounts : ∀ a ∈ db.accounts, a ∈ db'.accounts)
    (hreplicas : ∀ r ∈ db.replicas, r ∈ db'.replicas) : Ending (fun _ => false) db db' where
  ends := ends_nothing hblobs hended
  holds _ _ _ h := holdsBlobs_mono (fun a ha _ => haccounts a ha) (fun r hr _ => hreplicas r hr) h

theorem ending_revokeMediation {did : Did} {t t' : Tx Db} {u : Unit}
    (h : revokeMediation did t = .ok (u, t')) :
    Ending (fun b => b.ownerDid == did && hasAccount t.db did) t.db t'.db where
  ends := revokeMediation_ends h
  holds b _ hnot hholds := by
    obtain ⟨s, hs, h⟩ := revokeMediation_ok h
    refine holdsBlobs_mono ?_ ?_ hholds
    · intro a ha hdid
      rw [h]
      refine mem_delete.mpr ⟨by rw [hs.accounts]; exact ha, ?_⟩
      -- an account of the owner that went would have ended the blob
      rw [Bool.and_eq_false_iff] at hnot
      rcases hnot with hnot | hnot
      · rw [hdid]
        exact hnot
      · rw [hasAccount, List.any_eq_false] at hnot
        exact Bool.eq_false_iff.mpr (hnot a ha)
    · intro r hr _
      rw [h]
      show r ∈ s.replicas
      rw [hs.replicas]
      exact hr

theorem ending_deleteReplicaAccount {account mediator : Did} {t t' : Tx Db} {bound : Bool}
    (h : deleteReplicaAccount account mediator t = .ok (bound, t')) :
    Ending (ofDeleted t.db account mediator) t.db t'.db where
  ends := deleteReplicaAccount_ends h
  holds b _ hnot hholds := by
    have hdeleted := deleteReplicaAccount_ok h
    rw [ofDeleted, List.any_eq_false] at hnot
    refine holdsBlobs_mono ?_ ?_ hholds
    · intro a ha _
      rw [hdeleted.accounts]
      exact ha
    · intro r hr hdid
      rw [hdeleted.replicas]
      refine mem_delete.mpr ⟨hr, Bool.eq_false_iff.mpr fun hof => hnot r hr ?_⟩
      rw [hof, hdid, beq_self_eq_true]
      rfl

theorem ending_removeReplica {account mediator replica : Did} {now : Millis} {t t' : Tx Db}
    {outcome : RemoveOutcome} (h : removeReplica account mediator replica now t = .ok (outcome, t')) :
    Ending (ofRemoved t.db account mediator replica) t.db t'.db where
  ends := removeReplica_ends h
  holds b _ hnot hholds := by
    have hremoved := removeReplica_ok h
    rw [ofRemoved, List.any_eq_false] at hnot
    refine holdsBlobs_mono ?_ ?_ hholds
    · intro a ha _
      rw [hremoved.accounts]
      exact ha
    · intro r hr hdid
      rw [hremoved.replicas]
      refine List.mem_map.mpr ⟨r, hr, if_neg fun hand => hnot r hr ?_⟩
      rw [(Bool.and_eq_true_iff.mp hand).1, hdid, beq_self_eq_true]
      rfl

theorem subset_insertOrIgnore {ρ : Type} (clash : ρ → ρ → Bool) (row : ρ) (table : List ρ) :
    ∀ r ∈ table, r ∈ insertOrIgnore clash row table := by
  intro r hr
  unfold insertOrIgnore
  split
  · exact hr
  · exact List.mem_append_left _ hr

/-- Some blobs have ended. -/
def Ended (db db' : Db) : Prop := ∃ which, Ending which db db'

/-- What any call of either mediation leaves of the blobs. -/
theorem ended_after (options : Options) (call : Call) (db : Db) :
    Ended db (call.after options db) := by
  have hsame : ∀ {db' : Db}, db'.blobs = db.blobs → db'.endedBlobs = db.endedBlobs →
      (∀ a ∈ db.accounts, a ∈ db'.accounts) → (∀ r ∈ db.replicas, r ∈ db'.replicas) →
      Ended db db' :=
    fun hblobs hended haccounts hreplicas => ⟨_, ending_same hblobs hended haccounts hreplicas⟩
  have hself : Ended db db := hsame rfl rfl (fun _ h => h) fun _ h => h
  cases call with
  | revokeMediation did =>
      exact landed_keeps hself fun a t ht _ => ⟨_, ending_revokeMediation ht⟩
  | deleteReplicaAccount account mediator =>
      exact landed_keeps hself fun a t ht _ => ⟨_, ending_deleteReplicaAccount ht⟩
  | removeReplica account mediator replica now =>
      exact landed_keeps hself fun a t ht _ => ⟨_, ending_removeReplica ht⟩
  | grantMediation did now =>
      refine landed_keeps hself fun a t ht _ => ?_
      rw [grantMediation_ok ht]
      split
      · refine hsame rfl rfl (fun a ha => ?_) fun _ h => h
        exact subset_insertOrIgnore (fun a b : Account => a.did == b.did) ⟨did, now⟩ _ a ha
      · exact hself
  | addReplica account mediator replica long grant maxReplicas now =>
      refine landed_keeps hself fun a t ht _ => ?_
      rw [addReplica_ok ht]
      split
      · exact hsame rfl rfl (fun _ h => h) fun r hr => subset_insertOrIgnore _ _ _ r hr
      · exact hself
  | fanOut id deliveryId now next packed bounds =>
      refine landed_keeps hself fun a t ht _ => ?_
      rcases fanOut_ok ht with ⟨_, heq⟩ | ⟨htaken, _⟩
      · rw [heq]
        exact hself
      · rw [htaken.rest]
        exact hsame rfl rfl (fun _ h => h) fun _ h => h
  | addRecipient owner recipient now =>
      refine landed_keeps hself fun a t ht _ => ?_
      rw [addRecipient_ok ht]
      split
      · exact hsame rfl rfl (fun _ h => h) fun _ h => h
      · exact hself
  | removeRecipient owner recipient =>
      refine landed_keeps hself fun a t ht _ => ?_
      rw [removeRecipient_ok ht]
      exact hsame rfl rfl (fun _ h => h) fun _ h => h
  | registerReplicaAccount account long mediator create now registration =>
      refine landed_keeps hself fun a t ht _ => ?_
      rw [registerReplicaAccount_ok ht]
      split
      · exact hsame rfl rfl (fun _ h => h) fun _ h => h
      · exact hself
  | addSharedRecipient account mediator recipient long maxRecipients now =>
      refine landed_keeps hself fun a t ht _ => ?_
      rw [addSharedRecipient_ok ht]
      split
      · exact hsame rfl rfl (fun _ h => h) fun _ h => h
      · exact hself
  | removeSharedRecipient account mediator recipient =>
      refine landed_keeps hself fun a t ht _ => ?_
      rw [removeSharedRecipient_ok ht]
      exact hsame rfl rfl (fun _ h => h) fun _ h => h
  | acknowledgeDeliveries replica ids =>
      refine landed_keeps hself fun a t ht _ => ?_
      rw [acknowledgeDeliveries_ok ht]
      exact hsame rfl rfl (fun _ h => h) fun _ h => h
  | purgeExpired now =>
      refine landed_keeps hself fun a t ht _ => ?_
      rw [purgeExpired_ok ht]
      exact hsame rfl rfl (fun _ h => h) fun _ h => h

end

/-! ## Keeping and dropping -/

/-- The row `keepBlob` makes, where it makes one. -/
def newBlob (keep : BlobKeep) (now : Millis) : Blob :=
  ⟨keep.id, keep.ownerDid, keep.hash, keep.size, now, none, keep.retainUntil⟩

/-- The rows with the retention of those a call renews. -/
def renewed (keep : BlobKeep) (quotaBytes : Nat) (now : Millis) (db : Db) : List Blob :=
  update (renews keep quotaBytes now db)
    (fun b => { b with retainUntil := max b.retainUntil keep.retainUntil }) db.blobs

/-- The database the renewal finds: with the new row, where there is one. -/
inductive Made (keep : BlobKeep) (quotaBytes : Nat) (now : Millis) (db : Db) : Db → Prop where
  | none : Made keep quotaBytes now db db
  | row (hcreates : creates keep quotaBytes now db = true)
      (hclash : db.blobs.any (newBlob keep now).clash = false) :
      Made keep quotaBytes now db { db with blobs := db.blobs ++ [newBlob keep now] }

section
variable {keep : BlobKeep} {quotaBytes : Nat} {now : Millis} {t t' : Tx Db}

theorem keepBlob_ok {outcome : KeepOutcome} (h : keepBlob keep quotaBytes now t = .ok (outcome, t')) :
    ∃ db, Made keep quotaBytes now t.db db ∧
      t'.db = { db with blobs := renewed keep quotaBytes now db } := by
  replace h := select_bind_ok.mp h
  replace h := select_bind_ok.mp h
  obtain ⟨_, s1, h1, h⟩ := bind_ok.mp h
  obtain ⟨h1, _⟩ := write_ok h1
  replace h := select_bind_ok.mp h
  obtain ⟨s2, h2, h⟩ := modify_bind_ok h
  replace h := select_bind_ok.mp h
  refine ⟨s1.db, ?_, by rw [(pure_ok h).2, h2, renewed]⟩
  split at h1
  · next hcreates =>
      obtain ⟨blobs, hblobs, h1⟩ := bind_eq_ok.mp h1
      obtain ⟨hclash, rfl⟩ := insert_eq_ok hblobs
      rw [← Except.ok.inj h1]
      exact .row hcreates hclash
  · rw [← Except.ok.inj h1]
    exact .none

theorem dropBlob_ok {owner : Did} {hash : JsString} {found : Option JsString}
    (h : dropBlob owner hash t = .ok (found, t')) :
    found = (blobOf t.db owner hash).map Blob.id ∧
      t'.db = { t.db with
        blobs := delete (fun b => b.ownerDid == owner && b.hash == hash) t.db.blobs
        blobUploads := uploadsOf (delete (fun b => b.ownerDid == owner && b.hash == hash) t.db.blobs)
          t.db.blobUploads } := by
  replace h := select_bind_ok.mp h
  obtain ⟨s, hs, h⟩ := modify_bind_ok h
  obtain ⟨hfound, ht⟩ := pure_ok h
  exact ⟨hfound, by rw [ht, hs]⟩

theorem purgeBlobs_ok {found : List JsString} (h : purgeBlobs now t = .ok (found, t')) :
    found = (t.db.blobs.filter (·.retainUntil ≤ now)).map Blob.id ++ t.db.endedBlobs ∧
      t'.db.blobs = delete (·.retainUntil ≤ now) t.db.blobs ∧ t'.db.endedBlobs = [] ∧
      t'.db.accounts = t.db.accounts ∧ t'.db.replicas = t.db.replicas := by
  replace h := select_bind_ok.mp h
  obtain ⟨s1, h1, h⟩ := modify_bind_ok h
  obtain ⟨s2, h2, h⟩ := modify_bind_ok h
  obtain ⟨s3, h3, h⟩ := modify_bind_ok h
  obtain ⟨hfound, ht⟩ := pure_ok h
  rw [ht, h3, h2, h1]
  exact ⟨hfound, rfl, rfl, rfl, rfl⟩

end

/-! ## Where the IDs are -/

/-- The IDs of the rows, of those that ended, and of those handed out. -/
def accounted (db : Db) (handed : List JsString) : List JsString :=
  db.blobs.map Blob.id ++ db.endedBlobs ++ handed

/-- The blobs a call handed out. -/
def StoreAnswer.handed : StoreAnswer → List JsString
  | .deleted ids => ids
  | _ => []

/-- The ID a call draws for a blob. -/
def StoreCall.blobId : StoreCall → Option JsString
  | .keepBlob keep _ _ => some keep.id
  | _ => none

/-- Every ID in one place, one row for each text of an owner's, and every owner one that may
hold blobs. -/
structure Accounted (drawn handed : List JsString) (db : Db) : Prop where
  once : (accounted db handed).Nodup
  drawn : ∀ id ∈ accounted db handed, id ∈ drawn
  one : (db.blobs.map fun b => (b.ownerDid, b.hash)).Nodup
  owners : ∀ b ∈ db.blobs, holdsBlobs db b.ownerDid = true

theorem accounted_empty : Accounted [] [] Db.empty where
  once := List.nodup_nil
  drawn _ h := by cases h
  one := List.nodup_nil
  owners _ h := by cases h

section
variable {drawn handed : List JsString} {db db' : Db}

/-- Rows that leave the table, their IDs put elsewhere. -/
theorem perm_delete (which : Blob → Bool) (blobs : List Blob) :
    ((delete which blobs).map Blob.id ++ (blobs.filter which).map Blob.id).Perm
      (blobs.map Blob.id) := by
  have hperm := List.filter_append_perm which blobs
  rw [← List.map_append]
  exact (List.perm_append_comm.trans hperm).map _

theorem Accounted.ended (h : Accounted drawn handed db) (hended : Ended db db') :
    (accounted db' handed).Perm (accounted db handed) ∧ Accounted drawn handed db' := by
  obtain ⟨which, hends, hholds⟩ := hended
  have hperm : (accounted db' handed).Perm (accounted db handed) := by
    have hmoved := perm_delete which db.blobs
    rw [accounted, accounted, hends.blobs, hends.endedBlobs]
    calc (delete which db.blobs).map Blob.id ++
          (db.endedBlobs ++ (db.blobs.filter which).map Blob.id) ++ handed
        |>.Perm ((delete which db.blobs).map Blob.id ++
          ((db.blobs.filter which).map Blob.id ++ db.endedBlobs) ++ handed) :=
          (List.perm_append_comm.append_left _).append_right _
      _ = ((delete which db.blobs).map Blob.id ++ (db.blobs.filter which).map Blob.id) ++
          db.endedBlobs ++ handed := by rw [List.append_assoc, List.append_assoc, List.append_assoc,
            List.append_assoc]
      _ |>.Perm (db.blobs.map Blob.id ++ db.endedBlobs ++ handed) :=
          (hmoved.append_right _).append_right _
  refine ⟨hperm, hperm.nodup_iff.mpr h.once, fun id hid => h.drawn id (hperm.mem_iff.mp hid), ?_, ?_⟩
  · rw [hends.blobs]
    exact h.one.sublist (List.filter_sublist.map _)
  · intro b hb
    rw [hends.blobs, mem_delete] at hb
    exact hholds b hb.1 hb.2 (h.owners b hb.1)

/-- Rows that a call rewrote keep the fields it left alone. -/
theorem map_update {ρ β : Type} {which : ρ → Bool} {change : ρ → ρ} {f : ρ → β}
    (hf : ∀ r, f (change r) = f r) (table : List ρ) :
    (update which change table).map f = table.map f := by
  rw [update, List.map_map]
  refine List.map_congr_left fun r _ => ?_
  rw [Function.comp_apply]
  split
  · exact hf r
  · rfl

theorem map_renewed {β : Type} {f : Blob → β} (hf : ∀ b u, f { b with retainUntil := u } = f b)
    (keep : BlobKeep) (quotaBytes : Nat) (now : Millis) (db : Db) :
    (renewed keep quotaBytes now db).map f = db.blobs.map f :=
  map_update (fun b => hf b _) db.blobs

/-- The row a call makes is of an owner and a hash that no row was of. -/
theorem Made.one {keep : BlobKeep} {quotaBytes : Nat} {now : Millis} {db1 : Db}
    (hmade : Made keep quotaBytes now db db1)
    (hone : (db.blobs.map fun b => (b.ownerDid, b.hash)).Nodup) :
    (db1.blobs.map fun b => (b.ownerDid, b.hash)).Nodup := by
  cases hmade with
  | none => exact hone
  | row hcreates hclash =>
      rw [List.map_append]
      refine List.nodup_append.mpr ⟨hone, List.nodup_singleton _, ?_⟩
      intro k hk k' hk' hkk
      obtain ⟨b, hb, rfl⟩ := List.mem_map.mp hk
      rw [List.map_singleton, List.mem_singleton] at hk'
      rw [hk', Prod.mk.injEq] at hkk
      rw [List.any_eq_false] at hclash
      refine hclash b hb ?_
      rw [Blob.clash, Bool.or_eq_true, Bool.and_eq_true]
      exact .inr ⟨beq_iff_eq.mpr hkk.1.symm, beq_iff_eq.mpr hkk.2.symm⟩

/-- A blob made under a new ID is one more, and the rest are where they were. -/
theorem Accounted.kept (h : Accounted drawn handed db) {keep : BlobKeep} {quotaBytes : Nat}
    {now : Millis} (hnew : keep.id ∉ drawn) {db1 : Db} (hmade : Made keep quotaBytes now db db1) :
    let db' := { db1 with blobs := renewed keep quotaBytes now db1 }
    Accounted (drawn ++ [keep.id]) handed db' ∧
      ∀ id ∈ accounted db handed, id ∈ accounted db' handed := by
  intro db'
  have hids : db'.blobs.map Blob.id = db1.blobs.map Blob.id :=
    map_renewed (fun _ _ => rfl) keep quotaBytes now db1
  have hkeys : db'.blobs.map (fun b => (b.ownerDid, b.hash)) =
      db1.blobs.map (fun b => (b.ownerDid, b.hash)) :=
    map_renewed (fun _ _ => rfl) keep quotaBytes now db1
  have howners : ∀ b ∈ db'.blobs, ∃ b1 ∈ db1.blobs, b1.ownerDid = b.ownerDid := by
    intro b hb
    have hmem : b.ownerDid ∈ db'.blobs.map Blob.ownerDid := List.mem_map_of_mem hb
    rw [show db'.blobs.map Blob.ownerDid = db1.blobs.map Blob.ownerDid from
      map_renewed (fun _ _ => rfl) keep quotaBytes now db1] at hmem
    exact List.mem_map.mp hmem
  have hone := hmade.one h.one
  cases hmade with
  | none =>
      have hall : accounted db' handed = accounted db handed := by rw [accounted, accounted, hids]
      refine ⟨⟨?_, ?_, ?_, ?_⟩, ?_⟩
      · rw [hall]
        exact h.once
      · intro id hid
        rw [hall] at hid
        exact List.mem_append_left _ (h.drawn id hid)
      · rw [hkeys]
        exact hone
      · intro b hb
        obtain ⟨b1, hb1, hb1owner⟩ := howners b hb
        rw [← hb1owner]
        exact h.owners b1 hb1
      · intro id hid
        rwa [hall]
  | row hcreates hclash =>
      rw [List.map_append] at hids
      have hperm : (accounted db' handed).Perm (keep.id :: accounted db handed) := by
        rw [accounted, accounted, hids, List.append_assoc, List.append_assoc, List.append_assoc]
        exact List.perm_middle
      have hfresh : keep.id ∉ accounted db handed := fun hid => hnew (h.drawn _ hid)
      refine ⟨⟨?_, ?_, ?_, ?_⟩, ?_⟩
      · exact hperm.nodup_iff.mpr (List.nodup_cons.mpr ⟨hfresh, h.once⟩)
      · intro id hid
        rcases List.mem_cons.mp (hperm.mem_iff.mp hid) with rfl | hid
        · exact List.mem_append_right _ (List.mem_singleton_self _)
        · exact List.mem_append_left _ (h.drawn id hid)
      · rw [hkeys]
        exact hone
      · intro b hb
        obtain ⟨b1, hb1, hb1owner⟩ := howners b hb
        rw [← hb1owner]
        rcases List.mem_append.mp hb1 with hb1 | hb1
        · exact h.owners b1 hb1
        · rw [List.mem_singleton.mp hb1]
          rw [creates, Bool.and_eq_true] at hcreates
          exact hcreates.2
      · intro id hid
        exact hperm.mem_iff.mpr (List.mem_cons_of_mem _ hid)

/-- Rows taken out of the table and handed out. -/
theorem Accounted.dropped (h : Accounted drawn handed db) {which : Blob → Bool} {found : List JsString}
    {kept : List JsString} (hblobs : db'.blobs = delete which db.blobs)
    (hended : (kept ++ db'.endedBlobs).Perm db.endedBlobs)
    (hfound : found.Perm ((db.blobs.filter which).map Blob.id ++ kept))
    (haccounts : db'.accounts = db.accounts) (hreplicas : db'.replicas = db.replicas) :
    (accounted db' (handed ++ found)).Perm (accounted db handed) ∧
      Accounted drawn (handed ++ found) db' := by
  have hmoved := perm_delete which db.blobs
  have hperm : (accounted db' (handed ++ found)).Perm (accounted db handed) := by
    rw [accounted, accounted, hblobs]
    refine List.perm_iff_count.mpr fun id => ?_
    have h1 := hmoved.count_eq id
    have h2 := hended.count_eq id
    have h3 := hfound.count_eq id
    simp only [List.count_append] at h1 h2 h3 ⊢
    omega
  refine ⟨hperm, hperm.nodup_iff.mpr h.once, fun id hid => h.drawn id (hperm.mem_iff.mp hid), ?_, ?_⟩
  · rw [hblobs]
    exact h.one.sublist (List.filter_sublist.map _)
  · intro b hb
    rw [hblobs, mem_delete] at hb
    rw [holdsBlobs_congr haccounts hreplicas]
    exact h.owners b hb.1

end

/-! ## What is retained -/

/-- The bytes of an owner's rows that are retained at a time. -/
def retainedBytes (owner : Did) (now : Millis) (blobs : List Blob) : Nat :=
  ((blobs.filter fun b => b.ownerDid == owner && now < b.retainUntil).map Blob.size).sum

section
variable {owner : Did} {now : Millis}

theorem retainedBytes_cons (b : Blob) (blobs : List Blob) :
    retainedBytes owner now (b :: blobs) =
      (if b.ownerDid == owner && now < b.retainUntil then b.size else 0) +
        retainedBytes owner now blobs := by
  rw [retainedBytes, retainedBytes, List.filter_cons]
  split
  · rw [List.map_cons, List.sum_cons]
  · rw [Nat.zero_add]

theorem retainedBytes_append (xs ys : List Blob) :
    retainedBytes owner now (xs ++ ys) = retainedBytes owner now xs + retainedBytes owner now ys := by
  rw [retainedBytes, List.filter_append, List.map_append, List.sum_append]
  rfl

/-- Rows kept on, as they were or renewed, retain no more than rows that were retained
before. -/
theorem retainedBytes_map_le {t : Millis} {change : Blob → Blob} {blobs : List Blob}
    (hsize : ∀ b ∈ blobs, (change b).size = b.size)
    (hretained : ∀ b ∈ blobs, ((change b).ownerDid == owner && t < (change b).retainUntil) = true →
      (b.ownerDid == owner && now < b.retainUntil) = true) :
    retainedBytes owner t (blobs.map change) ≤ retainedBytes owner now blobs := by
  induction blobs with
  | nil => exact Nat.le_refl _
  | cons b blobs ih =>
      obtain ⟨hsizeb, hsizes⟩ := List.forall_mem_cons.mp hsize
      obtain ⟨hb, hbs⟩ := List.forall_mem_cons.mp hretained
      have hrest := ih hsizes hbs
      rw [List.map_cons, retainedBytes_cons, retainedBytes_cons, hsizeb]
      split
      · next hlater =>
          rw [if_pos (hb hlater)]
          omega
      · omega

theorem retainedBytes_delete_le {t : Millis} (hle : now ≤ t) (which : Blob → Bool)
    (blobs : List Blob) :
    retainedBytes owner t (delete which blobs) ≤ retainedBytes owner now blobs := by
  induction blobs with
  | nil => exact Nat.le_refl _
  | cons b blobs ih =>
      have hrow : (if b.ownerDid == owner && t < b.retainUntil then b.size else 0) ≤
          if b.ownerDid == owner && now < b.retainUntil then b.size else 0 := by
        split
        · next hlater =>
            simp only [Bool.and_eq_true, decide_eq_true_eq] at hlater
            rw [if_pos]
            simp only [Bool.and_eq_true, decide_eq_true_eq]
            exact ⟨hlater.1, lt_of_le_of_lt hle hlater.2⟩
        · exact Nat.zero_le _
      rw [retainedBytes_cons, delete, List.filter_cons]
      split
      · rw [retainedBytes_cons]
        exact Nat.add_le_add hrow ih
      · exact Nat.le_trans ih (Nat.le_add_left _ _)

end

/-- At any time no reading of the clock was later than, what an owner's blobs retain is within
the quota. -/
def Within (quotaBytes : Nat) (times : List Millis) (db : Db) : Prop :=
  ∀ owner t, (∀ s ∈ times, s ≤ t) → blobUsage db owner t ≤ quotaBytes

/-- The reading of the clock a call keeps a blob by. -/
def StoreCall.keepTime : StoreCall → Option Millis
  | .keepBlob _ _ now => some now
  | _ => none

/-- Where the call keeps a blob, the quota is of this many bytes. -/
def StoreCall.Quota (quotaBytes : Nat) : StoreCall → Prop
  | .keepBlob _ quota _ => quota = quotaBytes
  | _ => True

section
variable {quotaBytes : Nat} {times : List Millis} {db db' : Db}

theorem Within.fewer (h : Within quotaBytes times db) (which : Blob → Bool)
    (hblobs : db'.blobs = delete which db.blobs) : Within quotaBytes times db' := by
  intro owner t ht
  refine Nat.le_trans ?_ (h owner t ht)
  show retainedBytes owner t db'.blobs ≤ retainedBytes owner t db.blobs
  rw [hblobs]
  exact retainedBytes_delete_le (le_refl t) which db.blobs

/-- A row is made where there is room for it. -/
theorem Made.usage_le {keep : BlobKeep} {now : Millis} {db1 : Db}
    (hmade : Made keep quotaBytes now db db1) {owner : Did}
    (h : blobUsage db owner now ≤ quotaBytes) : blobUsage db1 owner now ≤ quotaBytes := by
  cases hmade with
  | none => exact h
  | row hcreates hclash =>
      have hroom : blobUsage db keep.ownerDid now + keep.size ≤ quotaBytes := by
        simp only [creates, room, Bool.and_eq_true, decide_eq_true_eq] at hcreates
        exact hcreates.1.2
      show retainedBytes owner now (db.blobs ++ [newBlob keep now]) ≤ quotaBytes
      rw [retainedBytes_append, retainedBytes_cons]
      by_cases howner : keep.ownerDid = owner
      · rw [howner] at hroom
        have hrow : (if (newBlob keep now).ownerDid == owner && now < (newBlob keep now).retainUntil
            then (newBlob keep now).size else 0) ≤ keep.size := by
          split
          · exact Nat.le_refl _
          · exact Nat.zero_le _
        have hnil : retainedBytes owner now [] = 0 := rfl
        have hsame : retainedBytes owner now db.blobs = blobUsage db owner now := rfl
        omega
      · rw [if_neg]
        · exact h
        · intro hof
          exact howner (beq_iff_eq.mp (Bool.and_eq_true_iff.mp hof).1)

/-- Renewing is for nothing where the row is retained, and otherwise takes room there is. -/
theorem Within.renewed {keep : BlobKeep} {now : Millis} {owner : Did} {t : Millis} (hle : now ≤ t)
    (hone : (db.blobs.map fun b => (b.ownerDid, b.hash)).Nodup)
    (h : ∀ owner, blobUsage db owner now ≤ quotaBytes) :
    retainedBytes owner t (renewed keep quotaBytes now db) ≤ quotaBytes := by
  have hsizes : ∀ b : Blob, (if renews keep quotaBytes now db b then
      { b with retainUntil := max b.retainUntil keep.retainUntil } else b).size = b.size := by
    intro b
    split <;> rfl
  -- a row that is not renewed is retained no longer than it was
  have hold : ∀ b : Blob, (b.ownerDid == owner && t < b.retainUntil) = true →
      (b.ownerDid == owner && now < b.retainUntil) = true := by
    intro b hb
    simp only [Bool.and_eq_true, decide_eq_true_eq] at hb ⊢
    exact ⟨hb.1, lt_of_le_of_lt hle hb.2⟩
  by_cases hlapsed : ∃ b ∈ db.blobs, renews keep quotaBytes now db b = true ∧ b.retainUntil ≤ now
  · obtain ⟨b, hb, hrenews, hretain⟩ := hlapsed
    have hparts := hrenews
    simp only [renews, room, Bool.and_eq_true, Bool.or_eq_true, decide_eq_true_eq,
      beq_iff_eq] at hparts
    obtain ⟨⟨⟨⟨hbowner, hbhash⟩, hbsize⟩, hroom⟩, _⟩ := hparts
    replace hroom := hroom.resolve_left (not_lt.mpr hretain)
    obtain ⟨xs, ys, hsplit⟩ := List.append_of_mem hb
    -- one row alone is of this owner and hash, so one row alone is renewed
    have hrest : ∀ c ∈ xs ++ ys, renews keep quotaBytes now db c = false := by
      intro c hc
      rw [Bool.eq_false_iff]
      intro hcrenews
      simp only [renews, Bool.and_eq_true, beq_iff_eq] at hcrenews
      rw [hsplit, List.map_append, List.map_cons] at hone
      have hnot := (List.nodup_middle.mp hone)
      rw [List.nodup_cons, ← List.map_append] at hnot
      refine hnot.1 (List.mem_map.mpr ⟨c, hc, ?_⟩)
      rw [hcrenews.1.1.1.1, hcrenews.1.1.1.2, hbowner, hbhash]
    have hsame : ∀ c ∈ xs ++ ys, (if renews keep quotaBytes now db c then
        { c with retainUntil := max c.retainUntil keep.retainUntil } else c) = c := by
      intro c hc
      rw [hrest c hc]
      rfl
    have hpart : ∀ zs, (∀ c ∈ zs, c ∈ xs ++ ys) → retainedBytes owner t
        (update (renews keep quotaBytes now db)
          (fun c => { c with retainUntil := max c.retainUntil keep.retainUntil }) zs) ≤
        retainedBytes owner now zs := by
      intro zs hzs
      refine retainedBytes_map_le (fun c _ => hsizes c) fun c hc hcounted => hold c ?_
      rwa [hsame c (hzs c hc)] at hcounted
    have hx := hpart xs fun c hc => List.mem_append_left _ hc
    have hy := hpart ys fun c hc => List.mem_append_right _ hc
    have htotal : retainedBytes owner now db.blobs = retainedBytes owner now xs +
        ((if b.ownerDid == owner && now < b.retainUntil then b.size else 0) +
          retainedBytes owner now ys) := by
      rw [hsplit, retainedBytes_append, retainedBytes_cons]
    rw [Mediator.renewed, hsplit, update, List.map_append, List.map_cons, retainedBytes_append,
      retainedBytes_cons, hsizes b]
    rw [update] at hx hy
    have husage : blobUsage db owner now = retainedBytes owner now db.blobs := rfl
    have hchanged : (if renews keep quotaBytes now db b then
        { b with retainUntil := max b.retainUntil keep.retainUntil } else b).ownerDid =
        b.ownerDid := by
      split <;> rfl
    have hcount : ∀ counted : Bool, (if counted then b.size else 0) ≤ b.size := by
      intro counted
      cases counted
      · exact Nat.zero_le _
      · exact Nat.le_refl _
    by_cases howner : b.ownerDid = owner
    · -- the renewed row may count, so the room it took was its owner's
      rw [← hbowner, howner] at hroom
      refine Nat.le_trans (Nat.add_le_add hx (Nat.add_le_add (hcount _) hy)) ?_
      omega
    · have hnot : ((if renews keep quotaBytes now db b then
          { b with retainUntil := max b.retainUntil keep.retainUntil } else b).ownerDid ==
          owner) = false := by
        rw [hchanged]
        exact beq_eq_false_iff_ne.mpr howner
      have hquota := h owner
      rw [hnot, Bool.false_and, if_neg Bool.false_ne_true]
      omega
  · have hle : retainedBytes owner t (Mediator.renewed keep quotaBytes now db) ≤
        retainedBytes owner now db.blobs := retainedBytes_map_le (fun b _ => hsizes b) ?_
    · exact Nat.le_trans hle (h owner)
    intro b hb hcounted
    by_cases hrenews : renews keep quotaBytes now db b = true
    · rw [if_pos hrenews] at hcounted
      have hnow : now < b.retainUntil := by
        rw [← not_le]
        exact fun hretain => hlapsed ⟨b, hb, hrenews, hretain⟩
      simp only [Bool.and_eq_true, decide_eq_true_eq] at hcounted ⊢
      exact ⟨hcounted.1, hnow⟩
    · rw [if_neg hrenews] at hcounted
      exact hold b hcounted

end

/-! ## What a call moves -/

/-- The blobs are where they were, each with what tells it apart, its size and its
retention. -/
structure Unmoved (db db' : Db) : Prop where
  blobs : ∃ change : Blob → Blob, db'.blobs = db.blobs.map change ∧ ∀ b,
    (change b).id = b.id ∧ (change b).ownerDid = b.ownerDid ∧ (change b).hash = b.hash ∧
      (change b).size = b.size ∧ (change b).retainUntil = b.retainUntil
  endedBlobs : db'.endedBlobs = db.endedBlobs
  accounts : db'.accounts = db.accounts
  replicas : db'.replicas = db.replicas

/-- What a call does to the blobs. -/
inductive Moved (call : StoreCall) (db : Db) (answer : StoreAnswer) (db' : Db) : Prop where
  | ended (hended : Ended db db') (hnone : answer.handed = [])
  | unmoved (hunmoved : Unmoved db db') (hnone : answer.handed = [])
  | kept (keep : BlobKeep) (quotaBytes : Nat) (now : Millis) (db1 : Db)
      (hcall : call = .keepBlob keep quotaBytes now) (hmade : Made keep quotaBytes now db db1)
      (hafter : db' = { db1 with blobs := renewed keep quotaBytes now db1 })
      (hnone : answer.handed = [])
  | dropped (which : Blob → Bool) (kept : List JsString)
      (hblobs : db'.blobs = delete which db.blobs)
      (hended : (kept ++ db'.endedBlobs).Perm db.endedBlobs)
      (hfound : answer.handed.Perm ((db.blobs.filter which).map Blob.id ++ kept))
      (haccounts : db'.accounts = db.accounts) (hreplicas : db'.replicas = db.replicas)

section
variable {db db' : Db}

theorem unmoved_same (hblobs : db'.blobs = db.blobs) (hended : db'.endedBlobs = db.endedBlobs)
    (haccounts : db'.accounts = db.accounts) (hreplicas : db'.replicas = db.replicas) :
    Unmoved db db' where
  blobs := ⟨id, by rw [hblobs, List.map_id], fun _ => ⟨rfl, rfl, rfl, rfl, rfl⟩⟩
  endedBlobs := hended
  accounts := haccounts
  replicas := hreplicas

theorem Unmoved.joined (h : Unmoved db db') (policy : ExecutionPolicy) (replica : Did)
    (e : Execution) : Unmoved db (joined policy replica e db') := by
  unfold Mediator.joined
  split
  · exact ⟨h.blobs, h.endedBlobs, h.accounts, h.replicas⟩
  · exact h

theorem registering_unmoved {id : JsString} {r : ExecutionRegistration} {now : Millis}
    {outcome : RegisterExecutionOutcome} (h : Registering id r now db db' outcome) :
    Unmoved db db' := by
  cases h with
  | unknown => exact unmoved_same rfl rfl rfl rfl
  | full => exact unmoved_same rfl rfl rfl rfl
  | found e he => exact (unmoved_same rfl rfl rfl rfl).joined r.policy r.replicaDid e
  | made account db1 hclash hdb1 =>
      have hmade : Unmoved db db1 := by
        rw [hdb1]
        exact unmoved_same rfl rfl rfl rfl
      exact hmade.joined r.policy r.replicaDid (newExecution id account r now)

/-- One row at most is of an owner and a hash, and it is the row found. -/
theorem toList_blobOf {blobs : List Blob} (hone : (blobs.map fun b => (b.ownerDid, b.hash)).Nodup)
    (owner : Did) (hash : JsString) :
    (blobs.find? fun b => b.ownerDid == owner && b.hash == hash).toList =
      blobs.filter fun b => b.ownerDid == owner && b.hash == hash := by
  induction blobs with
  | nil => rfl
  | cons b blobs ih =>
      obtain ⟨hnot, hrest⟩ := List.nodup_cons.mp hone
      rw [List.find?_cons, List.filter_cons]
      split
      · next hb =>
          rw [if_pos hb]
          have hnone : blobs.filter (fun b => b.ownerDid == owner && b.hash == hash) = [] := by
            rw [List.filter_eq_nil_iff]
            intro c hc hcb
            refine hnot (List.mem_map.mpr ⟨c, hc, ?_⟩)
            rw [Bool.and_eq_true, beq_iff_eq, beq_iff_eq] at hb hcb
            show (c.ownerDid, c.hash) = (b.ownerDid, b.hash)
            rw [hb.1, hb.2, hcb.1, hcb.2]
          rw [hnone]
          rfl
      · next hb =>
          rw [if_neg (by rw [hb]; exact Bool.false_ne_true)]
          exact ih hrest

/-- A batch that moves no blob and hands none out. -/
theorem moved_answering {α : Type} {answer : α → StoreAnswer} {batch : Batch α} {call : StoreCall}
    (hbatch : ∀ a t, batch ⟨db, false⟩ = .ok (a, t) → Moved call db (answer a) t.db) :
    Moved call db (answering answer batch db).1 (answering answer batch db).2 := by
  rcases attempt_cases batch db with hfail | ⟨a, t, ht, hok, _⟩
  · rw [answering, hfail]
    exact .unmoved (unmoved_same rfl rfl rfl rfl) rfl
  · rw [answering, hok]
    exact hbatch a t ht

theorem moved_serve (options : Options) (call : StoreCall)
    (hone : (db.blobs.map fun b => (b.ownerDid, b.hash)).Nodup) :
    Moved call db (call.serve options db).1 (call.serve options db).2 := by
  cases call with
  | mediation call => exact .ended (ended_after options call db) rfl
  | registerExecution id r now =>
      refine moved_answering fun a t ht => ?_
      exact .unmoved (registering_unmoved (registerExecution_ok ht)) rfl
  | purgeExecutions now =>
      refine moved_answering fun a t ht => ?_
      rw [purgeExecutions_ok ht]
      exact .unmoved (unmoved_same rfl rfl rfl rfl) rfl
  | keepBlob keep quotaBytes now =>
      refine moved_answering fun a t ht => ?_
      obtain ⟨db1, hmade, hafter⟩ := keepBlob_ok ht
      exact .kept keep quotaBytes now db1 rfl hmade hafter rfl
  | dropBlob owner hash =>
      refine moved_answering fun a t ht => ?_
      obtain ⟨hfound, hafter⟩ := dropBlob_ok ht
      rw [hafter]
      refine .dropped _ [] rfl (List.Perm.refl _) ?_ rfl rfl
      rw [List.append_nil, hfound, ← toList_blobOf hone, blobOf]
      show ((Option.map Blob.id _).toList).Perm _
      rw [Option.toList_map]
  | grantUpload token id expiresAt =>
      refine moved_answering fun a t ht => ?_
      obtain ⟨_, s, hs, ht⟩ := bind_ok.mp ht
      obtain ⟨hs, _⟩ := write_ok hs
      obtain ⟨uploads, _, hs⟩ := bind_eq_ok.mp hs
      rw [(pure_ok ht).2, ← Except.ok.inj hs]
      exact .unmoved (unmoved_same rfl rfl rfl rfl) rfl
  | claimUpload token now =>
      refine moved_answering fun a t ht => ?_
      replace ht := select_bind_ok.mp ht
      obtain ⟨s, hs, ht⟩ := modify_bind_ok ht
      rw [(pure_ok ht).2, hs]
      exact .unmoved (unmoved_same rfl rfl rfl rfl) rfl
  | markUploaded id now =>
      refine moved_answering fun a t ht => ?_
      rw [modify_ok ht]
      refine .unmoved ⟨⟨_, rfl, fun b => ?_⟩, rfl, rfl, rfl⟩ rfl
      split <;> exact ⟨rfl, rfl, rfl, rfl, rfl⟩
  | purgeBlobs now =>
      refine moved_answering fun a t ht => ?_
      obtain ⟨hfound, hblobs, hended, haccounts, hreplicas⟩ := purgeBlobs_ok ht
      refine .dropped _ db.endedBlobs hblobs ?_ ?_ haccounts hreplicas
      · rw [hended, List.append_nil]
      · rw [hfound]
        exact List.Perm.refl _

end

section
variable {quotaBytes : Nat} {times : List Millis} {drawn handed : List JsString} {db db' : Db}
  {call : StoreCall} {answer : StoreAnswer}

theorem Unmoved.map {β : Type} (h : Unmoved db db') {f : Blob → β}
    (hf : ∀ b c : Blob, c.id = b.id ∧ c.ownerDid = b.ownerDid ∧ c.hash = b.hash ∧ c.size = b.size ∧
      c.retainUntil = b.retainUntil → f c = f b) : db'.blobs.map f = db.blobs.map f := by
  obtain ⟨change, hblobs, hchange⟩ := h.blobs
  rw [hblobs, List.map_map]
  exact List.map_congr_left fun b _ => hf b (change b) (hchange b)

/-- A call leaves every ID accounted for, and the blobs of an owner it removed have ended. -/
theorem Accounted.moved (h : Accounted drawn handed db) (hnew : ∀ id ∈ call.blobId, id ∉ drawn)
    (hm : Moved call db answer db') :
    Accounted (drawn ++ call.blobId.toList) (handed ++ answer.handed) db' ∧
      (∀ id ∈ accounted db handed, id ∈ accounted db' (handed ++ answer.handed)) ∧
      ∀ b ∈ db.blobs, holdsBlobs db' b.ownerDid = false → b.id ∈ db'.endedBlobs := by
  have hgrow : ∀ {handed' : List JsString}, Accounted drawn handed' db' →
      Accounted (drawn ++ call.blobId.toList) handed' db' := fun ha =>
    ⟨ha.once, fun id hid => List.mem_append_left _ (ha.drawn id hid), ha.one, ha.owners⟩
  have hstill : db'.accounts = db.accounts → db'.replicas = db.replicas →
      ∀ b ∈ db.blobs, holdsBlobs db' b.ownerDid = false → b.id ∈ db'.endedBlobs := by
    intro haccounts hreplicas b hb hno
    rw [holdsBlobs_congr haccounts hreplicas, h.owners b hb] at hno
    cases hno
  cases hm with
  | ended hended hnone =>
      obtain ⟨hperm, ha⟩ := h.ended hended
      rw [hnone, List.append_nil]
      refine ⟨hgrow ha, fun id hid => hperm.mem_iff.mpr hid, fun b hb hno => ?_⟩
      obtain ⟨which, hends, hholds⟩ := hended
      rw [hends.endedBlobs]
      refine List.mem_append_right _ (List.mem_map_of_mem (List.mem_filter.mpr ⟨hb, ?_⟩))
      by_contra hnot
      rw [hholds b hb (Bool.eq_false_iff.mpr hnot) (h.owners b hb)] at hno
      cases hno
  | unmoved hunmoved hnone =>
      have hids : db'.blobs.map Blob.id = db.blobs.map Blob.id := hunmoved.map fun _ _ hc => hc.1
      have hall : accounted db' handed = accounted db handed := by
        rw [accounted, accounted, hids, hunmoved.endedBlobs]
      rw [hnone, List.append_nil]
      refine ⟨hgrow ⟨?_, ?_, ?_, ?_⟩, ?_, hstill hunmoved.accounts hunmoved.replicas⟩
      · rw [hall]
        exact h.once
      · rw [hall]
        exact h.drawn
      · rw [hunmoved.map fun b c hc => by rw [hc.2.1, hc.2.2.1]]
        exact h.one
      · obtain ⟨change, hblobs, hchange⟩ := hunmoved.blobs
        intro b hb
        rw [hblobs] at hb
        obtain ⟨b0, hb0, rfl⟩ := List.mem_map.mp hb
        rw [(hchange b0).2.1, holdsBlobs_congr hunmoved.accounts hunmoved.replicas]
        exact h.owners b0 hb0
      · intro id hid
        rwa [hall]
  | kept keep quota now db1 hcall hmade hafter hnone =>
      subst hcall
      have hsame : db1.accounts = db.accounts ∧ db1.replicas = db.replicas := by
        cases hmade with
        | none => exact ⟨rfl, rfl⟩
        | row _ _ => exact ⟨rfl, rfl⟩
      obtain ⟨ha, hkeeps⟩ := h.kept (hnew keep.id rfl) hmade
      rw [← hafter] at ha hkeeps
      rw [hnone, List.append_nil]
      refine ⟨ha, hkeeps, hstill ?_ ?_⟩
      · rw [hafter]
        exact hsame.1
      · rw [hafter]
        exact hsame.2
  | dropped which kept hblobs hended hfound haccounts hreplicas =>
      obtain ⟨hperm, ha⟩ := h.dropped hblobs hended hfound haccounts hreplicas
      exact ⟨hgrow ha, fun id hid => hperm.mem_iff.mpr hid, hstill haccounts hreplicas⟩

/-- A call leaves what is retained within the quota, by a clock that has not gone back. -/
theorem Within.moved (h : Within quotaBytes times db)
    (hone : (db.blobs.map fun b => (b.ownerDid, b.hash)).Nodup)
    (hquota : call.Quota quotaBytes) (hlater : ∀ now ∈ call.keepTime, ∀ s ∈ times, s ≤ now)
    (hm : Moved call db answer db') : Within quotaBytes (times ++ call.keepTime.toList) db' := by
  have hmore : ∀ {db'}, Within quotaBytes times db' →
      Within quotaBytes (times ++ call.keepTime.toList) db' :=
    fun hw owner t ht => hw owner t fun s hs => ht s (List.mem_append_left _ hs)
  cases hm with
  | ended hended hnone =>
      obtain ⟨which, hends, _⟩ := hended
      exact hmore (h.fewer which hends.blobs)
  | unmoved hunmoved hnone =>
      refine hmore fun owner t ht => Nat.le_trans ?_ (h owner t ht)
      obtain ⟨change, hblobs, hchange⟩ := hunmoved.blobs
      show retainedBytes owner t db'.blobs ≤ retainedBytes owner t db.blobs
      rw [hblobs]
      refine retainedBytes_map_le (fun b _ => (hchange b).2.2.2.1) fun b _ hcounted => ?_
      rwa [(hchange b).2.1, (hchange b).2.2.2.2] at hcounted
  | kept keep quota now db1 hcall hmade hafter hnone =>
      subst hcall
      have hquota : quota = quotaBytes := hquota
      subst hquota
      intro owner t ht
      have hnow : now ≤ t := ht now (List.mem_append_right _ (List.mem_singleton_self _))
      rw [hafter]
      refine Within.renewed hnow (hmade.one hone) fun o => ?_
      exact hmade.usage_le (h o now (hlater now rfl))
  | dropped which kept hblobs _ _ _ _ => exact hmore (h.fewer which hblobs)

end

/-! ## Runs -/

/-- The blobs handed out over a run. -/
def handedOut (answers : List (StoreCall × StoreAnswer)) : List JsString :=
  answers.flatMap fun p => p.2.handed

section
variable {drawn handed : List JsString} {times : List Millis} {db : Db}

/-- Over a run every ID stays accounted for. -/
theorem accounted_serveAll (options : Options) {calls : List StoreCall}
    (h : Accounted drawn handed db)
    (hids : (drawn ++ calls.filterMap StoreCall.blobId).Nodup) :
    let run := serveAll options calls db
    Accounted (drawn ++ calls.filterMap StoreCall.blobId) (handed ++ handedOut run.1) run.2 ∧
      ∀ id ∈ accounted db handed, id ∈ accounted run.2 (handed ++ handedOut run.1) := by
  induction calls generalizing drawn handed db with
  | nil =>
      intro run
      have hout : handedOut run.1 = [] := rfl
      rw [hout, List.filterMap_nil, List.append_nil, List.append_nil]
      exact ⟨h, fun _ hid => hid⟩
  | cons call calls ih =>
      rw [filterMap_cons_toList, ← List.append_assoc] at hids ⊢
      have hnew : ∀ id ∈ call.blobId, id ∉ drawn := by
        intro id hid hdrawn
        have hdisjoint := (List.nodup_append.mp (List.nodup_append.mp hids).1).2.2
        exact hdisjoint id hdrawn id (Option.mem_toList.mpr hid) rfl
      obtain ⟨hone, hkeeps, _⟩ := h.moved hnew (moved_serve options call h.one)
      obtain ⟨hrest, hkept⟩ := ih hone hids
      have hout : handed ++ handedOut (serveAll options (call :: calls) db).1 =
          handed ++ (call.serve options db).1.handed ++
            handedOut (serveAll options calls (call.serve options db).2).1 :=
        (List.append_assoc _ _ _).symm
      intro run
      rw [hout]
      exact ⟨hrest, fun id hid => hkept id (hkeeps id hid)⟩

/-- Over a run by a clock that does not go back, what is retained stays within the quota. -/
theorem within_serveAll (options : Options) {quotaBytes : Nat} {calls : List StoreCall}
    (h : Accounted drawn handed db) (hw : Within quotaBytes times db)
    (hids : (drawn ++ calls.filterMap StoreCall.blobId).Nodup)
    (hquota : ∀ call ∈ calls, call.Quota quotaBytes)
    (hclock : (times ++ calls.filterMap StoreCall.keepTime).Pairwise (· ≤ ·)) :
    Within quotaBytes (times ++ calls.filterMap StoreCall.keepTime)
      (serveAll options calls db).2 := by
  induction calls generalizing drawn handed times db with
  | nil =>
      rw [List.filterMap_nil, List.append_nil]
      exact hw
  | cons call calls ih =>
      rw [filterMap_cons_toList, ← List.append_assoc] at hids hclock ⊢
      have hnew : ∀ id ∈ call.blobId, id ∉ drawn := by
        intro id hid hdrawn
        have hdisjoint := (List.nodup_append.mp (List.nodup_append.mp hids).1).2.2
        exact hdisjoint id hdrawn id (Option.mem_toList.mpr hid) rfl
      have hlater : ∀ now ∈ call.keepTime, ∀ s ∈ times, s ≤ now := by
        intro now hnow s hs
        have hpairs := (List.pairwise_append.mp (List.pairwise_append.mp hclock).1).2.2
        exact hpairs s hs now (Option.mem_toList.mpr hnow)
      have hmoved := moved_serve options call h.one
      exact ih (h.moved hnew hmoved).1
        (hw.moved h.one (hquota call List.mem_cons_self) hlater hmoved) hids
        (fun c hc => hquota c (List.mem_cons_of_mem _ hc)) hclock

end

/-- Keeping a blob shortens no blob's retention, whatever the database. -/
theorem keepBlob_retains (options : Options) (keep : BlobKeep) (quotaBytes : Nat) (now : Millis)
    {db : Db} {b : Blob} (hb : b ∈ db.blobs) :
    ∃ b' ∈ ((StoreCall.keepBlob keep quotaBytes now).serve options db).2.blobs,
      b'.id = b.id ∧ b'.ownerDid = b.ownerDid ∧ b.retainUntil ≤ b'.retainUntil := by
  rw [StoreCall.serve]
  rcases attempt_cases (keepBlob keep quotaBytes now) db with hfail | ⟨a, t, ht, hok, _⟩
  · rw [answering, hfail]
    exact ⟨b, hb, rfl, rfl, le_refl _⟩
  · rw [answering, hok]
    obtain ⟨db1, hmade, hafter⟩ := keepBlob_ok ht
    have hb1 : b ∈ db1.blobs := by
      cases hmade with
      | none => exact hb
      | row _ _ => exact List.mem_append_left _ hb
    show ∃ b' ∈ t.db.blobs, _
    rw [hafter]
    refine ⟨_, List.mem_map_of_mem hb1, ?_⟩
    split
    · exact ⟨rfl, rfl, le_max_left _ _⟩
    · exact ⟨rfl, rfl, le_refl _⟩

/-- After any calls, blobs under IDs drawn once: the IDs of the rows, of the blobs that ended
and of those handed out are all different, and the ID of every row there ever was is among
them; every row's owner is one that may hold blobs, and a call that leaves an owner unable to
has ended all its blobs; the blobs of one owner that are retained at a time no reading of the
clock was later than come to the quota at most, where those readings did not go back; and
keeping a blob shortens no retention. -/
theorem blobs_accounted (options : Options) (calls : List StoreCall)
    (hids : (calls.filterMap StoreCall.blobId).Nodup) :
    let run := serveAll options calls Db.empty
    let everywhere := run.2.blobs.map Blob.id ++ run.2.endedBlobs ++ handedOut run.1
    everywhere.Nodup ∧
    (∀ before after, calls = before ++ after →
      ∀ b ∈ (serveAll options before Db.empty).2.blobs, b.id ∈ everywhere) ∧
    (∀ b ∈ run.2.blobs, holdsBlobs run.2 b.ownerDid = true) ∧
    (∀ before call after, calls = before ++ call :: after →
      let found := (serveAll options before Db.empty).2
      let left := (call.serve options found).2
      ∀ b ∈ found.blobs, holdsBlobs left b.ownerDid = false → b.id ∈ left.endedBlobs) ∧
    (∀ quotaBytes, (∀ call ∈ calls, call.Quota quotaBytes) →
      (calls.filterMap StoreCall.keepTime).Pairwise (· ≤ ·) →
      ∀ owner now, (∀ s ∈ calls.filterMap StoreCall.keepTime, s ≤ now) →
        blobUsage run.2 owner now ≤ quotaBytes) ∧
    (∀ db keep quotaBytes now, ∀ b ∈ db.blobs,
      ∃ b' ∈ ((StoreCall.keepBlob keep quotaBytes now).serve options db).2.blobs,
        b'.id = b.id ∧ b.retainUntil ≤ b'.retainUntil) := by
  intro run everywhere
  have hrun : ∀ before : List StoreCall, (before.filterMap StoreCall.blobId).Nodup →
      Accounted (before.filterMap StoreCall.blobId)
        (handedOut (serveAll options before Db.empty).1) (serveAll options before Db.empty).2 := by
    intro before hnodup
    have hids : ([] ++ before.filterMap StoreCall.blobId).Nodup := by
      rw [List.nil_append]
      exact hnodup
    have h := (accounted_serveAll options accounted_empty hids).1
    rw [List.nil_append, List.nil_append] at h
    exact h
  have hwhole := hrun calls hids
  refine ⟨hwhole.once, ?_, hwhole.owners, ?_, ?_, ?_⟩
  · intro before after hcalls b hb
    rw [hcalls, List.filterMap_append] at hids
    obtain ⟨_, hkept⟩ := accounted_serveAll options (hrun before (List.nodup_append.mp hids).1) hids
    have hid := hkept b.id (List.mem_append_left _
      (List.mem_append_left _ (List.mem_map_of_mem hb)))
    have hsplit := serveAll_append options before after Db.empty
    rw [← hcalls] at hsplit
    show b.id ∈ accounted run.2 (handedOut run.1)
    rw [show run = _ from hsplit, handedOut, List.flatMap_append]
    exact hid
  · intro before call after hcalls found left b hb hno
    rw [hcalls, List.filterMap_append, filterMap_cons_toList, ← List.append_assoc] at hids
    have hbefore := hrun before (List.nodup_append.mp (List.nodup_append.mp hids).1).1
    have hnew : ∀ id ∈ call.blobId, id ∉ before.filterMap StoreCall.blobId := by
      intro id hid hdrawn
      have hdisjoint := (List.nodup_append.mp (List.nodup_append.mp hids).1).2.2
      exact hdisjoint id hdrawn id (Option.mem_toList.mpr hid) rfl
    exact (hbefore.moved hnew (moved_serve options call hbefore.one)).2.2 b hb hno
  · intro quotaBytes hquota hclock owner now hnow
    have hempty : Within quotaBytes [] Db.empty := fun _ _ _ => Nat.zero_le _
    have hw := within_serveAll options accounted_empty hempty
      (by rw [List.nil_append]; exact hids) hquota (by rw [List.nil_append]; exact hclock)
    exact hw owner now (by rw [List.nil_append]; exact hnow)
  · intro db keep quotaBytes now b hb
    obtain ⟨b', hb', hid, _, hretain⟩ := keepBlob_retains options keep quotaBytes now hb
    exact ⟨b', hb', hid, hretain⟩

/-- Two blobs of an account, one dropped, one ended with the account and then purged. -/
theorem blobs_accounted_example :
    let options : Options := ⟨1000, 10⟩
    let owner : Did := lit "did:web:a"
    let calls : List StoreCall :=
      [.mediation (.grantMediation owner 0),
        .keepBlob ⟨lit "1", owner, lit "h", 4, 10⟩ 10 0,
        .keepBlob ⟨lit "2", owner, lit "k", 6, 10⟩ 10 1,
        .keepBlob ⟨lit "3", owner, lit "l", 1, 10⟩ 10 2,
        .dropBlob owner (lit "h"),
        .mediation (.revokeMediation owner),
        .purgeBlobs 3]
    let run := serveAll options calls Db.empty
    run.2.blobs = [] ∧ handedOut run.1 = [lit "1", lit "2"] ∧
      (run.2.blobs.map Blob.id ++ run.2.endedBlobs ++ handedOut run.1).Nodup := by
  intro options owner calls run
  have hids : (calls.filterMap StoreCall.blobId).Nodup := by decide
  exact ⟨by decide +kernel, by decide +kernel, (blobs_accounted options calls hids).1⟩

/-- A row that lapsed and is not purged yet stands beside one made in its room, and the rows
of one owner come to more than the quota. And where the clock goes back, the lapsed row is
retained again and renews for nothing: what is retained comes to more than the quota. -/
theorem blobs_over_quota :
    let options : Options := ⟨1000, 10⟩
    let owner : Did := lit "did:web:a"
    let calls : List StoreCall :=
      [.mediation (.grantMediation owner 0),
        .keepBlob ⟨lit "1", owner, lit "h", 10, 5⟩ 10 0,
        .keepBlob ⟨lit "2", owner, lit "k", 10, 20⟩ 10 6]
    let back : List StoreCall := [.keepBlob ⟨lit "3", owner, lit "h", 10, 30⟩ 10 4]
    let db := (serveAll options calls Db.empty).2
    let db' := (serveAll options (calls ++ back) Db.empty).2
    ¬ ((db.blobs.filter (·.ownerDid == owner)).map Blob.size).sum ≤ 10 ∧
      ¬ blobUsage db' owner 4 ≤ 10 := by
  decide +kernel

end Estoc.Mediator
