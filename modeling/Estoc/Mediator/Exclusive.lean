import Estoc.Mediator.Steps

/-!
# A DID is bound once

Ordinary mediation binds names as their holders wrote them, replica mediation binds
short forms beside the long forms they are cut from. No call binds a name in either
spelling while the other kind of mediation holds it in either, and no DID is in two rows
of the three replica tables. What makes this an invariant is that only three changes
are ever made to the bindings: some go, a name is added to the ordinary ones, or a DID
to the others.
-/

set_option linter.unusedSectionVars false

namespace Estoc.Mediator

open Utf16 (JsString)
open DidPeer (Spelled shortOf shortOf_of_not prefix4)
open Json (lit)
open Sql (mem_insertOrIgnore insertOrIgnore delete update Tx)

/-- The names bound under ordinary mediation, as accounts and as recipients. -/
def ordinary (db : Db) : List Did :=
  db.accounts.map Account.did ++ db.keylist.map Keylist.recipientDid

/-- The DIDs bound under replica mediation, as accounts, replicas and shared recipients:
each row's DID and its long form. -/
def bindings (db : Db) : List (Did × Did) :=
  db.replicaAccounts.map (fun a => (a.did, a.longForm)) ++
    db.replicas.map (fun r => (r.replicaDid, r.longForm)) ++
    db.recipients.map (fun r => (r.recipientDid, r.longForm))

/-- What holds of the bindings in every state. -/
structure Exclusive (db : Db) : Prop where
  once : ((bindings db).map Prod.fst).Nodup
  spelled : ∀ b ∈ bindings db, Spelled b.1 b.2
  apart : ∀ b ∈ bindings db, b.1 ∉ ordinary db ∧ b.2 ∉ ordinary db

/-! ## The conditions of the writes -/

theorem notOrdinary_eq {db : Db} {names : List Did} :
    notOrdinary db names = true ↔ ∀ name ∈ names, name ∉ ordinary db := by
  simp only [notOrdinary, Bool.and_eq_true, Bool.not_eq_true', List.any_eq_false,
    List.contains_iff_mem, ordinary, List.mem_append, List.mem_map, not_or, not_exists, not_and]
  refine ⟨fun ⟨ha, hk⟩ name hn => ⟨fun a hmem ha' => ?_, fun k hmem hk' => ?_⟩,
    fun h => ⟨fun a hmem hn => ?_, fun k hmem hn => ?_⟩⟩
  · exact ha a hmem (ha' ▸ hn)
  · exact hk k hmem (hk' ▸ hn)
  · exact (h _ hn).1 a hmem rfl
  · exact (h _ hn).2 k hmem rfl

/-- No row of the three tables is of any of the names. -/
theorem notReplicaMediation_eq {db : Db} {names : List Did} :
    notReplicaMediation db names = true ↔ ∀ b ∈ bindings db, b.1 ∉ names := by
  simp only [notReplicaMediation, notReplicaAccount, notReplica, notSharedRecipient,
    Bool.and_eq_true, Bool.not_eq_true', List.any_eq_false, List.contains_iff_mem, bindings,
    List.mem_append, List.mem_map]
  refine ⟨fun ⟨⟨ha, hr⟩, hs⟩ b hb => ?_, fun h => ⟨⟨fun a hm => ?_, fun r hm => ?_⟩, fun r hm => ?_⟩⟩
  · rcases hb with (⟨a, hm, rfl⟩ | ⟨r, hm, rfl⟩) | ⟨r, hm, rfl⟩
    · exact ha a hm
    · exact hr r hm
    · exact hs r hm
  · exact h _ (.inl (.inl ⟨a, hm, rfl⟩))
  · exact h _ (.inl (.inr ⟨r, hm, rfl⟩))
  · exact h _ (.inr ⟨r, hm, rfl⟩)

/-! ## The three changes -/

variable {db db' : Db}

/-- Bindings go. -/
theorem Exclusive.shrink (h : Exclusive db) (hordinary : ∀ name ∈ ordinary db', name ∈ ordinary db)
    (hbindings : (bindings db').Sublist (bindings db)) : Exclusive db' where
  once := (hbindings.map Prod.fst).nodup h.once
  spelled b hb := h.spelled b (hbindings.subset hb)
  apart b hb := by
    obtain ⟨hshort, hlong⟩ := h.apart b (hbindings.subset hb)
    exact ⟨fun hn => hshort (hordinary _ hn), fun hn => hlong (hordinary _ hn)⟩

/-- A name is bound under ordinary mediation. -/
theorem Exclusive.bindOrdinary (h : Exclusive db) {name : Did}
    (hfree : notReplicaMediation db (spellings name none) = true)
    (hordinary : ∀ n ∈ ordinary db', n ∈ ordinary db ∨ n = name)
    (hbindings : bindings db' = bindings db) : Exclusive db' where
  once := by
    rw [hbindings]
    exact h.once
  spelled := by
    rw [hbindings]
    exact h.spelled
  apart b hb := by
    rw [hbindings] at hb
    obtain ⟨hshort, hlong⟩ := h.apart b hb
    have hnone := notReplicaMediation_eq.mp hfree b hb
    simp only [spellings, Option.getD_none, List.mem_cons, List.not_mem_nil, or_false,
      not_or] at hnone
    refine ⟨fun hn => ?_, fun hn => ?_⟩
    · rcases hordinary _ hn with hn | hn
      · exact hshort hn
      · exact hnone.1 hn
    · rcases hordinary _ hn with hn | hn
      · exact hlong hn
      · exact hnone.2 (hn ▸ (h.spelled b hb).cut.symm)

/-- A DID is bound under replica mediation. -/
theorem Exclusive.bind (h : Exclusive db) {did long : Did} (hspelled : Spelled did long)
    (hfree : notOrdinary db (spellings did (some long)) = true)
    (hnew : did ∉ (bindings db).map Prod.fst) (hordinary : ordinary db' = ordinary db)
    (hbindings : (bindings db').Perm ((did, long) :: bindings db)) : Exclusive db' where
  once := by
    rw [(hbindings.map Prod.fst).nodup_iff]
    exact List.nodup_cons.mpr ⟨hnew, h.once⟩
  spelled b hb := by
    rcases List.mem_cons.mp (hbindings.subset hb) with rfl | hb
    · exact hspelled
    · exact h.spelled b hb
  apart b hb := by
    rw [hordinary]
    rcases List.mem_cons.mp (hbindings.subset hb) with rfl | hb
    · have hnone := notOrdinary_eq.mp hfree
      exact ⟨hnone did (by simp [spellings]), hnone long (by simp [spellings])⟩
    · exact h.apart b hb

theorem perm_accounts {a b c : List (Did × Did)} {x : Did × Did} :
    (a ++ [x] ++ b ++ c).Perm (x :: (a ++ b ++ c)) := by
  simp only [List.append_assoc, List.singleton_append]
  exact List.perm_middle

theorem perm_replicas {a b c : List (Did × Did)} {x : Did × Did} :
    (a ++ (b ++ [x]) ++ c).Perm (x :: (a ++ b ++ c)) := by
  have hassoc : a ++ (b ++ [x]) ++ c = (a ++ b) ++ x :: c := by simp
  rw [hassoc]
  exact List.perm_middle

theorem perm_recipients {a b c : List (Did × Did)} {x : Did × Did} :
    (a ++ b ++ (c ++ [x])).Perm (x :: (a ++ b ++ c)) := by
  rw [← List.append_assoc]
  exact List.perm_append_singleton x (a ++ b ++ c)

/-! ## One call -/

/-- What the callers of the store see to: under replica mediation a DID is handed over
in its short form, with the long form it is cut from. -/
def Call.Promised : Call → Prop
  | .registerReplicaAccount account long _ _ _ _ => Spelled account long
  | .addReplica _ _ replica long _ _ _ => Spelled replica long
  | .addSharedRecipient _ _ recipient long _ _ => Spelled recipient long
  | _ => True

theorem delete_map_sublist {ρ : Type} (which : ρ → Bool) (f : ρ → Did × Did) (table : List ρ) :
    ((delete which table).map f).Sublist (table.map f) := List.filter_sublist.map f

theorem exclusive_grantMediation (h : Exclusive db) (did : Did) (now : Millis) :
    Exclusive (landed (grantMediation did now) db) := by
  rcases landed_cases (grantMediation did now) db with heq | ⟨held, t, ht, hdb, -⟩
  · rw [heq]
    exact h
  have hafter := grantMediation_ok ht
  rw [hdb] at hafter
  rw [hafter]
  split
  · next hfree =>
      refine h.bindOrdinary hfree (fun n hn => ?_) rfl
      simp only [ordinary, List.mem_append, List.mem_map] at hn ⊢
      rcases hn with ⟨a, ha, rfl⟩ | hn
      · rcases mem_insertOrIgnore ha with ha | ⟨rfl, _⟩
        · exact .inl (.inl ⟨a, ha, rfl⟩)
        · exact .inr rfl
      · exact .inl (.inr hn)
  · exact h

theorem exclusive_addRecipient (h : Exclusive db) (owner recipient : Did) (now : Millis) :
    Exclusive (landed (addRecipient owner recipient now) db) := by
  rcases landed_cases (addRecipient owner recipient now) db with heq | ⟨result, t, ht, hdb, -⟩
  · rw [heq]
    exact h
  have hafter := addRecipient_ok ht
  rw [hdb] at hafter
  rw [hafter]
  split
  · next hfree =>
      refine h.bindOrdinary hfree (fun n hn => ?_) rfl
      simp only [ordinary, List.mem_append, List.mem_map] at hn ⊢
      rcases hn with hn | ⟨k, hk, rfl⟩
      · exact .inl (.inl hn)
      · rcases mem_insertOrIgnore hk with hk | ⟨rfl, _⟩
        · exact .inl (.inr ⟨k, hk, rfl⟩)
        · exact .inr rfl
  · exact h

theorem exclusive_revokeMediation (h : Exclusive db) (did : Did) :
    Exclusive (landed (revokeMediation did) db) := by
  rcases landed_cases (revokeMediation did) db with heq | ⟨_, t, ht, hdb, -⟩
  · rw [heq]
    exact h
  obtain ⟨s, hs, hafter⟩ := revokeMediation_ok ht
  rw [hdb] at hafter
  refine h.shrink (fun n hn => ?_) ?_
  · rw [hafter] at hn
    simp only [ordinary, hs.accounts, hs.keylist, List.mem_append, List.mem_map] at hn ⊢
    rcases hn with ⟨a, ha, rfl⟩ | ⟨k, hk, rfl⟩
    · exact .inl ⟨a, (Sql.mem_delete.mp ha).1, rfl⟩
    · exact .inr ⟨k, List.mem_of_mem_filter hk, rfl⟩
  · rw [hafter]
    simp only [bindings, hs.replicaAccounts, hs.replicas, hs.recipients]
    exact List.Sublist.refl _

theorem exclusive_removeRecipient (h : Exclusive db) (owner recipient : Did) :
    Exclusive (landed (removeRecipient owner recipient) db) := by
  rcases landed_cases (removeRecipient owner recipient) db with heq | ⟨there, t, ht, hdb, -⟩
  · rw [heq]
    exact h
  have hafter := removeRecipient_ok ht
  rw [hdb] at hafter
  rw [hafter]
  refine h.shrink (fun n hn => ?_) (List.Sublist.refl _)
  simp only [ordinary, List.mem_append, List.mem_map] at hn ⊢
  rcases hn with hn | ⟨k, hk, rfl⟩
  · exact .inl hn
  · exact .inr ⟨k, (Sql.mem_delete.mp hk).1, rfl⟩

theorem exclusive_registerReplicaAccount (h : Exclusive db) {account long : Did} (mediator : Did)
    (create : Bool) (now : Millis) (registration : JsString) (hspelled : Spelled account long) :
    Exclusive (landed
      (registerReplicaAccount account long mediator create now registration) db) := by
  rcases landed_cases (registerReplicaAccount account long mediator create now registration) db with
    heq | ⟨outcome, t, ht, hdb, -⟩
  · rw [heq]
    exact h
  have hafter := registerReplicaAccount_ok ht
  rw [hdb] at hafter
  rw [hafter]
  split
  · next hfree =>
      simp only [Bool.and_eq_true] at hfree
      obtain ⟨⟨⟨_, hordinary⟩, hreplica⟩, hshared⟩ := hfree
      by_cases hclash : (db.replicaAccounts.any fun b => account == b.did) = true
      · simp only [insertOrIgnore, if_pos hclash]
        exact h
      · simp only [insertOrIgnore, if_neg hclash]
        refine h.bind hspelled hordinary ?_ rfl ?_
        · -- the DID is no account's, and the conditions rule the other tables out
          have hmediation : notReplicaMediation db [account] = true := by
            simp only [notReplicaMediation, notReplicaAccount, notReplica, notSharedRecipient,
              Bool.and_eq_true, Bool.not_eq_true', List.any_eq_false, spellings] at hreplica hshared ⊢
            simp only [Bool.not_eq_true, List.any_eq_false, beq_iff_eq] at hclash
            refine ⟨⟨fun a ha hn => ?_, fun r hr hn => ?_⟩, fun r hr hn => ?_⟩
            · exact hclash a ha (by simpa [eq_comm] using hn)
            · exact hreplica r hr (by simp at hn; simp [hn])
            · exact hshared r hr (by simp at hn; simp [hn])
          intro hmem
          obtain ⟨b, hb, rfl⟩ := List.mem_map.mp hmem
          exact notReplicaMediation_eq.mp hmediation b hb (List.mem_singleton.mpr rfl)
        · simp only [bindings, List.map_append, List.map_singleton]
          exact perm_accounts
  · exact h

theorem exclusive_addReplica (h : Exclusive db) {replica long : Did} (account mediator : Did)
    (grant : JsString) (maxReplicas : Nat) (now : Millis) (hspelled : Spelled replica long) :
    Exclusive (landed (addReplica account mediator replica long grant maxReplicas now) db) := by
  rcases landed_cases (addReplica account mediator replica long grant maxReplicas now) db with
    heq | ⟨outcome, t, ht, hdb, -⟩
  · rw [heq]
    exact h
  have hafter := addReplica_ok ht
  rw [hdb] at hafter
  rw [hafter]
  split
  · next hfree =>
      simp only [Bool.and_eq_true] at hfree
      obtain ⟨⟨⟨⟨_, hordinary⟩, haccount⟩, hshared⟩, _⟩ := hfree
      let row : Replica := ⟨replica, account, enrolledIn db account + 1, long, grant,
        (now / 1000).floor, none⟩
      by_cases hclash : (db.replicas.any fun b => row.clash b) = true
      · simp only [insertOrIgnore]
        rw [if_pos hclash]
        exact h
      · simp only [insertOrIgnore]
        rw [if_neg hclash]
        refine h.bind hspelled hordinary ?_ rfl ?_
        · have hmediation : notReplicaMediation db [replica] = true := by
            simp only [notReplicaMediation, notReplicaAccount, notReplica, notSharedRecipient,
              Bool.and_eq_true, Bool.not_eq_true', List.any_eq_false] at haccount hshared ⊢
            simp only [List.any_eq_true, not_exists, not_and] at hclash
            refine ⟨⟨haccount, fun r hr hn => ?_⟩, fun r hr hn => ?_⟩
            · exact hclash r hr (by simp at hn; simp [row, Replica.clash, hn])
            · exact hshared r hr (by simp at hn; simp [hn])
          intro hmem
          obtain ⟨b, hb, rfl⟩ := List.mem_map.mp hmem
          exact notReplicaMediation_eq.mp hmediation b hb (List.mem_singleton.mpr rfl)
        · simp only [bindings, List.map_append, List.map_singleton]
          exact perm_replicas
  · exact h

theorem exclusive_addSharedRecipient (h : Exclusive db) {recipient long : Did}
    (account mediator : Did) (maxRecipients : Nat) (now : Millis)
    (hspelled : Spelled recipient long) :
    Exclusive (landed
      (addSharedRecipient account mediator recipient long maxRecipients now) db) := by
  rcases landed_cases (addSharedRecipient account mediator recipient long maxRecipients now) db with
    heq | ⟨outcome, t, ht, hdb, -⟩
  · rw [heq]
    exact h
  have hafter := addSharedRecipient_ok ht
  rw [hdb] at hafter
  rw [hafter]
  split
  · next hfree =>
      simp only [Bool.and_eq_true, unbound] at hfree
      obtain ⟨⟨_, ⟨hordinary, haccount⟩, hreplica⟩, _⟩ := hfree
      by_cases hclash : (db.recipients.any fun b => recipient == b.recipientDid) = true
      · simp only [insertOrIgnore, if_pos hclash]
        exact h
      · simp only [insertOrIgnore, if_neg hclash]
        refine h.bind hspelled hordinary ?_ rfl ?_
        · have hmediation : notReplicaMediation db [recipient] = true := by
            simp only [notReplicaMediation, notReplicaAccount, notReplica, notSharedRecipient,
              Bool.and_eq_true, Bool.not_eq_true', List.any_eq_false, spellings]
              at haccount hreplica ⊢
            simp only [Bool.not_eq_true, List.any_eq_false, beq_iff_eq] at hclash
            refine ⟨⟨fun a ha hn => ?_, fun r hr hn => ?_⟩, fun r hr hn => ?_⟩
            · exact haccount a ha (by simp at hn; simp [hn])
            · exact hreplica r hr (by simp at hn; simp [hn])
            · exact hclash r hr (by simpa [eq_comm] using hn)
          intro hmem
          obtain ⟨b, hb, rfl⟩ := List.mem_map.mp hmem
          exact notReplicaMediation_eq.mp hmediation b hb (List.mem_singleton.mpr rfl)
        · simp only [bindings, List.map_append, List.map_singleton]
          exact perm_recipients
  · exact h

theorem exclusive_deleteReplicaAccount (h : Exclusive db) (account mediator : Did) :
    Exclusive (landed (deleteReplicaAccount account mediator) db) := by
  rcases landed_cases (deleteReplicaAccount account mediator) db with heq | ⟨bound, t, ht, hdb, -⟩
  · rw [heq]
    exact h
  have hafter := deleteReplicaAccount_ok ht
  rw [hdb] at hafter
  refine h.shrink (fun n hn => ?_) ?_
  · simp only [ordinary, hafter.accounts, hafter.keylist] at hn
    exact hn
  · simp only [bindings, hafter.replicaAccounts, hafter.replicas, hafter.recipients]
    exact ((delete_map_sublist _ _ _).append (delete_map_sublist _ _ _)).append
      (delete_map_sublist _ _ _)

/-- A removed replica keeps its row. -/
theorem map_update_removed (which : Replica → Bool) (removedAt : Option Seconds)
    (table : List Replica) :
    (update which (fun r => { r with removedAt }) table).map (fun r => (r.replicaDid, r.longForm)) =
      table.map fun r => (r.replicaDid, r.longForm) := by
  rw [update, List.map_map]
  refine List.map_congr_left fun r _ => ?_
  simp only [Function.comp_apply]
  split <;> rfl

theorem exclusive_removeReplica (h : Exclusive db) (account mediator replica : Did) (now : Millis) :
    Exclusive (landed (removeReplica account mediator replica now) db) := by
  rcases landed_cases (removeReplica account mediator replica now) db with
    heq | ⟨outcome, t, ht, hdb, -⟩
  · rw [heq]
    exact h
  have hafter := removeReplica_ok ht
  rw [hdb] at hafter
  refine h.shrink (fun n hn => ?_) ?_
  · simp only [ordinary, hafter.accounts, hafter.keylist] at hn
    exact hn
  · simp only [bindings, hafter.replicaAccounts, hafter.replicas, hafter.recipients,
      map_update_removed]
    exact List.Sublist.refl _

theorem exclusive_removeSharedRecipient (h : Exclusive db) (account mediator recipient : Did) :
    Exclusive (landed (removeSharedRecipient account mediator recipient) db) := by
  rcases landed_cases (removeSharedRecipient account mediator recipient) db with
    heq | ⟨outcome, t, ht, hdb, -⟩
  · rw [heq]
    exact h
  have hafter := removeSharedRecipient_ok ht
  rw [hdb] at hafter
  rw [hafter]
  exact h.shrink (fun _ hn => hn) (List.Sublist.append (List.Sublist.refl _)
    (delete_map_sublist _ _ _))

/-- Mail binds no name. -/
theorem Exclusive.same (h : Exclusive db) (hordinary : ordinary db' = ordinary db)
    (hbindings : bindings db' = bindings db) : Exclusive db' :=
  h.shrink (fun _ hn => hordinary ▸ hn) (hbindings ▸ List.Sublist.refl _)

theorem exclusive_fanOut (h : Exclusive db) (options : Options) (id : JsString)
    (deliveryId : Nat → JsString) (now : Millis) (next : Did) (packed : JsString)
    (bounds : PackageBounds) :
    Exclusive (landed (fanOut options id deliveryId now next packed bounds) db) := by
  rcases landed_cases (fanOut options id deliveryId now next packed bounds) db with
    heq | ⟨outcome, t, ht, hdb, -⟩
  · rw [heq]
    exact h
  rw [← hdb]
  rcases fanOut_ok ht with ⟨_, hsame⟩ | ⟨htaken, _⟩
  · rw [hsame]
    exact h
  · rw [htaken.rest]
    exact h.same rfl rfl

theorem exclusive_acknowledgeDeliveries (h : Exclusive db) (replica : Did) (ids : List JsString) :
    Exclusive (landed (acknowledgeDeliveries replica ids) db) := by
  rcases landed_cases (acknowledgeDeliveries replica ids) db with heq | ⟨_, t, ht, hdb, -⟩
  · rw [heq]
    exact h
  rw [← hdb, acknowledgeDeliveries_ok ht]
  exact h.same rfl rfl

theorem exclusive_purgeExpired (h : Exclusive db) (now : Millis) :
    Exclusive (landed (purgeExpired now) db) := by
  rcases landed_cases (purgeExpired now) db with heq | ⟨_, t, ht, hdb, -⟩
  · rw [heq]
    exact h
  rw [← hdb, purgeExpired_ok ht]
  exact h.same rfl rfl

/-! ## Runs -/

theorem exclusive_after (options : Options) {call : Call} (h : Exclusive db)
    (hpromised : call.Promised) : Exclusive (call.after options db) := by
  cases call with
  | grantMediation did now => exact exclusive_grantMediation h did now
  | revokeMediation did => exact exclusive_revokeMediation h did
  | addRecipient owner recipient now => exact exclusive_addRecipient h owner recipient now
  | removeRecipient owner recipient => exact exclusive_removeRecipient h owner recipient
  | registerReplicaAccount account long mediator create now registration =>
      exact exclusive_registerReplicaAccount h mediator create now registration hpromised
  | deleteReplicaAccount account mediator => exact exclusive_deleteReplicaAccount h account mediator
  | addReplica account mediator replica long grant maxReplicas now =>
      exact exclusive_addReplica h account mediator grant maxReplicas now hpromised
  | removeReplica account mediator replica now =>
      exact exclusive_removeReplica h account mediator replica now
  | addSharedRecipient account mediator recipient long maxRecipients now =>
      exact exclusive_addSharedRecipient h account mediator maxRecipients now hpromised
  | removeSharedRecipient account mediator recipient =>
      exact exclusive_removeSharedRecipient h account mediator recipient
  | fanOut id deliveryId now next packed bounds =>
      exact exclusive_fanOut h options id deliveryId now next packed bounds
  | acknowledgeDeliveries replica ids => exact exclusive_acknowledgeDeliveries h replica ids
  | purgeExpired now => exact exclusive_purgeExpired h now

theorem exclusive_empty : Exclusive Db.empty where
  once := List.nodup_nil
  spelled _ hb := by cases hb
  apart _ hb := by cases hb

theorem exclusive_run (options : Options) {calls : List Call} (h : Exclusive db)
    (hpromised : ∀ call ∈ calls, call.Promised) : Exclusive (run options calls db) := by
  induction calls generalizing db with
  | nil => exact h
  | cons call calls ih =>
      obtain ⟨hcall, hcalls⟩ := List.forall_mem_cons.mp hpromised
      exact ih (exclusive_after options h hcall) hcalls

/-- A text is a spelling of the DID that a row binds. -/
def names (b : Did × Did) (text : Did) : Prop := text = b.1 ∨ text = b.2

/-- After any calls, no row under replica mediation binds a DID that either spelling of
is bound under ordinary mediation, and no two rows bind one DID in any of its spellings,
whatever tables and accounts they are of. -/
theorem mediation_exclusive (options : Options) (calls : List Call)
    (hpromised : ∀ call ∈ calls, call.Promised) :
    let db := run options calls .empty
    (∀ b ∈ bindings db, ∀ name ∈ ordinary db, ¬names b name) ∧
      (bindings db).Pairwise fun a b => ∀ text, names a text → ¬names b text := by
  have h := exclusive_run options exclusive_empty hpromised
  refine ⟨fun b hb name hn hnames => ?_, ?_⟩
  · obtain ⟨hshort, hlong⟩ := h.apart b hb
    rcases hnames with rfl | rfl
    · exact hshort hn
    · exact hlong hn
  · have hfirst := List.pairwise_map.mp (List.nodup_iff_pairwise_ne.mp h.once)
    refine hfirst.imp_of_mem fun {a b} ha hb hne text hta htb => ?_
    have hsa := h.spelled a ha
    have hsb := h.spelled b hb
    -- the spelling tells the short form from a long form, and a long form has one short form
    have hshort : shortOf text = a.1 := by
      rcases hta with rfl | rfl
      · exact shortOf_of_not hsa.short_form
      · exact hsa.cut
    have hshort' : shortOf text = b.1 := by
      rcases htb with rfl | rfl
      · exact shortOf_of_not hsb.short_form
      · exact hsb.cut
    exact hne (hshort.symm.trans hshort')

/-- A short form and a long form of it. -/
def exampleShort : Did := prefix4 ++ List.replicate 44 50
def exampleLong : Did := exampleShort ++ lit ":z" ++ List.replicate 6 51

theorem spelled_example : Spelled exampleShort exampleLong where
  short_form := by decide
  long_form := by decide
  cut := by decide

/-- The long form is first bound as an account's under ordinary mediation, which refuses
the DID to replica mediation until it is revoked. -/
theorem mediation_exclusive_example :
    let options : Options := ⟨1000, 10⟩
    let calls : List Call :=
      [.grantMediation exampleLong 0,
        .registerReplicaAccount exampleShort exampleLong (lit "did:web:m") true 1 (lit "r"),
        .revokeMediation exampleLong,
        .registerReplicaAccount exampleShort exampleLong (lit "did:web:m") true 2 (lit "r")]
    let db := run options calls .empty
    bindings db = [(exampleShort, exampleLong)] ∧
      (∀ b ∈ bindings db, ∀ name ∈ ordinary db, ¬names b name) ∧
      (bindings db).Pairwise fun a b => ∀ text, names a text → ¬names b text := by
  intro options calls db
  have hpromised : ∀ call ∈ calls, call.Promised := by
    simp [calls, Call.Promised, spelled_example]
  exact ⟨by decide, mediation_exclusive options calls hpromised⟩

end Estoc.Mediator
