import Estoc.Mediator.Frame
import Mathlib.Algebra.Order.BigOperators.Group.List

/-!
# What an account retains

A package is let in by counting what the account holds that has not lapsed by the clock's
reading, and adding it up in bytes. Nothing else puts a package in, and what is counted only
falls as time goes by and as packages are acknowledged, purged or ended; so both limits hold
at every time that is not before a reading the counting was made at. They need not hold at
an earlier one: a package that had lapsed when another was let in had not lapsed before.

A package that is not let in is told why, and `fanOut_refuses` gives each answer its
condition.
-/

set_option linter.unusedSectionVars false

namespace Estoc.Mediator

open Json (lit)
open Utf16 (JsString encodeUtf8)
open Sql (delete update)

/-- The clock's reading that a package is counted at. -/
def StoreCall.fanOutTime : StoreCall → Option Millis
  | .mediation (.fanOut _ _ now _ _ _) => some now
  | _ => none

/-- The bytes an account may hold, the same in every call. -/
def StoreCall.RetainedLimit (maxRetainedBytes : Nat) : StoreCall → Prop
  | .mediation (.fanOut _ _ _ _ _ bounds) => bounds.maxRetainedBytes = maxRetainedBytes
  | _ => True

def Package.size (p : Package) : Nat := (encodeUtf8 p.packed).length

def retainedMailBytes (db : Db) (account : Did) (t : Millis) : Nat :=
  ((retained db account t).map Package.size).sum

/-- Every row has its bytes counted, and no account is over a limit at a time that is not
before any of `times`. -/
structure Bounded (options : Options) (maxRetainedBytes : Nat) (times : List Millis) (db : Db) :
    Prop where
  counted : ∀ p ∈ db.packages, p.bytes = p.size
  within : ∀ account t, (∀ s ∈ times, s ≤ t) → (retained db account t).length ≤ options.maxMessages ∧
    retainedMailBytes db account t ≤ maxRetainedBytes

section
variable {options : Options} {maxRetainedBytes : Nat} {times : List Millis} {db db' : Db}

theorem retained_sublist (h : db'.packages.Sublist db.packages) (account : Did) (t : Millis) :
    (retained db' account t).Sublist (retained db account t) := h.filter _

theorem retained_later {s t : Millis} (h : s ≤ t) (account : Did) :
    (retained db account t).Sublist (retained db account s) := by
  refine List.monotone_filter_right db.packages fun p hp => ?_
  rw [Bool.and_eq_true, decide_eq_true_iff] at hp ⊢
  exact ⟨hp.1, lt_of_le_of_lt h hp.2⟩

theorem sum_size_le {packages packages' : List Package} (h : packages'.Sublist packages) :
    (packages'.map Package.size).sum ≤ (packages.map Package.size).sum :=
  (h.map _).sum_le_sum fun _ _ => Nat.zero_le _

theorem Bounded.sublist (h : Bounded options maxRetainedBytes times db)
    (hsub : db'.packages.Sublist db.packages) : Bounded options maxRetainedBytes times db' where
  counted p hp := h.counted p (hsub.subset hp)
  within account t ht := by
    obtain ⟨hcount, hbytes⟩ := h.within account t ht
    have hretained := retained_sublist hsub account t
    exact ⟨hretained.length_le.trans hcount, (sum_size_le hretained).trans hbytes⟩

theorem Bounded.grow (h : Bounded options maxRetainedBytes times db) (more : List Millis) :
    Bounded options maxRetainedBytes (more ++ times) db where
  counted := h.counted
  within account t ht := h.within account t fun s hs => ht s (List.mem_append_right _ hs)

theorem sum_bytes (h : Bounded options maxRetainedBytes times db) (account : Did) (t : Millis) :
    ((retained db account t).map Package.bytes).sum = retainedMailBytes db account t := by
  rw [retainedMailBytes]
  exact congrArg List.sum (List.map_congr_left fun p hp => h.counted p (List.mem_of_mem_filter hp))

theorem retained_snoc {p : Package} (h : db'.packages = db.packages ++ [p]) (account : Did)
    (t : Millis) : retained db' account t = retained db account t ++
      if p.accountDid == account && t < p.expiresAt then [p] else [] := by
  rw [retained, h, List.filter_append, List.filter_cons, List.filter_nil]
  rfl

/-- The account that a package is let in for had room for it. -/
theorem Bounded.taken {id : JsString} {deliveryId : Nat → JsString} {now : Millis} {next : Did}
    {packed : JsString} {bounds : PackageBounds} (h : Bounded options maxRetainedBytes times db)
    (hlimit : bounds.maxRetainedBytes = maxRetainedBytes)
    (htaken : Taken options id deliveryId now next packed bounds db db') :
    Bounded options maxRetainedBytes (now :: times) db' := by
  have hpackages := htaken.packages
  cases hlist : takers options db now next (encodeUtf8 packed).length bounds with
  | nil =>
      rw [hlist, List.map_nil, List.append_nil] at hpackages
      exact (h.sublist (hpackages ▸ List.Sublist.refl _)).grow [now]
  | cons account rest =>
      have hone := htaken.one
      rw [hlist, List.length_cons] at hone
      obtain rfl : rest = [] := List.eq_nil_of_length_eq_zero (by omega)
      rw [hlist, List.map_singleton] at hpackages
      have hroom : account ∈ takers options db now next (encodeUtf8 packed).length bounds :=
        hlist ▸ List.mem_singleton_self _
      simp only [takers, List.mem_filter, Bool.and_eq_true, decide_eq_true_iff, sum_bytes h] at hroom
      obtain ⟨-, hmessages, hbytes⟩ := hroom
      rw [hlimit] at hbytes
      refine ⟨fun p hp => ?_, fun other t ht => ?_⟩
      · rw [hpackages, List.mem_append, List.mem_singleton] at hp
        rcases hp with hp | rfl
        · exact h.counted p hp
        · rfl
      obtain ⟨hnow, ht⟩ := List.forall_mem_cons.mp ht
      rw [retainedMailBytes, retained_snoc hpackages, List.length_append, List.map_append, List.sum_append]
      split
      · next hnew =>
          -- at a later time the account holds no more than what was counted
          obtain rfl : account = other := beq_iff_eq.mp (Bool.and_eq_true_iff.mp hnew).1
          have hlater : (retained db account t).Sublist (retained db account now) :=
            retained_later hnow account
          have hcount := hlater.length_le
          have hsum := sum_size_le hlater
          rw [retainedMailBytes] at hbytes
          rw [List.length_singleton, List.map_singleton, List.sum_singleton, Package.size]
          dsimp only
          omega
      · rw [List.length_nil, List.map_nil, List.sum_nil]
        exact h.within other t ht

/-! ## One call -/

theorem landed_sublist {α : Type} {batch : Batch α} {db : Db}
    (h : ∀ a t, batch ⟨db, false⟩ = .ok (a, t) → t.db.packages.Sublist db.packages) :
    (landed batch db).packages.Sublist db.packages :=
  landed_keeps (P := fun db' => db'.packages.Sublist db.packages) (List.Sublist.refl _)
    fun a t ht _ => h a t ht

/-- Only a fan-out puts a package in. -/
theorem packages_after (options : Options) (call : Call) (db : Db) :
    (call.after options db).packages.Sublist db.packages ∨
      ∃ id deliveryId now next packed bounds, call = .fanOut id deliveryId now next packed bounds := by
  cases call with
  | grantMediation did now =>
      refine .inl (landed_sublist fun held t ht => ?_)
      rw [grantMediation_ok ht]
      split <;> exact List.Sublist.refl _
  | revokeMediation did =>
      refine .inl (landed_sublist fun _ t ht => ?_)
      obtain ⟨s, hs, hafter⟩ := revokeMediation_ok ht
      rw [hafter]
      exact hs.packages ▸ List.Sublist.refl _
  | addRecipient owner recipient now =>
      refine .inl (landed_sublist fun _ t ht => ?_)
      rw [addRecipient_ok ht]
      split <;> exact List.Sublist.refl _
  | removeRecipient owner recipient =>
      refine .inl (landed_sublist fun _ t ht => ?_)
      rw [removeRecipient_ok ht]
  | registerReplicaAccount account long mediator create now registration =>
      refine .inl (landed_sublist fun _ t ht => ?_)
      rw [registerReplicaAccount_ok ht]
      split <;> exact List.Sublist.refl _
  | deleteReplicaAccount account mediator =>
      refine .inl (landed_sublist fun _ t ht => ?_)
      rw [(deleteReplicaAccount_ok ht).packages]
      exact List.filter_sublist
  | addReplica account mediator replica long grant maxReplicas now =>
      refine .inl (landed_sublist fun _ t ht => ?_)
      rw [addReplica_ok ht]
      split <;> exact List.Sublist.refl _
  | removeReplica account mediator replica now =>
      refine .inl (landed_sublist fun _ t ht => ?_)
      rw [(removeReplica_ok ht).packages]
      exact List.filter_sublist
  | addSharedRecipient account mediator recipient long maxRecipients now =>
      refine .inl (landed_sublist fun _ t ht => ?_)
      rw [addSharedRecipient_ok ht]
      split <;> exact List.Sublist.refl _
  | removeSharedRecipient account mediator recipient =>
      refine .inl (landed_sublist fun _ t ht => ?_)
      rw [removeSharedRecipient_ok ht]
  | fanOut id deliveryId now next packed bounds => exact .inr ⟨_, _, _, _, _, _, rfl⟩
  | acknowledgeDeliveries replica ids =>
      refine .inl (landed_sublist fun _ t ht => ?_)
      rw [acknowledgeDeliveries_ok ht]
      exact List.filter_sublist
  | purgeExpired now =>
      refine .inl (landed_sublist fun _ t ht => ?_)
      rw [purgeExpired_ok ht]
      exact List.filter_sublist

theorem bounded_serve (h : Bounded options maxRetainedBytes times db) (call : StoreCall)
    (hlimit : call.RetainedLimit maxRetainedBytes) :
    Bounded options maxRetainedBytes (call.fanOutTime.toList ++ times) (call.serve options db).2 := by
  rcases serve_cases options call db with ⟨made, rfl, hafter⟩ | hsame
  · rw [hafter]
    rcases packages_after options made db with hsub | ⟨id, deliveryId, now, next, packed, bounds, rfl⟩
    · exact (h.sublist hsub).grow _
    · refine landed_keeps (h.grow [now]) fun outcome t ht _ => ?_
      rcases fanOut_ok ht with ⟨-, hsame⟩ | ⟨htaken, -⟩
      · rw [hsame]
        exact h.grow [now]
      · exact h.taken hlimit htaken
  · have hpackages : (call.serve options db).2.packages = db.packages := congrArg (·.2.2) hsame
    exact (h.sublist (hpackages ▸ List.Sublist.refl _)).grow _

theorem bounded_empty : Bounded options maxRetainedBytes [] Db.empty where
  counted p hp := by cases hp
  within account t _ := ⟨Nat.zero_le _, Nat.zero_le _⟩

theorem bounded_serveAll (calls : List StoreCall) (h : Bounded options maxRetainedBytes times db)
    (hlimits : ∀ call ∈ calls, call.RetainedLimit maxRetainedBytes) :
    Bounded options maxRetainedBytes ((calls.filterMap StoreCall.fanOutTime).reverse ++ times)
      (serveAll options calls db).2 := by
  induction calls generalizing times db with
  | nil => exact h
  | cons call calls ih =>
      obtain ⟨hlimit, hlimits⟩ := List.forall_mem_cons.mp hlimits
      have hrest := ih (bounded_serve h call hlimit) hlimits
      rw [filterMap_cons_toList, List.reverse_append, List.append_assoc, serveAll]
      cases htime : call.fanOutTime with
      | none => simpa [htime] using hrest
      | some now => simpa [htime] using hrest

end

/-! ## What is turned away -/

/-- What an answer other than `stored` says of the call. -/
def Refuses (options : Options) (db : Db) (now : Millis) (next : Did) (packed : JsString)
    (bounds : PackageBounds) : FanOutOutcome → Prop
  | .stored _ => False
  | .lapsed => lapses options now bounds ≤ now
  | .unknown => accountsOf db next = []
  | .full => accountsOf db next ≠ [] ∧ ∀ account ∈ accountsOf db next,
      options.maxMessages < (retained db account now).length + 1 ∨
        bounds.maxRetainedBytes < retainedMailBytes db account now + (encodeUtf8 packed).length

theorem lapses_of_lapsed {options : Options} {id : JsString} {deliveryId : Nat → JsString}
    {now : Millis} {next : Did} {packed : JsString} {bounds : PackageBounds} {t t' : Sql.Tx Db}
    (h : fanOut options id deliveryId now next packed bounds t = .ok (.lapsed, t')) :
    lapses options now bounds ≤ now := by
  unfold fanOut at h
  split at h
  · assumption
  · obtain ⟨_, s1, _, h⟩ := Sql.bind_ok.mp h
    obtain ⟨_, s2, _, h⟩ := Sql.bind_ok.mp h
    replace h := Sql.select_bind_ok.mp h
    replace h := Sql.select_bind_ok.mp h
    replace h := Sql.select_bind_ok.mp h
    obtain ⟨houtcome, -⟩ := Sql.pure_ok h
    split at houtcome
    · cases houtcome
    · split at houtcome <;> cases houtcome

/-- A package that a batch did not store is refused for one of three reasons, and nothing is
put in. -/
theorem fanOut_refuses {options : Options} {maxRetainedBytes : Nat} {times : List Millis} {db : Db}
    (h : Bounded options maxRetainedBytes times db) {id : JsString} {deliveryId : Nat → JsString}
    {now : Millis} {next : Did} {packed : JsString} {bounds : PackageBounds} {t : Sql.Tx Db}
    {outcome : FanOutOutcome}
    (hrun : fanOut options id deliveryId now next packed bounds ⟨db, false⟩ = .ok (outcome, t)) :
    (∃ deliveries, outcome = .stored deliveries) ∨
      Refuses options db now next packed bounds outcome ∧ t.db.packages = db.packages := by
  rcases fanOut_ok hrun with ⟨rfl, hsame⟩ | ⟨htaken, rfl⟩
  · exact .inr ⟨lapses_of_lapsed hrun, by rw [hsame]⟩
  by_cases hthere : hasPackage t.db id = true
  · exact .inl ⟨_, if_pos hthere⟩
  have hnone : takers options db now next (encodeUtf8 packed).length bounds = [] := by
    by_contra hne
    obtain ⟨account, haccount⟩ := List.exists_mem_of_ne_nil _ hne
    refine hthere ?_
    rw [hasPackage, htaken.packages, List.any_append]
    exact Bool.or_eq_true_iff.mpr (.inr (List.any_eq_true.mpr
      ⟨_, List.mem_map_of_mem haccount, beq_self_eq_true id⟩))
  have haccounts : accountsOf t.db next = accountsOf db next := by
    rw [htaken.rest]
    rfl
  refine .inr ⟨?_, by rw [htaken.packages, hnone, List.map_nil, List.append_nil]⟩
  rw [if_neg hthere, haccounts]
  split
  · next hempty => exact hempty
  · next hne =>
      refine ⟨hne, fun account haccount => ?_⟩
      have hfull := List.filter_eq_nil_iff.mp hnone account haccount
      rw [Bool.and_eq_true, decide_eq_true_iff, decide_eq_true_iff, sum_bytes h] at hfull
      omega

/-- After any calls under fixed limits no account holds more packages or bytes than it may at
any time from the last counting on, and a package is stored unless it has lapsed, has no
account, or would put an account over a limit. -/
theorem account_retention (options : Options) (maxRetainedBytes : Nat) (calls : List StoreCall)
    (hfixed : ∀ call ∈ calls, call.RetainedLimit maxRetainedBytes) :
    let db := (serveAll options calls .empty).2
    (∀ account t, (∀ s ∈ calls.filterMap StoreCall.fanOutTime, s ≤ t) →
      (retained db account t).length ≤ options.maxMessages ∧
        retainedMailBytes db account t ≤ maxRetainedBytes) ∧
    ∀ id deliveryId now next packed deadline outcome db',
      Sql.transaction foreignKeys
          (fanOut options id deliveryId now next packed ⟨deadline, maxRetainedBytes⟩) db =
        .ok (outcome, db') →
      (∃ deliveries, outcome = .stored deliveries) ∨
        Refuses options db now next packed ⟨deadline, maxRetainedBytes⟩ outcome ∧
          db'.packages = db.packages := by
  have hempty : Bounded options maxRetainedBytes [] Db.empty := bounded_empty
  have h := bounded_serveAll calls hempty hfixed
  refine ⟨fun account t ht => h.within account t fun s hs => ht s ?_, ?_⟩
  · simpa using hs
  · intro id deliveryId now next packed deadline outcome db' hrun
    obtain ⟨⟨t, ht, rfl⟩, -⟩ := Sql.transaction_ok hrun
    exact fanOut_refuses h ht

/-- An account and its one replica. -/
def oneReplica : List StoreCall :=
  [.mediation (.registerReplicaAccount (lit "a") (lit "A") (lit "m") true 1 (lit "r")),
    .mediation (.addReplica (lit "a") (lit "m") (lit "r1") (lit "R1") [] 2 2)]

/-- A package whose deadline has passed is turned away from an account that holds nothing. -/
theorem lapsed_with_room :
    let options : Options := ⟨1000, 10⟩
    let db := (serveAll options oneReplica .empty).2
    let bounds : PackageBounds := ⟨some 3, 100⟩
    accountsOf db (lit "r1") = [lit "a"] ∧
      ¬ options.maxMessages < (retained db (lit "a") 4).length + 1 ∧
      ¬ bounds.maxRetainedBytes < retainedMailBytes db (lit "a") 4 + (encodeUtf8 (lit "mail")).length ∧
      Sql.transaction foreignKeys
          (fanOut options (lit "p") (fun i => [i.toUInt16]) 4 (lit "r1") (lit "mail") bounds) db =
        .ok (.lapsed, db) := by
  decide +kernel

/-- One package of four bytes fills an account of one message. -/
theorem account_retention_example :
    let options : Options := ⟨1000, 1⟩
    let calls := oneReplica ++
      [.mediation (.fanOut (lit "p") (fun i => [i.toUInt16]) 4 (lit "r1") (lit "mail") ⟨none, 4⟩)]
    let db := (serveAll options calls .empty).2
    (retained db (lit "a") 5).length = 1 ∧ (retained db (lit "a") 5).length ≤ options.maxMessages ∧
      retainedMailBytes db (lit "a") 5 ≤ 4 := by
  intro options calls db
  have hheld : (retained db (lit "a") 5).length = 1 := by decide +kernel
  have hfixed : ∀ call ∈ calls, call.RetainedLimit 4 := by
    intro call hcall
    simp only [calls, oneReplica, List.cons_append, List.nil_append, List.mem_cons,
      List.not_mem_nil, or_false] at hcall
    rcases hcall with rfl | rfl | rfl
    · exact trivial
    · exact trivial
    · exact rfl
  refine ⟨hheld, (account_retention options 4 calls hfixed).1 (lit "a") 5 fun s hs => ?_⟩
  simp only [calls, oneReplica, StoreCall.fanOutTime, List.cons_append, List.nil_append,
    List.filterMap_cons, List.filterMap_nil, List.mem_singleton] at hs
  rw [hs]
  decide

end Estoc.Mediator
