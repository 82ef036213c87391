import Estoc.Mediator.Frame
import Mathlib.Data.List.Infix
import Mathlib.Data.List.Nodup

/-!
# The roster

An account's replicas are numbered in the order it enrolled them. A removed replica keeps
its row and its number, so the next number is one more than the rows there are, and an
account's rows are numbered from one without a gap. They go all at once, with the account.

A listing reads the roster a page at a time. Its first page fixes how far it reads; every
later one reads on from the last number it was given. What is enrolled in between is past
the end of the listing, and what is removed is in its place, so the pages are consecutive
pieces of the one roster the listing began on. Only an account deleted and registered again
counts from one again; its registration then has another name, and the listing is refused.
-/

set_option linter.unusedSectionVars false

namespace Estoc.Mediator

open Json (lit)
open Utf16 (JsString)
open Sql (select delete update insertOrIgnore)

structure RosterEntry where
  ordinal : Nat
  grant : JsString
  addedTime : Seconds
  removedTime : Option Seconds
deriving DecidableEq

structure RosterPage where
  registration : JsString
  size : Nat
  entries : List RosterEntry

def Replica.entry (r : Replica) : RosterEntry := ⟨r.ordinal, r.grantJws, r.registeredAt, r.removedAt⟩

def replicaRoster (accountDid mediator : Did) (after : Nat) (through : Option Nat) (limit : Nat) :
    Batch (Option RosterPage) := do
  let bound ← select fun db =>
    db.replicaAccounts.find? fun a => a.did == accountDid && a.mediator == mediator
  let count ← select fun db =>
    (db.replicas.filter fun r => ofAccount db accountDid mediator r.accountDid).length
  let page ← select fun db =>
    (Cmp.sortBy (fun a b => compare a.ordinal b.ordinal)
      (db.replicas.filter fun r => ofAccount db accountDid mediator r.accountDid &&
        after < r.ordinal && through.all (r.ordinal ≤ ·))).take limit
  pure (bound.map fun held => ⟨held.registration, count, page.map Replica.entry⟩)

/-! ## A listing -/

/-- Where a listing stands. -/
structure Cursor where
  account : Did
  registration : JsString
  through : Nat
  after : Nat

inductive ListReply where
  | invalidMessage
  | unknownAccount
  | replicas (entries : List RosterEntry) (nextCursor : Option Cursor)

/-- A cursor that can be read back, for the sender. -/
def Cursor.readable (sender : Did) (c : Cursor) : Bool :=
  c.account == sender && 1 ≤ c.after && c.after < c.through

/-- The answer to a page asked for, once the control is read. -/
def replicaList (maxMembershipPage : Nat) (sender mediator : Did) (cursor : Option Cursor)
    (limit : Nat) : Batch ListReply := do
  if !cursor.all (Cursor.readable sender) || limit < 1 || maxMembershipPage < limit then
    pure .invalidMessage
  else do
    let roster ← replicaRoster sender mediator ((cursor.map Cursor.after).getD 0)
      (cursor.map Cursor.through) limit
    match roster with
    | none => pure .unknownAccount
    | some roster =>
      let through := (cursor.map Cursor.through).getD roster.size
      if !cursor.all (·.registration == roster.registration) || roster.size < through then
        pure .invalidMessage
      else
        let last := (roster.entries.getLast?.map RosterEntry.ordinal).getD through
        pure (.replicas roster.entries
          (if last < through then some ⟨sender, roster.registration, through, last⟩ else none))

/-- What others ask of the store, and then a page. -/
structure Turn where
  calls : List StoreCall
  limit : Nat

inductive Listing where
  /-- Pages read so far, and the cursor for the next. -/
  | reading (cursor : Option Cursor) (seen : List RosterEntry)
  | refused (seen : List RosterEntry)
  | done (seen : List RosterEntry)

def Listing.seen : Listing → List RosterEntry
  | .reading _ seen => seen
  | .refused seen => seen
  | .done seen => seen

section
variable (options : Options) (maxMembershipPage : Nat) (account mediator : Did)

/-- What a listing makes of the answer to its next page. -/
def Listing.next (db : Db) (limit : Nat) : Listing → Listing
  | .reading cursor seen =>
    match Sql.transaction foreignKeys (replicaList maxMembershipPage account mediator cursor limit) db with
    | .ok (.replicas entries (some cursor), _) => .reading (some cursor) (seen ++ entries)
    | .ok (.replicas entries none, _) => .done (seen ++ entries)
    | _ => .refused seen
  | listing => listing

/-- A listing read on through some turns. -/
def Listing.through (listing : Listing) (db : Db) : List Turn → Listing
  | [] => listing
  | turn :: turns =>
    let db := (serveAll options turn.calls db).2
    Listing.through (listing.next maxMembershipPage account mediator db turn.limit) db turns

end

/-! ## The roster of an account -/

def rosterOf (db : Db) (account : Did) : List Replica := db.replicas.filter (·.accountDid == account)

/-- A replica but for its removal. -/
def Replica.enrolment (r : Replica) : Replica := { r with removedAt := none }

def enrolments (db : Db) (account : Did) : List Replica := (rosterOf db account).map Replica.enrolment

/-- The registration a call draws a name for. -/
def StoreCall.registration : StoreCall → Option JsString
  | .mediation (.registerReplicaAccount _ _ _ _ _ registration) => some registration
  | _ => none

/-- The row that binds an account to a mediator. -/
def boundAs (db : Db) (account mediator : Did) : Option ReplicaAccount :=
  db.replicaAccounts.find? fun a => a.did == account && a.mediator == mediator

/-- Each account is bound once, under a registration that was drawn, and its replicas are
numbered from one. -/
structure Enrolled (used : List JsString) (db : Db) : Prop where
  once : (db.replicaAccounts.map ReplicaAccount.did).Nodup
  drawn : ∀ row ∈ db.replicaAccounts, row.registration ∈ used
  numbered : ∀ account, (enrolments db account).map Replica.ordinal =
    List.range' 1 (enrolments db account).length

/-! ## One call -/

/-- What a call does to the accounts and their rosters. -/
inductive Enrolling (call : StoreCall) (db db' : Db) : Prop where
  | same (haccounts : db'.replicaAccounts = db.replicaAccounts)
      (hreplicas : ∀ account, enrolments db' account = enrolments db account)
  | registered (row : ReplicaAccount) (hname : call.registration = some row.registration)
      (hnew : row.did ∉ db.replicaAccounts.map ReplicaAccount.did)
      (haccounts : db'.replicaAccounts = db.replicaAccounts ++ [row])
      (hreplicas : db'.replicas = db.replicas)
  | added (r : Replica) (hordinal : r.ordinal = (enrolments db r.accountDid).length + 1)
      (haccounts : db'.replicaAccounts = db.replicaAccounts)
      (hreplicas : db'.replicas = db.replicas ++ [r])
  | deleted (account mediator : Did) (hcall : call = .mediation (.deleteReplicaAccount account mediator))
      (hbound : isBound db account mediator = true)
      (haccounts : db'.replicaAccounts =
        delete (fun a => a.did == account && a.mediator == mediator) db.replicaAccounts)
      (hreplicas : db'.replicas = delete (·.accountDid == account) db.replicas)

section
variable {options : Options} {call : StoreCall} {db db' : Db} {account mediator : Did}

theorem enrolling_same (haccounts : db'.replicaAccounts = db.replicaAccounts)
    (hreplicas : db'.replicas = db.replicas) : Enrolling call db db' :=
  .same haccounts fun account => by rw [enrolments, rosterOf, hreplicas]; rfl

theorem length_enrolments (db : Db) (account : Did) :
    (enrolments db account).length = enrolledIn db account := List.length_map _

theorem enrolling_registerReplicaAccount {did long mediator : Did} {create : Bool} {now : Millis}
    {registration : JsString} {t t' : Sql.Tx Db} {outcome : RegisterAccountOutcome}
    (h : registerReplicaAccount did long mediator create now registration t = .ok (outcome, t')) :
    Enrolling (.mediation (.registerReplicaAccount did long mediator create now registration))
      t.db t'.db := by
  have hafter := registerReplicaAccount_ok h
  split at hafter
  · by_cases hthere : t.db.replicaAccounts.any (fun b => did == b.did) = true
    · rw [insertOrIgnore, if_pos hthere] at hafter
      exact enrolling_same (by rw [hafter]) (by rw [hafter])
    · rw [insertOrIgnore, if_neg hthere] at hafter
      refine .registered ⟨did, mediator, long, now, registration⟩ rfl ?_ (by rw [hafter]) (by rw [hafter])
      intro hmem
      obtain ⟨b, hb, hdid⟩ := List.mem_map.mp hmem
      exact hthere (List.any_eq_true.mpr ⟨b, hb, beq_iff_eq.mpr hdid.symm⟩)
  · exact enrolling_same (by rw [hafter]) (by rw [hafter])

theorem enrolling_deleteReplicaAccount {did mediator : Did} {t t' : Sql.Tx Db} {bound : Bool}
    (h : deleteReplicaAccount did mediator t = .ok (bound, t')) :
    Enrolling (.mediation (.deleteReplicaAccount did mediator)) t.db t'.db := by
  have hafter := deleteReplicaAccount_ok h
  have hreplicas := hafter.replicas
  have haccounts := hafter.replicaAccounts
  simp only [ofAccount] at hreplicas
  cases hbound : isBound t.db did mediator with
  | true =>
      simp only [hbound, Bool.and_true] at hreplicas
      exact .deleted did mediator rfl hbound haccounts hreplicas
  | false =>
      -- no row binds the account to the mediator, so nothing goes
      simp only [hbound, Bool.and_false, delete, Bool.not_false, List.filter_true] at hreplicas
      refine enrolling_same (haccounts.trans (List.filter_eq_self.mpr fun a ha => ?_)) hreplicas
      rw [isBound, List.any_eq_false] at hbound
      rw [Bool.not_eq_true', Bool.eq_false_iff]
      exact hbound a ha

theorem enrolling_addReplica {did mediator replica long : Did} {grant : JsString} {maxReplicas : Nat}
    {now : Millis} {t t' : Sql.Tx Db} {outcome : AddReplicaOutcome}
    (h : addReplica did mediator replica long grant maxReplicas now t = .ok (outcome, t')) :
    Enrolling (.mediation (.addReplica did mediator replica long grant maxReplicas now)) t.db t'.db := by
  have hafter := addReplica_ok h
  split at hafter
  · rw [insertOrIgnore] at hafter
    split at hafter
    · exact enrolling_same (by rw [hafter]) (by rw [hafter])
    · exact .added ⟨replica, did, enrolledIn t.db did + 1, long, grant, (now / 1000).floor, none⟩
        (by rw [length_enrolments]) (by rw [hafter]) (by rw [hafter])
  · exact enrolling_same (by rw [hafter]) (by rw [hafter])

theorem enrolment_update (which : Replica → Bool) (removedAt : Option Seconds) (replicas : List Replica)
    (account : Did) :
    ((update which (fun r => { r with removedAt }) replicas).filter (·.accountDid == account)).map
        Replica.enrolment =
      (replicas.filter (·.accountDid == account)).map Replica.enrolment := by
  rw [update, List.filter_map, List.map_map]
  have haccount : ((fun r : Replica => r.accountDid == account) ∘
      fun row => if which row = true then { row with removedAt } else row) =
      fun r => r.accountDid == account := by
    funext r
    rw [Function.comp_apply]
    split <;> rfl
  rw [haccount]
  refine List.map_congr_left fun r _ => ?_
  rw [Function.comp_apply]
  split <;> rfl

theorem enrolling_removeReplica {did mediator replica : Did} {now : Millis} {t t' : Sql.Tx Db}
    {outcome : RemoveOutcome} (h : removeReplica did mediator replica now t = .ok (outcome, t')) :
    Enrolling (.mediation (.removeReplica did mediator replica now)) t.db t'.db := by
  have hafter := removeReplica_ok h
  refine .same hafter.replicaAccounts fun account => ?_
  rw [enrolments, rosterOf, hafter.replicas]
  exact enrolment_update _ _ _ _

theorem landed_enrolling {α : Type} {batch : Batch α}
    (h : ∀ a t, batch ⟨db, false⟩ = .ok (a, t) → Enrolling call db t.db) :
    Enrolling call db (landed batch db) :=
  landed_keeps (P := Enrolling call db) (enrolling_same rfl rfl) fun a t ht _ => h a t ht

theorem enrolling_after (options : Options) (call : Call) (db : Db) :
    Enrolling (.mediation call) db (call.after options db) := by
  cases call with
  | grantMediation did now =>
      refine landed_enrolling fun _ t ht => ?_
      have hafter := grantMediation_ok ht
      split at hafter <;> exact enrolling_same (by rw [hafter]) (by rw [hafter])
  | revokeMediation did =>
      refine landed_enrolling fun _ t ht => ?_
      obtain ⟨s, hs, hafter⟩ := revokeMediation_ok ht
      exact enrolling_same (by rw [hafter]; exact hs.replicaAccounts) (by rw [hafter]; exact hs.replicas)
  | addRecipient owner recipient now =>
      refine landed_enrolling fun _ t ht => ?_
      have hafter := addRecipient_ok ht
      split at hafter <;> exact enrolling_same (by rw [hafter]) (by rw [hafter])
  | removeRecipient owner recipient =>
      refine landed_enrolling fun _ t ht => ?_
      have hafter := removeRecipient_ok ht
      exact enrolling_same (by rw [hafter]) (by rw [hafter])
  | registerReplicaAccount did long mediator create now registration =>
      exact landed_enrolling fun _ t ht => enrolling_registerReplicaAccount ht
  | deleteReplicaAccount did mediator =>
      exact landed_enrolling fun _ t ht => enrolling_deleteReplicaAccount ht
  | addReplica did mediator replica long grant maxReplicas now =>
      exact landed_enrolling fun _ t ht => enrolling_addReplica ht
  | removeReplica did mediator replica now =>
      exact landed_enrolling fun _ t ht => enrolling_removeReplica ht
  | addSharedRecipient did mediator recipient long maxRecipients now =>
      refine landed_enrolling fun _ t ht => ?_
      have hafter := addSharedRecipient_ok ht
      split at hafter <;> exact enrolling_same (by rw [hafter]) (by rw [hafter])
  | removeSharedRecipient did mediator recipient =>
      refine landed_enrolling fun _ t ht => ?_
      have hafter := removeSharedRecipient_ok ht
      exact enrolling_same (by rw [hafter]) (by rw [hafter])
  | fanOut id deliveryId now next packed bounds =>
      refine landed_enrolling fun _ t ht => ?_
      rcases fanOut_ok ht with ⟨-, hsame⟩ | ⟨htaken, -⟩
      · exact enrolling_same (by rw [hsame]) (by rw [hsame])
      · exact enrolling_same (by rw [htaken.rest]) (by rw [htaken.rest])
  | acknowledgeDeliveries replica ids =>
      refine landed_enrolling fun _ t ht => ?_
      have hafter := acknowledgeDeliveries_ok ht
      exact enrolling_same (by rw [hafter]; rfl) (by rw [hafter]; rfl)
  | purgeExpired now =>
      refine landed_enrolling fun _ t ht => ?_
      have hafter := purgeExpired_ok ht
      exact enrolling_same (by rw [hafter]) (by rw [hafter])

theorem enrolling_serve (options : Options) (call : StoreCall) (db : Db) :
    Enrolling call db (call.serve options db).2 := by
  rcases serve_cases options call db with ⟨made, rfl, hafter⟩ | hsame
  · rw [hafter]
    exact enrolling_after options made db
  · exact enrolling_same (congrArg (·.1) hsame) (congrArg (·.2.1) hsame)

/-! ## What a call leaves of a roster -/

theorem enrolments_added {r : Replica} (h : db'.replicas = db.replicas ++ [r]) (account : Did) :
    enrolments db' account = enrolments db account ++
      if r.accountDid == account then [r.enrolment] else [] := by
  rw [enrolments, rosterOf, h, List.filter_append, List.map_append, List.filter_cons, List.filter_nil]
  split <;> rfl

theorem enrolments_deleted {gone : Did} (h : db'.replicas = delete (·.accountDid == gone) db.replicas)
    (account : Did) : enrolments db' account = if account = gone then [] else enrolments db account := by
  rw [enrolments, rosterOf, h, delete, List.filter_filter]
  split
  · next heq =>
      rw [heq, List.filter_eq_nil_iff.mpr, List.map_nil]
      intro r _
      simp
  · next hne =>
      rw [enrolments, rosterOf]
      congr 1
      refine List.filter_congr fun r _ => ?_
      by_cases hr : r.accountDid = account
      · simp [hr, hne]
      · simp [hr]

theorem mem_deleted {gone mediator' : Did} {rows : List ReplicaAccount} {row : ReplicaAccount} :
    row ∈ delete (fun a => a.did == gone && a.mediator == mediator') rows ↔
      row ∈ rows ∧ ¬ (row.did = gone ∧ row.mediator = mediator') := by
  rw [Sql.mem_delete, Bool.eq_false_iff, ne_eq, Bool.and_eq_true, beq_iff_eq, beq_iff_eq]

theorem Enrolled.step {used : List JsString} (h : Enrolled used db) (he : Enrolling call db db') :
    Enrolled (call.registration.toList ++ used) db' := by
  have hdrawn : ∀ row ∈ db.replicaAccounts, row.registration ∈ call.registration.toList ++ used :=
    fun row hrow => List.mem_append_right _ (h.drawn row hrow)
  cases he with
  | same haccounts hreplicas =>
      exact ⟨haccounts ▸ h.once, haccounts ▸ hdrawn, fun a => by rw [hreplicas]; exact h.numbered a⟩
  | registered row hname hnew haccounts hreplicas =>
      refine ⟨?_, fun row' hrow' => ?_, fun a => ?_⟩
      · rw [haccounts, List.map_append, List.map_singleton]
        exact List.nodup_append.mpr ⟨h.once, List.nodup_singleton _, fun a ha b hb => by
          rw [List.mem_singleton.mp hb]
          exact fun heq => hnew (heq ▸ ha)⟩
      · rw [haccounts, List.mem_append, List.mem_singleton] at hrow'
        rcases hrow' with hrow' | rfl
        · exact hdrawn row' hrow'
        · rw [hname]
          exact List.mem_cons_self
      · rw [enrolments, rosterOf, hreplicas]
        exact h.numbered a
  | added r hordinal haccounts hreplicas =>
      refine ⟨haccounts ▸ h.once, haccounts ▸ hdrawn, fun a => ?_⟩
      rw [enrolments_added hreplicas]
      split
      · next heq =>
          obtain rfl := beq_iff_eq.mp heq
          rw [List.map_append, h.numbered, List.length_append, List.length_singleton,
            List.range'_1_concat, List.map_singleton, Nat.add_comm 1, ← hordinal]
          rfl
      · rw [List.append_nil]
        exact h.numbered a
  | deleted gone mediator' hcall hbound haccounts hreplicas =>
      refine ⟨?_, fun row hrow => ?_, fun a => ?_⟩
      · rw [haccounts]
        exact (List.filter_sublist.map _).nodup h.once
      · rw [haccounts] at hrow
        exact hdrawn row (mem_deleted.mp hrow).1
      · rw [enrolments_deleted hreplicas]
        split
        · rfl
        · exact h.numbered a

/-- Rows are only added at the end, until the account goes. -/
theorem enrolments_begin (he : Enrolling call db db')
    (hkeep : ∀ mediator, call ≠ .mediation (.deleteReplicaAccount account mediator)) :
    enrolments db account <+: enrolments db' account := by
  cases he with
  | same haccounts hreplicas => exact hreplicas account ▸ List.prefix_refl _
  | registered row hname hnew haccounts hreplicas =>
      have hsame : enrolments db' account = enrolments db account := by
        simp only [enrolments, rosterOf, hreplicas]
      exact hsame ▸ List.prefix_refl _
  | added r hordinal haccounts hreplicas =>
      exact enrolments_added hreplicas account ▸ List.prefix_append _ _
  | deleted gone mediator' hcall hbound haccounts hreplicas =>
      have hne : account ≠ gone := fun heq => hkeep mediator' (heq ▸ hcall)
      have hsame : enrolments db' account = enrolments db account := by
        rw [enrolments_deleted hreplicas, if_neg hne]
      exact hsame ▸ List.prefix_refl _

theorem boundAs_eq_some {used : List JsString} (h : Enrolled used db) {held : ReplicaAccount} :
    boundAs db account mediator = some held ↔
      held ∈ db.replicaAccounts ∧ held.did = account ∧ held.mediator = mediator := by
  constructor
  · intro hfound
    have hheld := List.find?_some hfound
    rw [Bool.and_eq_true, beq_iff_eq, beq_iff_eq] at hheld
    exact ⟨List.mem_of_find?_eq_some hfound, hheld⟩
  · rintro ⟨hmem, hdid, hmediator⟩
    cases hfound : boundAs db account mediator with
    | none =>
        have hnot := List.find?_eq_none.mp hfound held hmem
        simp [hdid, hmediator] at hnot
    | some row =>
        have hrow := List.find?_some hfound
        rw [Bool.and_eq_true, beq_iff_eq, beq_iff_eq] at hrow
        rw [List.inj_on_of_nodup_map h.once (List.mem_of_find?_eq_some hfound) hmem (hrow.1.trans hdid.symm)]

/-- As long as a registration of the account is called `name`, its roster begins with `rows`. -/
def RosterStands (account mediator : Did) (name : JsString) (rows : List Replica) (db : Db) : Prop :=
  ∀ held, boundAs db account mediator = some held → held.registration = name →
    rows <+: enrolments db account

theorem RosterStands.step {used : List JsString} {name : JsString} {rows : List Replica}
    (hs : RosterStands account mediator name rows db) (h : Enrolled used db) (hname : name ∈ used)
    (hfresh : ∀ id ∈ call.registration, id ∉ used) (he : Enrolling call db db') :
    RosterStands account mediator name rows db' := by
  intro held hheld hcalled
  obtain ⟨hmem, hdid, hmediator⟩ := (boundAs_eq_some (h.step he)).mp hheld
  have hbefore : held ∈ db.replicaAccounts → rows <+: enrolments db account := fun hmem =>
    hs held ((boundAs_eq_some h).mpr ⟨hmem, hdid, hmediator⟩) hcalled
  cases he with
  | same haccounts hreplicas =>
      rw [hreplicas]
      exact hbefore (haccounts ▸ hmem)
  | registered row hregistration hnew haccounts hreplicas =>
      rw [haccounts, List.mem_append, List.mem_singleton] at hmem
      rcases hmem with hmem | rfl
      · have hsame : enrolments db' account = enrolments db account := by
          simp only [enrolments, rosterOf, hreplicas]
        exact hsame ▸ hbefore hmem
      · exact absurd (hcalled ▸ hname) (hfresh _ hregistration)
  | added r hordinal haccounts hreplicas =>
      rw [enrolments_added hreplicas]
      exact (hbefore (haccounts ▸ hmem)).trans (List.prefix_append _ _)
  | deleted gone mediator' hcall hbound haccounts hreplicas =>
      rw [haccounts] at hmem
      obtain ⟨hthere, hstays⟩ := mem_deleted.mp hmem
      have hne : account ≠ gone := by
        rintro rfl
        obtain ⟨row, hrow, heq⟩ := List.any_eq_true.mp hbound
        rw [Bool.and_eq_true, beq_iff_eq, beq_iff_eq] at heq
        rw [List.inj_on_of_nodup_map h.once hrow hthere (heq.1.trans hdid.symm)] at heq
        exact hstays heq
      rw [enrolments_deleted hreplicas, if_neg hne]
      exact hbefore hthere

/-- A binding stays until the account is deleted. -/
theorem boundAs_stays {used : List JsString} (h : Enrolled used db) (he : Enrolling call db db')
    {held : ReplicaAccount} (hheld : boundAs db account mediator = some held)
    (hkeep : call ≠ .mediation (.deleteReplicaAccount account mediator)) :
    boundAs db' account mediator = some held := by
  obtain ⟨hmem, hdid, hmediator⟩ := (boundAs_eq_some h).mp hheld
  refine (boundAs_eq_some (h.step he)).mpr ⟨?_, hdid, hmediator⟩
  cases he with
  | same haccounts hreplicas => exact haccounts ▸ hmem
  | registered row hname hnew haccounts hreplicas => exact haccounts ▸ List.mem_append_left _ hmem
  | added r hordinal haccounts hreplicas => exact haccounts ▸ hmem
  | deleted gone mediator' hcall hbound haccounts hreplicas =>
      rw [haccounts]
      refine mem_deleted.mpr ⟨hmem, ?_⟩
      rintro ⟨rfl, rfl⟩
      rw [hdid, hmediator] at hcall
      exact hkeep hcall

end

/-! ## A page -/

section
variable {α : Type} {number : α → Nat}

theorem filter_after {l : List α} {s : Nat} (h : l.map number = List.range' s l.length) (after : Nat) :
    l.filter (fun a => after < number a) = l.drop (after + 1 - s) := by
  induction l generalizing s with
  | nil => rw [List.filter_nil, List.drop_nil]
  | cons a l ih =>
      rw [List.map_cons, List.length_cons, List.range'_succ] at h
      obtain ⟨ha, hl⟩ := List.cons.inj h
      rw [List.filter_cons, ha, ih hl]
      by_cases hs : after < s
      · rw [if_pos (decide_eq_true hs), show after + 1 - s = 0 by omega,
          show after + 1 - (s + 1) = 0 by omega, List.drop_zero, List.drop_zero]
      · rw [if_neg (by simpa using hs), show after + 1 - s = (after + 1 - (s + 1)) + 1 by omega,
          List.drop_succ_cons]

theorem filter_through {l : List α} {s : Nat} (h : l.map number = List.range' s l.length) (through : Nat) :
    l.filter (fun a => number a ≤ through) = l.take (through + 1 - s) := by
  induction l generalizing s with
  | nil => rw [List.filter_nil, List.take_nil]
  | cons a l ih =>
      rw [List.map_cons, List.length_cons, List.range'_succ] at h
      obtain ⟨ha, hl⟩ := List.cons.inj h
      rw [List.filter_cons, ha, ih hl]
      by_cases hs : s ≤ through
      · rw [if_pos (decide_eq_true hs), show through + 1 - s = (through + 1 - (s + 1)) + 1 by omega,
          List.take_succ_cons]
      · rw [if_neg (by simpa using hs), show through + 1 - s = 0 by omega,
          show through + 1 - (s + 1) = 0 by omega, List.take_zero, List.take_zero]

/-- Of a numbered list, the entries behind `after` and up to `through` are a piece of it. -/
theorem filter_page {l : List α} (h : l.map number = List.range' 1 l.length) (after through : Nat) :
    l.filter (fun a => after < number a && number a ≤ through) = (l.take through).drop after := by
  have htake : (l.take through).map number = List.range' 1 (l.take through).length := by
    rw [List.map_take, h, List.length_take]
    rcases Nat.le_total through l.length with hle | hle
    · rw [List.take_range'_of_length_ge hle, Nat.min_eq_left hle]
    · rw [List.take_range'_of_length_le hle, Nat.min_eq_right hle]
  rw [← List.filter_filter, filter_through h, Nat.add_sub_cancel, filter_after htake, Nat.add_sub_cancel]

end

section
variable {options : Options} {maxPage limit : Nat} {account mediator : Did} {db : Db}
variable {used : List JsString} {held : ReplicaAccount}

/-- A page of a roster: what stands behind `after`, up to `through`. -/
def pageOf (rows : List Replica) (after : Nat) (through : Option Nat) (limit : Nat) : List Replica :=
  ((rows.take (through.getD rows.length)).drop after).take limit

theorem numbered_rosterOf (h : Enrolled used db) (account : Did) :
    (rosterOf db account).map Replica.ordinal = List.range' 1 (rosterOf db account).length := by
  have hnumbered := h.numbered account
  rw [enrolments, List.map_map, List.length_map] at hnumbered
  exact hnumbered

theorem mem_ofAccount (hheld : boundAs db account mediator = some held) (did : Did) :
    ofAccount db account mediator did = (did == account) := by
  have hnamed := List.find?_some hheld
  have hbound : isBound db account mediator = true :=
    List.any_eq_true.mpr ⟨held, List.mem_of_find?_eq_some hheld, hnamed⟩
  rw [ofAccount, hbound, Bool.and_true]

/-- The rows a page selects, in the order it asks for. -/
theorem sortBy_page (h : Enrolled used db) (hheld : boundAs db account mediator = some held)
    (after : Nat) (through : Option Nat) (limit : Nat) :
    (Cmp.sortBy (fun a b : Replica => compare a.ordinal b.ordinal)
      (db.replicas.filter fun r => ofAccount db account mediator r.accountDid &&
        after < r.ordinal && through.all (r.ordinal ≤ ·))).take limit =
      pageOf (rosterOf db account) after through limit := by
  have hnumbered := numbered_rosterOf h account
  have hfilter : db.replicas.filter (fun r => ofAccount db account mediator r.accountDid &&
      after < r.ordinal && through.all (r.ordinal ≤ ·)) =
      ((rosterOf db account).take (through.getD (rosterOf db account).length)).drop after := by
    rw [← filter_page hnumbered, rosterOf, List.filter_filter]
    refine List.filter_congr fun r hr => ?_
    rw [mem_ofAccount hheld, Bool.and_assoc, Bool.and_comm]
    by_cases haccount : (r.accountDid == account) = true
    · rw [haccount, Bool.and_true, Bool.and_true]
      congr 1
      cases through with
      | some t => rfl
      | none =>
          -- without a bound there is none beyond the last number
          have hmem : r.ordinal ∈ (rosterOf db account).map Replica.ordinal :=
            List.mem_map_of_mem (List.mem_filter.mpr ⟨hr, haccount⟩)
          rw [hnumbered, List.mem_range'_1] at hmem
          exact (decide_eq_true (show r.ordinal ≤ (rosterOf db account).length by omega)).symm
    · rw [Bool.not_eq_true] at haccount
      rw [haccount, Bool.and_false, Bool.and_false]
  have hsorted : (rosterOf db account).Pairwise fun a b => (compare a.ordinal b.ordinal).isLE := by
    have hle := List.pairwise_map.mp (hnumbered ▸ List.pairwise_lt_range')
    exact hle.imp fun hlt => Nat.isLE_compare.mpr (Nat.le_of_lt hlt)
  rw [hfilter, Cmp.sortBy_of_sorted]
  · rfl
  · exact hsorted.sublist ((List.drop_sublist _ _).trans (List.take_sublist _ _))

/-- A page asked for by a cursor that reads back. -/
theorem transaction_replicaList (hkeys : foreignKeys db = true) {cursor : Option Cursor}
    (hcursor : cursor.all (Cursor.readable account) = true) (hpos : 1 ≤ limit) (hmax : limit ≤ maxPage) :
    Sql.transaction foreignKeys (replicaList maxPage account mediator cursor limit) db =
      .ok (match boundAs db account mediator with
        | none => .unknownAccount
        | some held =>
          let size := (db.replicas.filter fun r => ofAccount db account mediator r.accountDid).length
          let through := (cursor.map Cursor.through).getD size
          let entries := ((Cmp.sortBy (fun a b : Replica => compare a.ordinal b.ordinal)
            (db.replicas.filter fun r => ofAccount db account mediator r.accountDid &&
              (cursor.map Cursor.after).getD 0 < r.ordinal &&
                (cursor.map Cursor.through).all (r.ordinal ≤ ·))).take limit).map Replica.entry
          if !cursor.all (·.registration == held.registration) || size < through then .invalidMessage
          else
            let last := (entries.getLast?.map RosterEntry.ordinal).getD through
            .replicas entries
              (if last < through then some ⟨account, held.registration, through, last⟩ else none), db) := by
  have hgood : (!cursor.all (Cursor.readable account) || decide (limit < 1) || decide (maxPage < limit)) =
      false := by
    simp [hcursor, Nat.not_lt.mpr hpos, Nat.not_lt.mpr hmax]
  have hbatch : ∀ reply, replicaList maxPage account mediator cursor limit ⟨db, false⟩ =
      .ok (reply, ⟨db, false⟩) →
      Sql.transaction foreignKeys (replicaList maxPage account mediator cursor limit) db = .ok (reply, db) := by
    intro reply hreply
    rw [Sql.transaction, hreply, Checked.ok_bind]
    simp only [Checked.refuse_of_not (show ¬ foreignKeys db = false by rw [hkeys]; decide),
      Checked.ok_bind]
    rfl
  refine hbatch _ ?_
  unfold replicaList
  rw [hgood, if_neg Bool.false_ne_true]
  unfold replicaRoster
  cases hheld : boundAs db account mediator with
  | none =>
      rw [boundAs] at hheld
      simp only [bind, StateT.bind, select, Except.bind, hheld, Option.map_none]
      rfl
  | some held =>
      rw [boundAs] at hheld
      have hpure {α : Type} (a : α) (tx : Sql.Tx Db) :
          (pure a : StateT (Sql.Tx Db) (Except Sql.Fault) α) tx = .ok (a, tx) := rfl
      simp only [bind, StateT.bind, select, Except.bind, hheld, Option.map_some, hpure]
      split <;> rfl

theorem next_reading (h : Enrolled used db) (hkeys : foreignKeys db = true)
    (hheld : boundAs db account mediator = some held) {cursor : Option Cursor}
    (hcursor : cursor.all (Cursor.readable account) = true) (hpos : 1 ≤ limit) (hmax : limit ≤ maxPage)
    (seen : List RosterEntry) :
    (Listing.reading cursor seen).next maxPage account mediator db limit =
      let rows := rosterOf db account
      let through := (cursor.map Cursor.through).getD rows.length
      let entries := (pageOf rows ((cursor.map Cursor.after).getD 0) (cursor.map Cursor.through) limit).map
        Replica.entry
      if !cursor.all (·.registration == held.registration) || rows.length < through then .refused seen
      else
        let last := (entries.getLast?.map RosterEntry.ordinal).getD through
        if last < through then
          .reading (some ⟨account, held.registration, through, last⟩) (seen ++ entries)
        else .done (seen ++ entries) := by
  have hsize : (db.replicas.filter fun r => ofAccount db account mediator r.accountDid) =
      rosterOf db account := List.filter_congr fun r _ => mem_ofAccount hheld _
  rw [Listing.next, transaction_replicaList hkeys hcursor hpos hmax, hheld]
  simp only [sortBy_page h hheld, hsize]
  by_cases hbad : (!cursor.all (·.registration == held.registration) ||
      decide ((rosterOf db account).length < (cursor.map Cursor.through).getD (rosterOf db account).length)) =
      true
  · rw [if_pos hbad, if_pos hbad]
  · rw [if_neg hbad, if_neg hbad]
    split
    · next hreply =>
        split at hreply
        · next hlast =>
            cases hreply
            rw [if_pos hlast]
        · cases hreply
    · next hreply =>
        split at hreply
        · cases hreply
        · next hlast =>
            cases hreply
            rw [if_neg hlast]
    · next hmore hlast =>
        split at hmore
        · exact (hmore _ _ _ rfl).elim
        · next hend =>
            rw [if_neg hend] at hlast
            exact (hlast _ _ rfl).elim

end

/-! ## The pages of one roster -/

/-- An entry but for its removal. -/
def RosterEntry.enrolment (e : RosterEntry) : RosterEntry := { e with removedTime := none }

/-- A listing of `rows` after `n` pages: what it has seen is their beginning, and all of them
where it is done. -/
def Read (account : Did) (name : JsString) (rows : List Replica) (n : Nat) : Listing → Prop
  | .reading none _ => False
  | .reading (some c) seen =>
    (c.account = account ∧ c.registration = name ∧ c.through = rows.length) ∧
      (1 ≤ c.after ∧ n ≤ c.after ∧ c.after < rows.length) ∧
      seen.map RosterEntry.enrolment = (rows.take c.after).map Replica.entry
  | .refused seen => ∃ k, seen.map RosterEntry.enrolment = (rows.take k).map Replica.entry
  | .done seen => seen.map RosterEntry.enrolment = rows.map Replica.entry

section
variable {rows : List Replica} {db : Db} {account mediator : Did} {name : JsString} {used : List JsString}
variable {after limit maxPage n : Nat} {seen : List RosterEntry} {held : ReplicaAccount}

theorem map_pageOf (hrows : rows <+: enrolments db account) :
    ((pageOf (rosterOf db account) after (some rows.length) limit).map Replica.entry).map
        RosterEntry.enrolment = ((rows.drop after).take limit).map Replica.entry := by
  have htake : ((rosterOf db account).take rows.length).map Replica.enrolment = rows := by
    rw [List.map_take]
    exact (List.prefix_iff_eq_take.mp hrows).symm
  have hpage : (pageOf (rosterOf db account) after (some rows.length) limit).map Replica.enrolment =
      (rows.drop after).take limit := by
    rw [pageOf, Option.getD_some, List.map_take, List.map_drop, htake]
  rw [← hpage, List.map_map, List.map_map]
  rfl

theorem numbered_begin (h : Enrolled used db) (hrows : rows <+: enrolments db account) :
    rows.map Replica.ordinal = List.range' 1 rows.length := by
  obtain ⟨rest, hrest⟩ := hrows
  have hnumbered := h.numbered account
  rw [← hrest, List.map_append, List.length_append, ← List.range'_append_1] at hnumbered
  exact (List.append_inj hnumbered (by simp)).1

/-- The last number of a page: as far as the page goes, or as the roster does. -/
theorem last_page (hnumbered : rows.map Replica.ordinal = List.range' 1 rows.length)
    (hafter : after ≤ rows.length) (hpos : 1 ≤ limit) {entries : List RosterEntry}
    (hentries : entries.map RosterEntry.enrolment = ((rows.drop after).take limit).map Replica.entry) :
    (entries.getLast?.map RosterEntry.ordinal).getD rows.length = min (after + limit) rows.length := by
  have hordinals : entries.map RosterEntry.ordinal =
      (List.range' (after + 1) (rows.length - after)).take limit := by
    have hmap := congrArg (List.map RosterEntry.ordinal) hentries
    rw [List.map_map, List.map_map] at hmap
    have hdrop : ((rows.drop after).take limit).map (RosterEntry.ordinal ∘ Replica.entry) =
        ((rows.map Replica.ordinal).drop after).take limit := by
      rw [← List.map_drop, ← List.map_take]
      rfl
    rw [hdrop, hnumbered, List.drop_range'] at hmap
    rw [show after + 1 = 1 + after * 1 by omega, ← hmap]
    rfl
  rw [← List.getLast?_map, hordinals]
  rcases Nat.lt_or_ge after rows.length with hlt | hge
  · rcases Nat.le_total limit (rows.length - after) with hle | hle
    · rw [List.take_range'_of_length_ge hle, List.getLast?_range', if_neg (by omega), Option.getD_some]
      omega
    · rw [List.take_range'_of_length_le hle, List.getLast?_range', if_neg (by omega), Option.getD_some]
      omega
  · rw [show rows.length - after = 0 by omega, List.range'_zero, List.take_nil, List.getLast?_nil,
      Option.getD_none]
    omega

/-- What a listing has seen after one page more. -/
theorem seen_page {entries : List RosterEntry}
    (hseen : seen.map RosterEntry.enrolment = (rows.take after).map Replica.entry)
    (hentries : entries.map RosterEntry.enrolment = ((rows.drop after).take limit).map Replica.entry) :
    (seen ++ entries).map RosterEntry.enrolment = (rows.take (after + limit)).map Replica.entry := by
  rw [List.map_append, hseen, hentries, ← List.map_append, List.take_add]

/-- A page of the rows a listing began on is read on to the next, or to the end. -/
theorem read_page (account : Did) (name : JsString) (h : Enrolled used db)
    (hrows : rows <+: enrolments db account) (hafter : after ≤ rows.length) (hn : n ≤ after)
    (hpos : 1 ≤ limit)
    (hseen : seen.map RosterEntry.enrolment = (rows.take after).map Replica.entry) :
    let entries := (pageOf (rosterOf db account) after (some rows.length) limit).map Replica.entry
    let last := (entries.getLast?.map RosterEntry.ordinal).getD rows.length
    Read account name rows (n + 1)
      (if last < rows.length then .reading (some ⟨account, name, rows.length, last⟩) (seen ++ entries)
      else .done (seen ++ entries)) := by
  intro entries last
  have hentries : entries.map RosterEntry.enrolment = ((rows.drop after).take limit).map Replica.entry :=
    map_pageOf hrows
  have hlast : last = min (after + limit) rows.length :=
    last_page (numbered_begin h hrows) hafter hpos hentries
  have hall := seen_page hseen hentries
  split
  · next hmore =>
      have hnext : last = after + limit := by omega
      rw [hnext] at hmore ⊢
      exact ⟨⟨rfl, rfl, rfl⟩, ⟨Nat.le_trans hpos (Nat.le_add_left _ _), by dsimp only; omega, hmore⟩, hall⟩
  · next hend =>
      rw [List.take_of_length_le (by omega)] at hall
      exact hall

/-- The first page of a listing fixes the rows it is of. -/
theorem read_first (h : Enrolled used db) (hkeys : foreignKeys db = true)
    (hheld : boundAs db account mediator = some held) (hpos : 1 ≤ limit) (hmax : limit ≤ maxPage) :
    Read account held.registration (enrolments db account) 1
      ((Listing.reading none []).next maxPage account mediator db limit) := by
  have hlength : (enrolments db account).length = (rosterOf db account).length := List.length_map _
  have hpage : pageOf (rosterOf db account) 0 none limit =
      pageOf (rosterOf db account) 0 (some (enrolments db account).length) limit := by
    rw [pageOf, pageOf, hlength]
    rfl
  have hread := read_page account held.registration h (List.prefix_refl _) (Nat.zero_le _)
    (Nat.le_refl 0) hpos (show ([] : List RosterEntry).map RosterEntry.enrolment = _ from rfl)
  rw [next_reading h hkeys hheld rfl hpos hmax]
  simp only [Option.map_none, Option.getD_none, Option.all_none, Bool.not_true, Bool.false_or,
    Nat.lt_irrefl, decide_false, Bool.false_eq_true, if_false, hpage]
  rw [← hlength]
  exact hread

theorem first_refused (hkeys : foreignKeys db = true) (hnone : boundAs db account mediator = none)
    (hpos : 1 ≤ limit) (hmax : limit ≤ maxPage) :
    (Listing.reading none []).next maxPage account mediator db limit = .refused [] := by
  rw [Listing.next, transaction_replicaList hkeys rfl hpos hmax, hnone]

/-- One page more, whatever was asked of the store in between. -/
theorem Read.next (held : ReplicaAccount) (h : Enrolled used db) (hkeys : foreignKeys db = true)
    (hstands : RosterStands account mediator name rows db) (hpos : 1 ≤ limit) (hmax : limit ≤ maxPage)
    {listing : Listing} (hread : Read account name rows n listing) :
    Read account name rows (n + 1) (listing.next maxPage account mediator db limit) ∧
      (boundAs db account mediator = some held → held.registration = name →
        (∀ seen, listing ≠ .refused seen) →
          ∀ seen, listing.next maxPage account mediator db limit ≠ .refused seen) := by
  match listing, hread with
  | .refused seen, hread => exact ⟨hread, fun _ _ hnot => absurd rfl (hnot seen)⟩
  | .done seen, hread =>
      exact ⟨hread, fun _ _ _ seen' heq => by cases heq⟩
  | .reading (some c) seen, ⟨⟨haccount, hname, hthrough⟩, ⟨hone, hn, hlt⟩, hseen⟩ =>
      have hcursor : (some c).all (Cursor.readable account) = true := by
        simp [Cursor.readable, haccount, hone, hthrough, hlt]
      have hturned : Read account name rows (n + 1) (.refused seen) := ⟨c.after, hseen⟩
      cases hbound : boundAs db account mediator with
      | none =>
          rw [Listing.next, transaction_replicaList hkeys hcursor hpos hmax, hbound]
          exact ⟨hturned, fun heq => by cases heq⟩
      | some row =>
          rw [next_reading h hkeys hbound hcursor hpos hmax]
          simp only [Option.map_some, Option.getD_some, Option.all_some, hthrough, hname]
          by_cases hcalled : row.registration = name
          · have hrows := hstands row hbound hcalled
            have hsize : ¬ (rosterOf db account).length < rows.length := by
              have hle := hrows.length_le
              rw [enrolments, List.length_map] at hle
              omega
            have hpage := read_page account name h hrows (Nat.le_of_lt hlt) hn hpos hseen
            rw [hcalled, beq_self_eq_true, Bool.not_true, Bool.false_or, decide_eq_false hsize,
              if_neg Bool.false_ne_true]
            refine ⟨hpage, fun _ _ _ seen' => ?_⟩
            split
            · exact fun heq => by cases heq
            · exact fun heq => by cases heq
          · rw [beq_false_of_ne (Ne.symm hcalled), Bool.not_false, Bool.true_or, if_pos rfl]
            refine ⟨hturned, fun heq hheld => ?_⟩
            cases heq
            exact absurd hheld hcalled

end

/-! ## Runs -/

section
variable {options : Options} {used : List JsString} {db : Db} {account mediator : Did}

theorem Enrolled.mono {used' : List JsString} (h : Enrolled used db) (hsub : ∀ id ∈ used, id ∈ used') :
    Enrolled used' db := ⟨h.once, fun row hrow => hsub _ (h.drawn row hrow), h.numbered⟩

theorem enrolled_empty : Enrolled [] Db.empty where
  once := List.nodup_nil
  drawn _ hrow := by cases hrow
  numbered _ := rfl

theorem keys_answering {α : Type} {answer : α → StoreAnswer} {batch : Batch α}
    (h : foreignKeys db = true) : foreignKeys (answering answer batch db).2 = true := by
  rw [answering]
  rcases attempt_cases batch db with hfailed | ⟨a, t, -, hlanded, hkeys⟩
  · rw [hfailed]
    exact h
  · rw [hlanded]
    exact hkeys

theorem keys_serve (options : Options) (call : StoreCall) (h : foreignKeys db = true) :
    foreignKeys (call.serve options db).2 = true := by
  cases call with
  | mediation call =>
      cases call <;>
        exact landed_keeps (P := fun db => foreignKeys db = true) h fun _ _ _ hkeys => hkeys
  | registerExecution _ _ _ => exact keys_answering h
  | purgeExecutions _ => exact keys_answering h
  | keepBlob _ _ _ => exact keys_answering h
  | dropBlob _ _ => exact keys_answering h
  | grantUpload _ _ _ => exact keys_answering h
  | claimUpload _ _ => exact keys_answering h
  | markUploaded _ _ => exact keys_answering h
  | purgeBlobs _ => exact keys_answering h

/-- A database in which a roster may be followed: what stands in it under `name` begins with
`rows`. -/
structure Followed (account mediator : Did) (name : JsString) (rows : List Replica)
    (used : List JsString) (db : Db) : Prop where
  enrolled : Enrolled used db
  keys : foreignKeys db = true
  stands : RosterStands account mediator name rows db
  known : name ∈ used

theorem enrolled_serveAll (options : Options) (calls : List StoreCall) (h : Enrolled used db) :
    Enrolled (used ++ calls.filterMap StoreCall.registration) (serveAll options calls db).2 := by
  induction calls generalizing used db with
  | nil => exact h.mono fun id hid => List.mem_append_left _ hid
  | cons call calls ih =>
      have hcall := (h.step (enrolling_serve options call db)).mono fun id hid =>
        List.mem_append.mpr (List.mem_append.mp hid).symm
      have hrest := ih hcall
      rwa [List.append_assoc, ← filterMap_cons_toList] at hrest

theorem keys_serveAll (options : Options) (calls : List StoreCall) (h : foreignKeys db = true) :
    foreignKeys (serveAll options calls db).2 = true := by
  induction calls generalizing db with
  | nil => exact h
  | cons call calls ih => exact ih (keys_serve options call h)

theorem enrolments_serveAll (options : Options) (calls : List StoreCall)
    (hkeep : ∀ call ∈ calls, ∀ mediator, call ≠ .mediation (.deleteReplicaAccount account mediator)) :
    enrolments db account <+: enrolments (serveAll options calls db).2 account := by
  induction calls generalizing db with
  | nil => exact List.prefix_refl _
  | cons call calls ih =>
      obtain ⟨hcall, hcalls⟩ := List.forall_mem_cons.mp hkeep
      exact (enrolments_begin (enrolling_serve options call db) hcall).trans (ih hcalls)

theorem followed_serveAll (options : Options) {name : JsString} {rows : List Replica} (calls : List StoreCall)
    (h : Followed account mediator name rows used db)
    (hfresh : (used ++ calls.filterMap StoreCall.registration).Nodup) :
    Followed account mediator name rows (used ++ calls.filterMap StoreCall.registration)
      (serveAll options calls db).2 := by
  induction calls generalizing used db with
  | nil =>
      exact ⟨h.enrolled.mono fun id hid => List.mem_append_left _ hid, h.keys, h.stands,
        List.mem_append_left _ h.known⟩
  | cons call calls ih =>
      have hstep := enrolling_serve options call db
      have hnew : ∀ id ∈ call.registration, id ∉ used := by
        intro id hid hused
        rw [filterMap_cons_toList] at hfresh
        refine List.disjoint_of_nodup_append hfresh hused (List.mem_append_left _ ?_)
        exact Option.mem_toList.mpr hid
      rw [filterMap_cons_toList, ← List.append_assoc] at hfresh ⊢
      refine ih ⟨?_, keys_serve options call h.keys, h.stands.step h.enrolled h.known hnew hstep,
        List.mem_append_left _ h.known⟩ hfresh
      exact (h.enrolled.step hstep).mono fun id hid => List.mem_append.mpr (List.mem_append.mp hid).symm

theorem boundAs_serveAll (options : Options) {held : ReplicaAccount} (calls : List StoreCall) (h : Enrolled used db)
    (hheld : boundAs db account mediator = some held)
    (hkeep : ∀ call ∈ calls, call ≠ .mediation (.deleteReplicaAccount account mediator)) :
    boundAs (serveAll options calls db).2 account mediator = some held := by
  induction calls generalizing used db with
  | nil => exact hheld
  | cons call calls ih =>
      obtain ⟨hcall, hcalls⟩ := List.forall_mem_cons.mp hkeep
      have hstep := enrolling_serve options call db
      exact ih (h.step hstep) (boundAs_stays h hstep hheld hcall) hcalls

/-- A listing read on through any turns is a listing of the rows it began on, and it is only
refused once the account was deleted. -/
theorem read_through {name : JsString} {rows : List Replica} {n maxPage : Nat} (held : ReplicaAccount)
    (turns : List Turn) {listing : Listing} (h : Followed account mediator name rows used db)
    (hfresh : (used ++ (turns.flatMap Turn.calls).filterMap StoreCall.registration).Nodup)
    (hlimits : ∀ turn ∈ turns, 1 ≤ turn.limit ∧ turn.limit ≤ maxPage)
    (hread : Read account name rows n listing) :
    Read account name rows (n + turns.length) (listing.through options maxPage account mediator db turns) ∧
      (boundAs db account mediator = some held → held.registration = name →
        (∀ call ∈ turns.flatMap Turn.calls, call ≠ .mediation (.deleteReplicaAccount account mediator)) →
        (∀ seen, listing ≠ .refused seen) →
          ∀ seen, listing.through options maxPage account mediator db turns ≠ .refused seen) := by
  induction turns generalizing n listing used db with
  | nil => exact ⟨hread, fun _ _ _ hnot => hnot⟩
  | cons turn turns ih =>
      obtain ⟨⟨hpos, hmax⟩, hlimits⟩ := List.forall_mem_cons.mp hlimits
      rw [List.flatMap_cons, List.filterMap_append, ← List.append_assoc] at hfresh
      have hturn := followed_serveAll options turn.calls h
        ((List.nodup_append.mp hfresh).1)
      obtain ⟨hnext, hunrefused⟩ := Read.next held hturn.enrolled hturn.keys hturn.stands
        hpos hmax hread
      obtain ⟨hall, hrest⟩ := ih hturn hfresh hlimits hnext
      refine ⟨by rw [List.length_cons, Nat.add_comm turns.length 1, ← Nat.add_assoc]; exact hall, ?_⟩
      intro hheld hname hkeep hnot
      rw [List.flatMap_cons] at hkeep
      have hheld' := boundAs_serveAll options turn.calls h.enrolled hheld
        fun call hcall => hkeep call (List.mem_append_left _ hcall)
      exact hrest hheld' hname (fun call hcall => hkeep call (List.mem_append_right _ hcall))
        (hunrefused hheld' hname hnot)

theorem refused_through {maxPage : Nat} (turns : List Turn) (seen : List RosterEntry) :
    (Listing.refused seen).through options maxPage account mediator db turns = .refused seen := by
  induction turns generalizing db with
  | nil => rfl
  | cons turn turns ih => exact ih

/-- A listing begun on a database that was reached is a listing of the roster there. -/
theorem read_listing (options : Options) (account mediator : Did) {maxPage limit : Nat} {turns : List Turn}
    (h : Enrolled used db) (hkeys : foreignKeys db = true)
    (hfresh : (used ++ (turns.flatMap Turn.calls).filterMap StoreCall.registration).Nodup)
    (hlimit : 1 ≤ limit ∧ limit ≤ maxPage)
    (hlimits : ∀ turn ∈ turns, 1 ≤ turn.limit ∧ turn.limit ≤ maxPage) :
    let listing := ((Listing.reading none []).next maxPage account mediator db limit).through options
      maxPage account mediator db turns
    (∃ name, Read account name (enrolments db account) (1 + turns.length) listing) ∧
      (boundAs db account mediator ≠ none →
        .mediation (.deleteReplicaAccount account mediator) ∉ turns.flatMap Turn.calls →
          ∀ seen, listing ≠ .refused seen) := by
  intro listing
  cases hbound : boundAs db account mediator with
  | none =>
      have hlisting : listing = .refused [] := by
        show Listing.through options maxPage account mediator
          (Listing.next maxPage account mediator db limit (.reading none [])) db turns = _
        rw [first_refused hkeys hbound hlimit.1 hlimit.2, refused_through]
      refine ⟨⟨[], ?_⟩, fun hne => absurd rfl hne⟩
      rw [hlisting]
      exact ⟨0, rfl⟩
  | some held =>
      have hfirst := read_first h hkeys hbound hlimit.1 hlimit.2
      have hdrawn : held.registration ∈ used := h.drawn held (List.mem_of_find?_eq_some hbound)
      have hstands : RosterStands account mediator held.registration (enrolments db account) db :=
        fun _ _ _ => List.prefix_refl _
      obtain ⟨hread, hunrefused⟩ := read_through held turns ⟨h, hkeys, hstands, hdrawn⟩
        hfresh hlimits hfirst
      refine ⟨⟨_, hread⟩, fun _ hkeep =>
        hunrefused hbound rfl (fun call hcall heq => hkeep (heq ▸ hcall)) ?_⟩
      intro seen hrefused
      have hnot := next_reading h hkeys hbound (show (none : Option Cursor).all _ = true from rfl)
        hlimit.1 hlimit.2 []
      rw [hrefused] at hnot
      simp only [Option.map_none, Option.getD_none, Option.all_none, Bool.not_true, Bool.false_or,
        Nat.lt_irrefl, decide_false, Bool.false_eq_true, if_false] at hnot
      split at hnot <;> cases hnot

end

/-- What a listing has seen is a beginning of its rows. -/
theorem Read.seen {account : Did} {name : JsString} {rows : List Replica} {n : Nat} {listing : Listing}
    (h : Read account name rows n listing) :
    ∃ k, listing.seen.map RosterEntry.enrolment = (rows.take k).map Replica.entry := by
  match listing, h with
  | .reading (some c) seen, ⟨_, _, hseen⟩ => exact ⟨c.after, hseen⟩
  | .refused seen, ⟨k, hseen⟩ => exact ⟨k, hseen⟩
  | .done seen, hseen => exact ⟨rows.length, by rw [List.take_length]; exact hseen⟩

/-- A beginning of a numbered roster is numbered from one. -/
theorem ordinals_seen {rows : List Replica} (hnumbered : rows.map Replica.ordinal = List.range' 1 rows.length)
    {seen : List RosterEntry} {k : Nat}
    (hseen : seen.map RosterEntry.enrolment = (rows.take k).map Replica.entry) :
    seen.map RosterEntry.ordinal = List.range' 1 seen.length := by
  have hlength := congrArg List.length hseen
  rw [List.length_map, List.length_map, List.length_take] at hlength
  have hordinals : seen.map RosterEntry.ordinal = (rows.map Replica.ordinal).take k := by
    have hmap := congrArg (List.map RosterEntry.ordinal) hseen
    rw [List.map_map, List.map_map] at hmap
    rw [← List.map_take]
    exact hmap
  rw [hordinals, hnumbered, hlength]
  rcases Nat.le_total k rows.length with hle | hle
  · rw [List.take_range'_of_length_ge hle, Nat.min_eq_left hle]
  · rw [List.take_range'_of_length_le hle, Nat.min_eq_right hle]

/-- In every database that can be reached, an account's replicas are numbered from one in the
order it enrolled them. A listing begun on it and read on, by pages of any sizes and with any
calls in between, has seen a beginning of the roster as it began, each entry once and in its
place; once it is done it has seen all of it. It is refused only where the account is not
there, and it has not ended only where the pages are fewer than the replicas. -/
theorem roster_paging (options : Options) (maxPage limit : Nat) (before : List StoreCall)
    (account mediator : Did) (turns : List Turn)
    (hfresh : ((before ++ turns.flatMap Turn.calls).filterMap StoreCall.registration).Nodup)
    (hlimit : 1 ≤ limit ∧ limit ≤ maxPage)
    (hlimits : ∀ turn ∈ turns, 1 ≤ turn.limit ∧ turn.limit ≤ maxPage) :
    let db := (serveAll options before .empty).2
    let roster := enrolments db account
    let listing := ((Listing.reading none []).next maxPage account mediator db limit).through options
      maxPage account mediator db turns
    (∀ did, (enrolments db did).map Replica.ordinal = List.range' 1 (enrolments db did).length) ∧
    (∀ did more, (∀ call ∈ more, ∀ bound, call ≠ .mediation (.deleteReplicaAccount did bound)) →
      enrolments db did <+: enrolments (serveAll options more db).2 did) ∧
    listing.seen.map RosterEntry.ordinal = List.range' 1 listing.seen.length ∧
    listing.seen.map RosterEntry.enrolment <+: roster.map Replica.entry ∧
    (∀ seen, listing = .done seen → seen.map RosterEntry.enrolment = roster.map Replica.entry) ∧
    (∀ seen, listing = .refused seen → boundAs db account mediator = none ∨
      .mediation (.deleteReplicaAccount account mediator) ∈ turns.flatMap Turn.calls) ∧
    ∀ cursor seen, listing = .reading cursor seen → turns.length + 1 < roster.length := by
  intro db roster listing
  rw [List.filterMap_append] at hfresh
  have henrolled : Enrolled (before.filterMap StoreCall.registration) db := by
    simpa using enrolled_serveAll options before enrolled_empty
  obtain ⟨⟨name, hread⟩, hunrefused⟩ : (∃ name, Read account name roster (1 + turns.length) listing) ∧ _ :=
    read_listing options account mediator henrolled (keys_serveAll options before rfl) hfresh hlimit
      hlimits
  obtain ⟨k, hseen⟩ := hread.seen
  refine ⟨henrolled.numbered, fun did more hkeep => enrolments_serveAll options more hkeep,
    ordinals_seen (henrolled.numbered account) hseen, ?_, ?_, ?_, ?_⟩
  · rw [hseen]
    exact (List.take_prefix _ _).map _
  · intro seen hdone
    rw [hdone] at hread
    exact hread
  · intro seen hrefused
    by_contra hnot
    rw [not_or] at hnot
    exact hunrefused hnot.1 hnot.2 seen hrefused
  · intro cursor seen hreading
    rw [hreading] at hread
    cases cursor with
    | none => exact hread.elim
    | some c =>
        obtain ⟨-, ⟨-, hn, hlt⟩, -⟩ := hread
        omega

/-- Two replicas are listed one at a time; a third is added and the first removed before the
second page. -/
theorem roster_paging_example :
    let options : Options := ⟨1000, 10⟩
    let before : List StoreCall :=
      [.mediation (.registerReplicaAccount (lit "a") (lit "A") (lit "m") true 1 (lit "r")),
        .mediation (.addReplica (lit "a") (lit "m") (lit "r1") (lit "R1") [] 3 2),
        .mediation (.addReplica (lit "a") (lit "m") (lit "r2") (lit "R2") [] 3 3)]
    let turns : List Turn :=
      [⟨[.mediation (.addReplica (lit "a") (lit "m") (lit "r3") (lit "R3") [] 3 4),
        .mediation (.removeReplica (lit "a") (lit "m") (lit "r1") 5)], 1⟩]
    let listing := ((Listing.reading none []).next 10 (lit "a") (lit "m")
      (serveAll options before .empty).2 1).through options 10 (lit "a") (lit "m")
        (serveAll options before .empty).2 turns
    listing.seen.length = 2 ∧ listing.seen.map RosterEntry.ordinal = [1, 2] := by
  intro options before turns listing
  have hlength : listing.seen.length = 2 := by decide +kernel
  have hordinals : listing.seen.map RosterEntry.ordinal = List.range' 1 listing.seen.length :=
    (roster_paging options 10 1 before (lit "a") (lit "m") turns (by decide) (by decide)
      (by decide)).2.2.1
  exact ⟨hlength, hordinals.trans (congrArg (List.range' 1) hlength)⟩

end Estoc.Mediator
