import Estoc.Mediator.Conserved
import Estoc.Mediator.Exclusive

/-!
# Picking up mail

What a replica is queued waits for it in the order the packages came, until it acknowledges a
delivery or the package lapses. It asks how many wait, asks for some, and names those it took.
Pickup reads the queue of whoever the sender proved to be.
-/

set_option linter.unusedSectionVars false

namespace Estoc.Mediator

open Json (lit)
open Utf16 (JsString)
open DidPeer (shortOf)
open Sql (delete mem_delete Tx)
open Checked (bind_eq_ok)

/-! ## What waits -/

structure StoredMessage where
  id : JsString
  packed : JsString
  createdAt : Millis
deriving DecidableEq

/-- The deliveries of one package that wait for a replica: of mail to one DID alone, where
one is given. -/
def queuedOf (replica : Did) (next : Option Did) (now : Millis) (db : Db) (p : Package) :
    List (Delivery × Package) :=
  if now < p.expiresAt && (next.isNone || next == some p.nextDid) then
    (db.deliveries.filter fun d => d.replicaDid == replica && d.packageId == p.id).map (·, p)
  else []

/-- The deliveries that wait for a replica, each beside its package, in the order the packages
came. -/
def waiting (replica : Did) (next : Option Did) (now : Millis) (db : Db) :
    List (Delivery × Package) :=
  (Cmp.sortBy (Cmp.comap Package.createdAt compare) db.packages).flatMap
    (queuedOf replica next now db)

def deliveriesFor (replica : Did) (limit : Nat) (next : Option Did) (now : Millis) (db : Db) :
    List StoredMessage :=
  ((waiting replica next now db).take limit).map fun x => ⟨x.1.id, x.2.packed, x.2.createdAt⟩

def deliveryCount (replica : Did) (next : Option Did) (now : Millis) (db : Db) : Nat :=
  (waiting replica next now db).length

/-- The messages that wait for an account, in the order they came. -/
def messagesFor (owner : Did) (limit : Nat) (now : Millis) (db : Db) : List StoredMessage :=
  ((Cmp.sortBy (Cmp.comap Message.createdAt compare)
    (db.messages.filter fun m => m.ownerDid == owner && now < m.expiresAt)).take limit).map
      fun m => ⟨m.id, m.packed, m.createdAt⟩

def messageCount (owner : Did) (now : Millis) (db : Db) : Nat :=
  (db.messages.filter fun m => m.ownerDid == owner && now < m.expiresAt).length

def deleteMessages (owner : Did) (ids : List JsString) : Batch Unit :=
  modify fun db => { db with
    messages := delete (fun m => m.ownerDid == owner && ids.contains m.id) db.messages }

inductive ReplicaState where
  | active
  | removed
deriving DecidableEq

def replicaState (db : Db) (did : Did) : Option ReplicaState :=
  (db.replicas.find? (·.replicaDid == did)).map fun r =>
    if r.active then .active else .removed

/-! ## Whose queue -/

/-- Who sent a request: the DID the envelope proved, whether it was sealed by that DID's key,
and, on a connection that stays open, whose it is and whether live delivery is on. -/
structure Context where
  sender : Option Did
  authcrypted : Bool
  session : Option (Option Did × Bool)

inductive Inbox where
  | ofReplica (did : Did)
  | ofAccount (did : Did)
deriving DecidableEq

structure Attachment where
  id : JsString
  packed : JsString
deriving DecidableEq

def STATUS : JsString := lit "https://didcomm.org/messagepickup/3.0/status"
def DELIVERY : JsString := lit "https://didcomm.org/messagepickup/3.0/delivery"
def PROBLEM_REPORT : JsString := lit "https://didcomm.org/report-problem/2.0/problem-report"

inductive Reply where
  | status (messageCount : Nat) (liveDelivery : Bool) (recipientDid : Option Did)
  | delivery (recipientDid : Option Did) (attachments : List Attachment)
  | problem (code : JsString)
deriving DecidableEq

def Reply.type : Reply → JsString
  | .status _ _ _ => STATUS
  | .delivery _ _ => DELIVERY
  | .problem _ => PROBLEM_REPORT

def inboxOf (context : Context) (db : Db) : Option (Except Reply Inbox) :=
  context.sender.bind fun sender =>
    let did := shortOf sender
    let another := (context.session.bind Prod.fst).any fun held => shortOf held != did
    if another then some (.error (.problem (lit "e.p.msg.connection-bound")))
    else if hasReplicaAccount db did then some (.error (.problem (lit "replica-required")))
    else match replicaState db did with
      | some state =>
        if !context.authcrypted then none
        else if state = .removed then some (.error (.problem (lit "replica-removed")))
        else some (.ok (.ofReplica did))
      | none => if hasAccount db sender then some (.ok (.ofAccount sender)) else none

namespace Inbox

def count (recipientDid : Option Did) (now : Millis) (db : Db) : Inbox → Nat
  | ofReplica did => deliveryCount did (recipientDid.map shortOf) now db
  | ofAccount did => messageCount did now db

def waiting (limit : Nat) (recipientDid : Option Did) (now : Millis) (db : Db) :
    Inbox → List StoredMessage
  | ofReplica did => deliveriesFor did limit (recipientDid.map shortOf) now db
  | ofAccount did => messagesFor did limit now db

def acknowledge (ids : List JsString) : Inbox → Batch Unit
  | ofReplica did => acknowledgeDeliveries did ids
  | ofAccount did => deleteMessages did ids

end Inbox

def status (inbox : Inbox) (context : Context) (recipientDid : Option Did) (now : Millis)
    (db : Db) : Reply :=
  .status (inbox.count recipientDid now db) ((context.session.map Prod.snd).getD false)
    recipientDid

def DELIVERY_PAGE_LIMIT : Nat := 10

/-- How many a delivery hands over at most, of as many as were asked for. -/
def pageLimit (limit : Option Rat) : Nat :=
  match limit with
  | some asked => if 0 < asked then min asked.floor.toNat DELIVERY_PAGE_LIMIT
    else DELIVERY_PAGE_LIMIT
  | none => DELIVERY_PAGE_LIMIT

/-! ## The requests

Each is answered from the database at one reading of the clock for each statement. No answer
is none; a throw is none too, and leaves the database. -/

def statusRequest (context : Context) (recipientDid : Option Did) (now : Millis) (db : Db) :
    Option Reply :=
  (inboxOf context db).map fun
    | .error problem => problem
    | .ok inbox => status inbox context recipientDid now db

def deliveryRequest (context : Context) (limit : Option Rat) (recipientDid : Option Did)
    (now now' : Millis) (db : Db) : Option Reply :=
  (inboxOf context db).map fun
    | .error problem => problem
    | .ok inbox =>
      match inbox.waiting (pageLimit limit) recipientDid now db with
      | [] => status inbox context recipientDid now' db
      | messages => .delivery recipientDid (messages.map fun m => ⟨m.id, m.packed⟩)

def messagesReceived (context : Context) (ids : List JsString) (now : Millis) (db : Db) :
    Option Reply × Db :=
  match inboxOf context db with
  | none => (none, db)
  | some (.error problem) => (some problem, db)
  | some (.ok inbox) =>
    match Sql.transaction foreignKeys (inbox.acknowledge ids) db with
    | .ok (_, db') => (some (status inbox context none now db'), db')
    | .error _ => (none, db)

/-! ## What an acknowledgement leaves -/

/-- What the database's own keys keep: references that hold, and each delivery its own ID. -/
structure Keyed (db : Db) : Prop where
  keys : foreignKeys db = true
  deliveryOnce : (db.deliveries.map Delivery.id).Nodup

instance (db : Db) : Decidable (Keyed db) :=
  decidable_of_iff (foreignKeys db = true ∧ (db.deliveries.map Delivery.id).Nodup)
    ⟨fun h => ⟨h.1, h.2⟩, fun h => ⟨h.keys, h.deliveryOnce⟩⟩

section
variable {used kept : List JsString} {db : Db}

theorem Conserved.keyed (h : Conserved used kept db) : Keyed db := ⟨h.keys, h.deliveryOnce⟩

namespace Keyed

/-- A package with a delivery left is left. -/
theorem mem_ended_packages (h : Keyed db) (which : Delivery → Bool) {d : Delivery}
    (hd : d ∈ db.deliveries) (hw : which d = false) {p : Package} (hp : p ∈ db.packages)
    (hid : d.packageId = p.id) : p ∈ (ended which db).packages := by
  refine mem_delete.mpr ⟨hp, ?_⟩
  simp only [Bool.and_eq_false_iff, Bool.not_eq_false', List.any_eq_true, Bool.and_eq_true,
    beq_iff_eq, Bool.not_eq_true']
  refine .inr ⟨d, hd, hid, ?_⟩
  rw [Bool.eq_false_iff]
  intro hends
  obtain ⟨e, he, heid⟩ := List.mem_map.mp (List.contains_iff_mem.mp hends)
  obtain ⟨he, hwe⟩ := List.mem_filter.mp he
  rw [List.inj_on_of_nodup_map h.deliveryOnce he hd heid, hw] at hwe
  cases hwe

/-- Deliveries that end leave every reference to a row that is there. -/
theorem ended (h : Keyed db) (which : Delivery → Bool) : Keyed (ended which db) where
  keys := by
    have hkeys := h.keys
    simp only [foreignKeys, Bool.and_eq_true, List.all_eq_true] at hkeys ⊢
    obtain ⟨⟨⟨hrest, hpackages⟩, hdeliveries⟩, hexecutions⟩ := hkeys.1
    refine ⟨⟨⟨⟨hrest, fun p hp => ?_⟩, fun d hd => ?_⟩, hexecutions⟩, hkeys.2⟩
    · exact hpackages p (mem_delete.mp hp).1
    · obtain ⟨hmem, hw⟩ := mem_delete.mp hd
      refine ⟨?_, (hdeliveries d hmem).2⟩
      obtain ⟨p, hp, hid⟩ := (keys_delivery h.keys hmem).1
      rw [hasPackage, List.any_eq_true]
      exact ⟨p, h.mem_ended_packages which hmem hw hp hid.symm, beq_iff_eq.mpr hid⟩
  deliveryOnce := (List.filter_sublist.map _).nodup h.deliveryOnce

/-- An acknowledgement goes through. -/
theorem acknowledge_lands (h : Keyed db) (replica : Did) (ids : List JsString) :
    Sql.transaction foreignKeys (acknowledgeDeliveries replica ids) db =
      .ok ((), Mediator.ended (fun d => d.replicaDid == replica && ids.contains d.id) db) := by
  have hkeys := (h.ended fun d => d.replicaDid == replica && ids.contains d.id).keys
  have hbatch : acknowledgeDeliveries replica ids ⟨db, false⟩ =
      .ok ((), ⟨Mediator.ended (fun d => d.replicaDid == replica && ids.contains d.id) db, true⟩) :=
    rfl
  rw [Sql.transaction, hbatch]
  show (Checked.refuse (foreignKeys (Mediator.ended _ db) = false) Sql.Fault.foreignKey >>= _) = _
  rw [Checked.refuse_of_not (by rw [hkeys]; exact Bool.noConfusion)]
  rfl

end Keyed

theorem mem_queuedOf {replica : Did} {next : Option Did} {now : Millis} {p : Package}
    {x : Delivery × Package} (hx : x ∈ queuedOf replica next now db p) :
    x.1 ∈ db.deliveries ∧ x.1.replicaDid = replica ∧ x.1.packageId = p.id ∧ x.2 = p := by
  unfold queuedOf at hx
  split at hx
  · obtain ⟨d, hd, rfl⟩ := List.mem_map.mp hx
    obtain ⟨hmem, hof⟩ := List.mem_filter.mp hd
    rw [Bool.and_eq_true, beq_iff_eq, beq_iff_eq] at hof
    exact ⟨hmem, hof.1, hof.2, rfl⟩
  · cases hx

theorem queuedOf_ended (which : Delivery → Bool) (replica : Did) (next : Option Did)
    (now : Millis) (p : Package) :
    queuedOf replica next now (ended which db) p =
      (queuedOf replica next now db p).filter fun x => !which x.1 := by
  unfold queuedOf
  split
  · have hdeliveries : (ended which db).deliveries = delete which db.deliveries := rfl
    rw [hdeliveries, delete, List.filter_filter, List.filter_map, List.filter_filter]
    exact congrArg _ (List.filter_congr fun d _ => Bool.and_comm _ _)
  · rfl

theorem flatMap_filter_of_nil {α β : Type} {keep : α → Bool} {f : α → List β} {xs : List α}
    (h : ∀ x ∈ xs, keep x = false → f x = []) : (xs.filter keep).flatMap f = xs.flatMap f := by
  induction xs with
  | nil => rfl
  | cons x xs ih =>
      obtain ⟨hx, hxs⟩ := List.forall_mem_cons.mp h
      rw [List.filter_cons, List.flatMap_cons, ← ih hxs]
      split
      · rw [List.flatMap_cons]
      · next hout => rw [hx (Bool.eq_false_iff.mpr hout), List.nil_append]

/-- What waits after some deliveries ended is what waited, without them. -/
theorem Keyed.waiting_ended (h : Keyed db) (which : Delivery → Bool) (replica : Did)
    (next : Option Did) (now : Millis) :
    Mediator.waiting replica next now (Mediator.ended which db) =
      (waiting replica next now db).filter fun x => !which x.1 := by
  have hpackages : (Mediator.ended which db).packages = db.packages.filter fun p =>
      !(db.deliveries.any (fun d => which d && d.packageId == p.id) &&
        !db.deliveries.any fun d => d.packageId == p.id &&
          !((db.deliveries.filter which).map Delivery.id).contains d.id) := rfl
  rw [waiting, waiting, List.filter_flatMap, hpackages, ← Cmp.filter_sortBy,
    flatMap_filter_of_nil]
  · exact congrArg (fun f => List.flatMap f _) (funext fun p => queuedOf_ended which replica next now p)
  · -- a package that went had no delivery left
    intro p hp hwent
    rw [List.eq_nil_iff_forall_not_mem]
    intro x hx
    obtain ⟨hd, _, hid, _⟩ := mem_queuedOf hx
    obtain ⟨hmem, hw⟩ := mem_delete.mp hd
    have hstays := h.mem_ended_packages which hmem hw (Cmp.mem_sortBy.mp hp) hid
    rw [hpackages, List.mem_filter] at hstays
    rw [hstays.2] at hwent
    cases hwent

/-- One delivery at most waits under an ID. -/
theorem waiting_once (h : Conserved used kept db) (replica : Did) (next : Option Did)
    (now : Millis) : ((waiting replica next now db).map fun x => x.1.id).Nodup := by
  rw [waiting, List.map_flatMap, List.nodup_flatMap]
  refine ⟨fun p _ => ?_, ?_⟩
  · unfold queuedOf
    split
    · rw [List.map_map]
      exact (List.filter_sublist.map _).nodup h.deliveryOnce
    · exact List.nodup_nil
  · have honce : ((Cmp.sortBy (Cmp.comap Package.createdAt compare) db.packages).map
        Package.id).Nodup := ((Cmp.sortBy_perm db.packages).map _).nodup_iff.mpr h.packageOnce
    refine (List.pairwise_map.mp honce).imp fun {p q} hpq => ?_
    intro id hp hq
    obtain ⟨x, hx, rfl⟩ := List.mem_map.mp hp
    obtain ⟨y, hy, hid⟩ := List.mem_map.mp hq
    obtain ⟨hxd, _, hxp, _⟩ := mem_queuedOf hx
    obtain ⟨hyd, _, hyq, _⟩ := mem_queuedOf hy
    have hsame := List.inj_on_of_nodup_map h.deliveryOnce hyd hxd hid
    exact hpq (hxp.symm.trans (hsame ▸ hyq))

end

end Estoc.Mediator
