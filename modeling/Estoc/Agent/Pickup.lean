import Mathlib.Data.Nat.Cast.Order.Ring
import Estoc.EventStore.Values
import Estoc.Lib.Paged
import Estoc.Mediator.Pickup
import Estoc.Mediator.Service

/-!
# Draining the queue

A drain asks what is queued, fetches it, hands every attachment over and tells the mediator
which were taken, round after round, until the queue is empty, a round takes nothing or ten
rounds have run. It asks for as many as are queued, and the mediator hands over ten at most.
-/

set_option linter.unusedSectionVars false

namespace Estoc.Agent

open Json (lit)
open Utf16 (JsString)
open Checked (bind_eq_ok)
open DidPeer (shortOf)
open Mediator (Did Millis Db Context Reply Attachment StoredMessage Delivery Package waiting
  deliveriesFor deliveryCount Conserved ended statusRequest deliveryRequest messagesReceived)

inductive Fate where
  | acked
  | skip
deriving DecidableEq

/-- One attachment: the envelope it carries, or why it does not read. -/
structure Delivered where
  attachmentId : JsString
  inside : Except JsString JsString

inductive AttachmentData where
  | base64 (text : JsString)
  /-- The text its value is written as. -/
  | json (text : JsString)
  | links
  | none

structure DeliveryAttachment where
  id : Option JsString
  data : AttachmentData

inductive Ended where
  | empty
  | left
  | rounds
deriving DecidableEq

structure Drained where
  acked : Nat
  ended : Ended
deriving DecidableEq

def ROUNDS : Nat := 10

/-- The two ends of an attachment's text. -/
structure Base64 where
  base64url : JsString → JsString
  base64urlToUtf8 : JsString → Except JsString JsString

/-- The database at the mediator, and how often its clock was read. -/
structure Line where
  db : Db
  reading : Nat

section
variable (B : Base64)

def insideOf : AttachmentData → Except JsString JsString
  | .base64 text => B.base64urlToUtf8 text
  | .json text => .ok text
  | .links => .error (lit "the attachment is by link, which is not fetched here")
  | .none => .error (lit "the attachment has nothing inside")

/-- An attachment as the mediator sends it. -/
def received (a : Attachment) : DeliveryAttachment :=
  ⟨some a.id, .base64 (B.base64url a.packed)⟩

variable (handle : Delivered → Except JsString Fate)

/-- Whether the handle takes an attachment; one it threw on stays queued. -/
def takes (delivered : Delivered) : Bool :=
  match handle delivered with
  | .ok .acked => true
  | .ok .skip => false
  | .error _ => false

/-- The attachments the handle took, one with no ID to acknowledge it by aside. -/
def take (attachments : List DeliveryAttachment) : List JsString :=
  attachments.filterMap fun a => a.id.bind fun attachmentId =>
    if takes handle ⟨attachmentId, insideOf B a.data⟩ then some attachmentId else none

variable (me : Did) (clock : Nat → Millis)

/-- The replica over HTTP, its envelopes sealed by its own key. -/
def asReplica : Context := ⟨some me, true, none⟩

/-- The attachments taken, acknowledged: how many the mediator was told of. -/
def acknowledgeTaken (ids : List JsString) (line : Line) : Nat × Line :=
  if ids = [] then (0, line)
  else
    let answer := messagesReceived (asReplica me) ids (clock line.reading) line.db
    let line := ⟨answer.2, line.reading + 1⟩
    match answer.1 with
    | some (.status _ _ _) => (ids.length, line)
    | _ => (0, line)

/-- What a drain throws over an answer to another request than the one made. -/
def unexpected (reply : Option Reply) (request : JsString) : JsString :=
  match reply with
  | some reply => lit "mediator answered " ++ reply.type ++ lit " to " ++ request
  | none => lit "no answer to " ++ request

def drainRounds : (rounds acked : Nat) → Line → Except JsString Drained × Line
  | 0, acked, line => (.ok ⟨acked, .rounds⟩, line)
  | rounds + 1, acked, line =>
    match statusRequest (asReplica me) none (clock line.reading) line.db with
    | some (.status count _ _) =>
      if count = 0 then (.ok ⟨acked, .empty⟩, ⟨line.db, line.reading + 1⟩)
      else
        match deliveryRequest (asReplica me) (some count) none (clock (line.reading + 1))
          (clock (line.reading + 2)) line.db with
        | some (.status now _ _) =>
          let line : Line := ⟨line.db, line.reading + 3⟩
          if now ≠ 0 then (.error (lit "mediator answered delivery-request with a status of " ++
            EventStore.decimal now ++ lit " queued and no delivery"), line)
          else (.ok ⟨acked, .empty⟩, line)
        | some (.delivery _ attachments) =>
          let taken := take B handle (attachments.map (received B))
          let told := acknowledgeTaken me clock taken ⟨line.db, line.reading + 2⟩
          if told.1 = 0 then (.ok ⟨acked, .left⟩, told.2)
          else drainRounds rounds (acked + told.1) told.2
        | other => (.error (unexpected other (lit "delivery-request")),
            ⟨line.db, line.reading + 2⟩)
    | other => (.error (unexpected other (lit "status-request")), ⟨line.db, line.reading + 1⟩)

def drain (line : Line) : Except JsString Drained × Line :=
  drainRounds B handle me clock ROUNDS 0 line

/-- The line after so many drains, one after the other. -/
def drains : Nat → Line → Line
  | 0, line => line
  | n + 1, line => drains n (drain B handle me clock line).2

end

/-! ## One round -/

/-- The queue of a replica at the mediator: the replica is active, and no package that waits
when the clock is first read lapses by a later reading. -/
structure Held (me : Did) (clock : Nat → Millis) (db : Db) : Prop where
  conserved : ∃ used kept, Conserved used kept db
  apart : Mediator.hasReplicaAccount db (shortOf me) = false
  active : Mediator.replicaState db (shortOf me) = some .active
  steady : ∀ i, ∀ p ∈ db.packages, clock i < p.expiresAt ↔ clock 0 < p.expiresAt

/-- What waits for the replica, in the order it is handed over. -/
def queue (me : Did) (clock : Nat → Millis) (db : Db) : List (Delivery × Package) :=
  waiting (shortOf me) none (clock 0) db

/-- Whether the handle takes a delivery that waits. -/
def takesRow (B : Base64) (handle : Delivered → Except JsString Fate) (x : Delivery × Package) :
    Bool := takes handle ⟨x.1.id, insideOf B (.base64 (B.base64url x.2.packed))⟩

section
variable {B : Base64} {handle : Delivered → Except JsString Fate} {me : Did}
  {clock : Nat → Millis} {db : Db}

theorem Held.waiting (h : Held me clock db) (i : Nat) :
    waiting (shortOf me) none (clock i) db = queue me clock db := by
  rw [queue, Mediator.waiting, Mediator.waiting]
  have hsame : ∀ ps : List Package, (∀ p ∈ ps, p ∈ db.packages) →
      ps.flatMap (Mediator.queuedOf (shortOf me) none (clock i) db) =
        ps.flatMap (Mediator.queuedOf (shortOf me) none (clock 0) db) := by
    intro ps hps
    induction ps with
    | nil => rfl
    | cons p ps ih =>
        obtain ⟨hp, hps⟩ := List.forall_mem_cons.mp hps
        have hclock : decide (clock i < p.expiresAt) = decide (clock 0 < p.expiresAt) := by
          rw [decide_eq_decide]
          exact h.steady i p hp
        rw [List.flatMap_cons, List.flatMap_cons, ih hps, Mediator.queuedOf, Mediator.queuedOf,
          hclock]
  exact hsame _ fun p hp => Cmp.mem_sortBy.mp hp

theorem Held.inbox (h : Held me clock db) :
    Mediator.inboxOf (asReplica me) db = some (.ok (.ofReplica (shortOf me))) := by
  simp [Mediator.inboxOf, asReplica, h.apart, h.active]

theorem Held.status (h : Held me clock db) (i : Nat) :
    statusRequest (asReplica me) none (clock i) db =
      some (.status (queue me clock db).length false none) := by
  rw [statusRequest, h.inbox]
  show some (Mediator.status _ _ _ _ _) = _
  rw [Mediator.status, Mediator.Inbox.count, Option.map_none, deliveryCount, h.waiting]
  rfl

/-- The first page of the queue, at most ten, whatever is asked for. -/
theorem Held.delivery (h : Held me clock db) (i j : Nat) (hne : queue me clock db ≠ []) :
    deliveryRequest (asReplica me) (some (queue me clock db).length) none (clock i) (clock j) db =
      some (.delivery none (((queue me clock db).take 10).map fun x => ⟨x.1.id, x.2.packed⟩)) := by
  have hpos : 0 < (queue me clock db).length := List.length_pos_iff.mpr hne
  have hlimit : Mediator.pageLimit (some ((queue me clock db).length : Rat)) =
      min (queue me clock db).length 10 := by
    have hfloor : ((queue me clock db).length : Rat).floor = (queue me clock db).length :=
      Rat.floor_intCast _
    rw [Mediator.pageLimit, if_pos (Nat.cast_pos.mpr hpos), hfloor, Int.toNat_natCast]
    rfl
  have hpage : Mediator.deliveriesFor (shortOf me)
      (Mediator.pageLimit (some ((queue me clock db).length : Rat))) none (clock i) db =
      ((queue me clock db).take 10).map fun x => ⟨x.1.id, x.2.packed, x.2.createdAt⟩ := by
    rw [Mediator.deliveriesFor, h.waiting, hlimit, ← List.take_take, List.take_of_length_le]
    rw [List.length_take]
    exact Nat.min_le_right _ _
  have hwaiting : Mediator.Inbox.waiting (Mediator.pageLimit (some ((queue me clock db).length : Rat))) none
      (clock i) db (Mediator.Inbox.ofReplica (shortOf me)) = _ := hpage
  rw [deliveryRequest, h.inbox, Option.map_some]
  dsimp only
  rw [hwaiting]
  cases hq : queue me clock db with
  | nil => exact absurd hq hne
  | cons x q =>
      rw [List.take_succ_cons, List.map_cons]
      simp only [List.map_cons, List.map_map, Function.comp_def]

/-- The database after a replica's deliveries of these IDs ended. -/
def acknowledged (me : Did) (ids : List JsString) (db : Db) : Db :=
  ended (fun d => d.replicaDid == shortOf me && ids.contains d.id) db

theorem Held.received (h : Held me clock db) (ids : List JsString) (i : Nat) :
    messagesReceived (asReplica me) ids (clock i) db =
      (some (.status (deliveryCount (shortOf me) none (clock i) (acknowledged me ids db)) false none),
        acknowledged me ids db) := by
  obtain ⟨used, kept, hconserved⟩ := h.conserved
  rw [messagesReceived, h.inbox]
  have hlands : Sql.transaction Mediator.foreignKeys
      (Mediator.Inbox.acknowledge ids (Mediator.Inbox.ofReplica (shortOf me))) db =
      .ok ((), acknowledged me ids db) := hconserved.keyed.acknowledge_lands (shortOf me) ids
  dsimp only
  rw [hlands]
  rfl

theorem Held.acknowledged (h : Held me clock db) (ids : List JsString) :
    Held me clock (acknowledged me ids db) := by
  obtain ⟨used, kept, hconserved⟩ := h.conserved
  exact ⟨⟨used, kept, Mediator.conserved_ended hconserved _
    (hconserved.keyed.ended _).keys⟩, h.apart, h.active,
    fun i p hp => h.steady i p (Sql.mem_delete.mp hp).1⟩

/-- What is taken of the page leaves the queue, and nothing else does. -/
theorem Held.round (h : Held me clock db) :
    queue me clock (Agent.acknowledged me
      ((Paged.taken 10 (takesRow B handle) (queue me clock db)).map fun x => x.1.id) db) =
      Paged.round 10 (takesRow B handle) (queue me clock db) := by
  obtain ⟨used, kept, hconserved⟩ := h.conserved
  have hnamed := @Paged.filter_named _ 10 (takesRow B handle) _ _ _ (fun x => x.1.id)
    (queue me clock db) (Mediator.waiting_once hconserved _ _ _)
  rw [← hnamed, queue, Agent.acknowledged, hconserved.keyed.waiting_ended]
  refine List.filter_congr fun x hx => ?_
  obtain ⟨p, _, hxp⟩ := List.mem_flatMap.mp hx
  rw [(Mediator.mem_queuedOf hxp).2.1, beq_self_eq_true, Bool.true_and]

/-- The handle's fates over a page. -/
theorem take_page (xs : List (Delivery × Package)) :
    take B handle ((xs.map fun x => (⟨x.1.id, x.2.packed⟩ : Attachment)).map (Agent.received B)) =
      (xs.filter (takesRow B handle)).map fun x => x.1.id := by
  induction xs with
  | nil => rfl
  | cons x xs ih =>
      have hhead : take B handle (((x :: xs).map fun x => (⟨x.1.id, x.2.packed⟩ : Attachment)).map
          (Agent.received B)) = (if takesRow B handle x then some x.1.id else none).toList ++
            take B handle ((xs.map fun x => (⟨x.1.id, x.2.packed⟩ : Attachment)).map
              (Agent.received B)) := Mediator.filterMap_cons_toList _ _ _
      rw [hhead, ih, List.filter_cons]
      split
      · rfl
      · rfl

/-! ## Drains -/

/-- How a drain of so many rounds went: it ran so many of them, and did not throw; where it
ended for want of anything taken or queued, the next page holds nothing to take. -/
structure Went (B : Base64) (handle : Delivered → Except JsString Fate) (me : Did)
    (clock : Nat → Millis) (db : Db) (rounds : Nat)
    (result : Except JsString Drained × Line) : Prop where
  held : Held me clock result.2.db
  ran : ∃ k, queue me clock result.2.db =
    (Paged.round 10 (takesRow B handle))^[k] (queue me clock db)
  ended : ∃ drained, result.1 = .ok drained ∧
    (drained.ended = .rounds →
      (queue me clock result.2.db).length + rounds ≤ (queue me clock db).length) ∧
    (drained.ended ≠ .rounds →
      Paged.taken 10 (takesRow B handle) (queue me clock result.2.db) = [])

theorem drainRounds_went (rounds acked i : Nat) (h : Held me clock db) :
    Went B handle me clock db rounds (drainRounds B handle me clock rounds acked ⟨db, i⟩) := by
  induction rounds generalizing acked i db with
  | zero => exact ⟨h, ⟨0, rfl⟩, _, rfl, fun _ => Nat.le_refl _, fun hne => absurd rfl hne⟩
  | succ rounds ih =>
      rw [drainRounds, h.status]
      dsimp only
      by_cases hempty : queue me clock db = []
      · rw [if_pos (by rw [hempty]; rfl)]
        refine ⟨h, ⟨0, rfl⟩, _, rfl, fun hr => (by cases hr), fun _ => ?_⟩
        rw [hempty]
        rfl
      rw [if_neg (fun hlength => hempty (List.length_eq_zero_iff.mp hlength)), h.delivery _ _ hempty]
      dsimp only
      rw [take_page, acknowledgeTaken]
      have htaken : ((queue me clock db).take 10).filter (takesRow B handle) =
          Paged.taken 10 (takesRow B handle) (queue me clock db) := rfl
      rw [htaken]
      by_cases hnone : Paged.taken 10 (takesRow B handle) (queue me clock db) = []
      · rw [hnone, List.map_nil, if_pos rfl]
        exact ⟨h, ⟨0, rfl⟩, _, rfl, fun hr => (by cases hr), fun _ => hnone⟩
      have hlength : (Paged.round 10 (takesRow B handle) (queue me clock db)).length + _ = _ :=
        Paged.length_round (queue me clock db)
      have hpos := List.length_pos_iff.mpr hnone
      rw [if_neg (fun hnil => hnone (List.map_eq_nil_iff.mp hnil)), h.received]
      dsimp only
      rw [List.length_map, if_neg (Nat.pos_iff_ne_zero.mp hpos)]
      have hrest := ih (acked + (Paged.taken 10 (takesRow B handle) (queue me clock db)).length)
        (i + 2 + 1) (h.acknowledged
          ((Paged.taken 10 (takesRow B handle) (queue me clock db)).map fun x => x.1.id))
      obtain ⟨hheld, ⟨k, hran⟩, drained, hok, hrounds, hstopped⟩ := hrest
      rw [h.round] at hran hrounds
      refine ⟨hheld, ⟨k + 1, ?_⟩, drained, hok, fun hr => ?_, hstopped⟩
      · rw [Function.iterate_succ_apply]
        exact hran
      · have hbound := hrounds hr
        omega

variable (B handle) in
theorem drain_went (h : Held me clock db) (i : Nat) :
    Went B handle me clock db ROUNDS (drain B handle me clock ⟨db, i⟩) :=
  drainRounds_went ROUNDS 0 i h

variable (B handle) in
/-- Drains run rounds. -/
theorem drains_held (h : Held me clock db) (n i : Nat) :
    Held me clock (drains B handle me clock n ⟨db, i⟩).db ∧
      ∃ k, queue me clock (drains B handle me clock n ⟨db, i⟩).db =
        (Paged.round 10 (takesRow B handle))^[k] (queue me clock db) := by
  induction n generalizing db i with
  | zero => exact ⟨h, 0, rfl⟩
  | succ n ih =>
      obtain ⟨hheld, ⟨k, hran⟩, _⟩ := drain_went B handle h i
      obtain ⟨hafter, j, hrest⟩ := ih hheld (drain B handle me clock ⟨db, i⟩).2.reading
      refine ⟨hafter, j + k, ?_⟩
      rw [Function.iterate_add_apply, ← hran]
      exact hrest

variable (B handle) in
/-- After so many drains, nothing is left on the page to take. -/
theorem drains_stop (h : Held me clock db) (i : Nat) :
    ∃ n, Paged.taken 10 (takesRow B handle)
      (queue me clock (drains B handle me clock n ⟨db, i⟩).db) = [] := by
  generalize hlength : (queue me clock db).length = length
  induction length using Nat.strong_induction_on generalizing db i with
  | _ length ih =>
      obtain ⟨hheld, _, drained, _, hrounds, hstopped⟩ := drain_went B handle h i
      by_cases hr : drained.ended = .rounds
      · have hless := hrounds hr
        have hten : ROUNDS = 10 := rfl
        obtain ⟨n, hn⟩ := ih _ (by omega) hheld (drain B handle me clock ⟨db, i⟩).2.reading rfl
        exact ⟨n + 1, hn⟩
      · exact ⟨1, hstopped hr⟩

end

/-- A queue that the mediator holds for an active replica. -/
theorem held_run {options : Mediator.Options} {calls : List Mediator.Call} {me : Did}
    {clock : Nat → Millis} (hfresh : (calls.filterMap Mediator.Call.packageId).Nodup)
    (hpromised : ∀ call ∈ calls, call.Promised)
    (hactive : Mediator.replicaState (Mediator.run options calls .empty) (shortOf me) =
      some .active)
    (hsteady : ∀ i, ∀ p ∈ (Mediator.run options calls .empty).packages,
      clock i < p.expiresAt ↔ clock 0 < p.expiresAt) :
    Held me clock (Mediator.run options calls .empty) := by
  refine ⟨⟨_, [], Mediator.conserved_run options Mediator.conserved_empty
    (by rwa [List.append_nil])⟩, ?_, hactive, hsteady⟩
  have hexclusive := Mediator.exclusive_run options Mediator.exclusive_empty hpromised
  generalize Mediator.run options calls .empty = db at *
  -- no account and replica are of one DID
  obtain ⟨r, hr, _⟩ := Option.map_eq_some_iff.mp hactive
  have honce := hexclusive.once
  rw [Mediator.bindings, List.map_append, List.map_append, List.nodup_append] at honce
  have hapart := (List.nodup_append.mp honce.1).2.2
  rw [Mediator.hasReplicaAccount, List.any_eq_false]
  intro a ha hdid
  refine hapart a.did ?_ r.replicaDid ?_ ?_
  · exact List.mem_map.mpr ⟨_, List.mem_map_of_mem ha, rfl⟩
  · exact List.mem_map.mpr ⟨_, List.mem_map_of_mem (List.mem_of_find?_eq_some hr), rfl⟩
  · have hrdid := List.find?_some hr
    exact (beq_iff_eq.mp hdid).trans (beq_iff_eq.mp hrdid).symm

/-- Over any queue the mediator holds for a replica, with nothing lapsing meanwhile and a handle
that decides each attachment alike each time: some number of drains leaves exactly what the
handle skips, and a drain that ends with mail left leaves nothing it would take, if and only if
fewer than ten skipped attachments stand before each one it takes. -/
theorem drains_reach (B : Base64) (handle : Delivered → Except JsString Fate)
    (options : Mediator.Options) (calls : List Mediator.Call) (me : Did) (clock : Nat → Millis)
    (hfresh : (calls.filterMap Mediator.Call.packageId).Nodup)
    (hpromised : ∀ call ∈ calls, call.Promised)
    (hactive : Mediator.replicaState (Mediator.run options calls .empty) (shortOf me) =
      some .active)
    (hsteady : ∀ i, ∀ p ∈ (Mediator.run options calls .empty).packages,
      clock i < p.expiresAt ↔ clock 0 < p.expiresAt) :
    let start : Line := ⟨Mediator.run options calls .empty, 0⟩
    let waits := queue me clock start.db
    ((∃ n, queue me clock (drains B handle me clock n start).db =
        waits.filter fun x => !takesRow B handle x) ∧
      ∀ n acked, (drain B handle me clock (drains B handle me clock n start)).1 =
          .ok ⟨acked, .left⟩ →
        ∀ x ∈ queue me clock (drain B handle me clock (drains B handle me clock n start)).2.db,
          takesRow B handle x = false) ↔
      ∀ before x after, waits = before ++ x :: after → takesRow B handle x = true →
        (before.filter fun y => !takesRow B handle y).length < 10 := by
  intro start waits
  have hheld := held_run hfresh hpromised hactive hsteady
  constructor
  · intro hreach before x after hsplit htakes
    obtain ⟨⟨n, hn⟩, _⟩ := hreach
    obtain ⟨_, k, hk⟩ := drains_held B handle hheld n 0
    rw [← Nat.not_le]
    intro hlong
    refine Paged.not_settled (n := 10) (q := waits) (a := x)
      ⟨htakes, before, after, hsplit, hlong⟩ k ?_
    rw [← hk]
    exact hn
  · intro hclear
    have hnone : ∀ x, ¬ Paged.Blocked 10 (takesRow B handle) x waits := by
      intro x hblocked
      obtain ⟨htakes, before, after, hsplit, hlong⟩ := hblocked
      exact absurd (hclear before x after hsplit htakes) (Nat.not_lt.mpr hlong)
    refine ⟨?_, fun n acked hleft x hx => ?_⟩
    · obtain ⟨n, hn⟩ := drains_stop B handle hheld 0
      obtain ⟨_, k, hk⟩ := drains_held B handle hheld n 0
      rw [hk] at hn
      exact ⟨n, hk.trans (Paged.settled hn hnone)⟩
    · obtain ⟨hafter, k, hk⟩ := drains_held B handle hheld n 0
      obtain ⟨_, ⟨j, hj⟩, drained, hok, _, hstopped⟩ := drain_went B handle
        hafter (drains B handle me clock n start).reading
      rw [Except.ok.inj (hok.symm.trans hleft)] at hstopped
      have hpage := hstopped fun hne => (by cases hne)
      have hrounds := hj.trans (by rw [hk, ← Function.iterate_add_apply])
      rw [hrounds] at hpage
      have hsettled := hrounds.trans (Paged.settled hpage hnone)
      have hskips : x ∈ waits.filter fun y => !takesRow B handle y := hsettled ▸ hx
      simpa using (List.mem_filter.mp hskips).2

/-- An account's DID, and its replica's. -/
def sampleAccount : Did := DidPeer.prefix4 ++ List.replicate 44 50
def sampleReplica : Did := DidPeer.prefix4 ++ List.replicate 44 51

/-- Mail for the replica: one package after the other, each named by its place. -/
def mail (count : Nat) : List Mediator.Call :=
  [.registerReplicaAccount sampleAccount (sampleAccount ++ lit ":z222222") (lit "did:web:m") true 0
      (lit "r"),
    .addReplica sampleAccount (lit "did:web:m") sampleReplica (sampleReplica ++ lit ":z222222") [] 10
      0] ++
  (List.range count).map fun i =>
    .fanOut [i.toUInt16] (fun _ => [i.toUInt16]) i sampleReplica [i.toUInt16] ⟨none, 1000⟩

theorem promised_mail (count : Nat) : ∀ call ∈ mail count, call.Promised := by
  intro call hcall
  rw [mail, List.mem_append, List.mem_cons, List.mem_singleton, List.mem_map] at hcall
  rcases hcall with (rfl | rfl) | ⟨i, _, rfl⟩
  · exact ⟨by decide +kernel, by decide +kernel, by decide +kernel⟩
  · exact ⟨by decide +kernel, by decide +kernel, by decide +kernel⟩
  · trivial

/-- Takes the mail of these places, and skips the rest. -/
def taking (places : List JsString) (delivered : Delivered) : Except JsString Fate :=
  .ok (if places.contains delivered.attachmentId then .acked else .skip)

/-- Two of three are taken, behind one that is skipped. -/
theorem drains_reach_example :
    let B : Base64 := ⟨id, .ok⟩
    let handle := taking [[1], [2]]
    let clock : Nat → Millis := fun _ => 5
    let start : Line := ⟨Mediator.run ⟨1000, 20⟩ (mail 3) .empty, 0⟩
    (queue sampleReplica clock start.db).map (fun x => x.1.id) = [[0], [1], [2]] ∧
      ∃ n, queue sampleReplica clock (drains B handle sampleReplica clock n start).db =
        (queue sampleReplica clock start.db).filter fun x => !takesRow B handle x := by
  intro B handle clock start
  have hqueue : (queue sampleReplica clock start.db).map (fun x => x.1.id) = [[0], [1], [2]] := by
    decide +kernel
  refine ⟨hqueue, ((drains_reach B handle ⟨1000, 20⟩ (mail 3) sampleReplica clock
    (by decide +kernel) (promised_mail 3) (by decide +kernel) (fun _ _ _ => Iff.rfl)).mpr ?_).1⟩
  intro before x after hsplit _
  have hlength := congrArg List.length hqueue
  rw [List.length_map] at hlength
  have hparts := hlength.symm.trans (congrArg List.length hsplit)
  rw [List.length_append, List.length_cons] at hparts
  have hfilter := List.length_filter_le (fun y => !takesRow B handle y) before
  simp only [List.length_cons, List.length_nil] at hparts
  omega

/-- Ten skipped attachments at the head of the queue hide the eleventh, which the handle would
take: the first drain ends with mail left, and no number of drains reaches it. -/
theorem ten_skipped_hide_the_rest :
    let B : Base64 := ⟨id, .ok⟩
    let handle := taking [[10]]
    let clock : Nat → Millis := fun _ => 15
    let start : Line := ⟨Mediator.run ⟨1000, 20⟩ (mail 11) .empty, 0⟩
    (drain B handle sampleReplica clock start).1 = .ok ⟨0, .left⟩ ∧
      (queue sampleReplica clock (drain B handle sampleReplica clock start).2.db).any
        (takesRow B handle) = true ∧
      ¬ ∃ n, queue sampleReplica clock (drains B handle sampleReplica clock n start).db =
        (queue sampleReplica clock start.db).filter fun x => !takesRow B handle x := by
  intro B handle clock start
  refine ⟨by decide +kernel, by decide +kernel, fun hreach => ?_⟩
  obtain ⟨n, hn⟩ := hreach
  have hheld : Held sampleReplica clock start.db :=
    held_run (by decide +kernel) (promised_mail 11) (by decide +kernel) fun _ _ _ => Iff.rfl
  obtain ⟨_, k, hk⟩ := drains_held B handle hheld n 0
  have hlast : ((queue sampleReplica clock start.db).drop 10).map (fun x => x.1.id) = [[10]] := by
    decide +kernel
  have hhead : 10 ≤ (((queue sampleReplica clock start.db).take 10).filter
      fun x => !takesRow B handle x).length := by decide +kernel
  obtain ⟨x, hdrop, hid⟩ := List.map_eq_singleton_iff.mp hlast
  have htakes : takesRow B handle x = true := by
    show takes handle ⟨x.1.id, _⟩ = true
    rw [hid]
    rfl
  have hsplit := List.take_append_drop 10 (queue sampleReplica clock start.db)
  rw [hdrop] at hsplit
  exact Paged.not_settled ⟨htakes, _, [], hsplit.symm, hhead⟩ k (hk.symm.trans hn)

end Estoc.Agent
