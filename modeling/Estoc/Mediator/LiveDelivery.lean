import Estoc.Mediator.Hub

/-!
# Only the owner's connections hear of its mail

A request reads the queue its sender's proof opens and no other, which is said by what the
answer depends on: everyone else's mail may be taken away before the request goes on, and
it goes on alike. What it acknowledges leaves everyone else's queue as it was. And whatever
leaves over a session, a reply or a delivery that was pushed, is for the DID that session is
bound to, but for the refusal that a stranger's request is answered with.

A request is checked against its connection once, before its first wait. That is enough,
since a proof binds its session before its message is handled: the session is by then bound to
someone for good, or closed for good, and later binds nobody.
-/

set_option linter.unusedSectionVars false

namespace Estoc.Mediator

open Json (lit)
open Utf16 (JsString)
open DidPeer (shortOf)
open Sql (delete mem_delete)

/-! ## One queue of many -/

/-- An inbox is the sender's own. -/
def Inbox.Of (sender : Did) (inbox : Inbox) : Prop :=
  inbox = .ofReplica (shortOf sender) ∨ inbox = .ofAccount sender

/-- The database without anyone else's mail. -/
def mailOf (sender : Did) (db : Db) : Db :=
  { db with
    messages := db.messages.filter (·.ownerDid == sender)
    packages := db.packages.filter fun p =>
      db.deliveries.any fun d => d.replicaDid == shortOf sender && d.packageId == p.id
    deliveries := db.deliveries.filter (·.replicaDid == shortOf sender) }

section
variable {db : Db} {sender : Did}

theorem filter_of_imp {α : Type} {p q : α → Bool} {xs : List α} (h : ∀ x, q x = true → p x = true) :
    (xs.filter p).filter q = xs.filter q := by
  rw [List.filter_filter]
  refine List.filter_congr fun x _ => ?_
  cases hq : q x with
  | false => rfl
  | true => rw [h x hq]; rfl

theorem queuedOf_mailOf (next : Option Did) (now : Millis) (p : Package) :
    queuedOf (shortOf sender) next now (mailOf sender db) p =
      queuedOf (shortOf sender) next now db p := by
  unfold queuedOf
  split
  · refine congrArg _ (filter_of_imp fun d hd => ?_)
    exact (Bool.and_eq_true_iff.mp hd).1
  · rfl

theorem waiting_mailOf (next : Option Did) (now : Millis) :
    waiting (shortOf sender) next now (mailOf sender db) =
      waiting (shortOf sender) next now db := by
  have hpackages : (mailOf sender db).packages = db.packages.filter fun p =>
    db.deliveries.any fun d => d.replicaDid == shortOf sender && d.packageId == p.id := rfl
  rw [waiting, waiting, hpackages, ← Cmp.filter_sortBy, flatMap_filter_of_nil]
  · exact congrArg (fun f => List.flatMap f _) (funext fun p => queuedOf_mailOf next now p)
  · -- a package that was taken away had no delivery for the sender
    intro p _ hout
    rw [queuedOf_mailOf, List.eq_nil_iff_forall_not_mem]
    intro x hx
    obtain ⟨hd, hof, hid, _⟩ := mem_queuedOf hx
    rw [List.any_eq_false] at hout
    exact hout x.1 hd (by rw [hof, hid, beq_self_eq_true, beq_self_eq_true]; rfl)

theorem messages_mailOf (now : Millis) :
    ((mailOf sender db).messages.filter fun m => m.ownerDid == sender && now < m.expiresAt) =
      db.messages.filter fun m => m.ownerDid == sender && now < m.expiresAt :=
  filter_of_imp fun _ hm => (Bool.and_eq_true_iff.mp hm).1

theorem count_mailOf {inbox : Inbox} (h : inbox.Of sender) (recipientDid : Option Did)
    (now : Millis) :
    inbox.count recipientDid now (mailOf sender db) = inbox.count recipientDid now db := by
  rcases h with rfl | rfl
  · rw [Inbox.count, Inbox.count, deliveryCount, deliveryCount, waiting_mailOf]
  · rw [Inbox.count, Inbox.count, messageCount, messageCount, messages_mailOf]

theorem inbox_waiting_mailOf {inbox : Inbox} (h : inbox.Of sender) (limit : Nat)
    (recipientDid : Option Did) (now : Millis) :
    inbox.waiting limit recipientDid now (mailOf sender db) =
      inbox.waiting limit recipientDid now db := by
  rcases h with rfl | rfl
  · rw [Inbox.waiting, Inbox.waiting, deliveriesFor, deliveriesFor, waiting_mailOf]
  · rw [Inbox.waiting, Inbox.waiting, messagesFor, messagesFor, messages_mailOf]

/-- What a sender has left alone is a database still. -/
theorem Keyed.mailOf (h : Keyed db) (sender : Did) : Keyed (mailOf sender db) where
  keys := by
    have hkeys := h.keys
    simp only [foreignKeys, Bool.and_eq_true, List.all_eq_true] at hkeys ⊢
    obtain ⟨⟨⟨⟨⟨⟨⟨⟨hkeylist, hmessages⟩, huploads⟩, hreplicas⟩, hrecipients⟩, hpackages⟩,
      hdeliveries⟩, hexecutions⟩, hregistrations⟩ := hkeys
    refine ⟨⟨⟨⟨⟨⟨⟨⟨hkeylist, fun m hm => hmessages m (List.mem_of_mem_filter hm)⟩, huploads⟩,
      hreplicas⟩, hrecipients⟩, fun p hp => hpackages p (List.mem_of_mem_filter hp)⟩,
      fun d hd => ?_⟩, hexecutions⟩, hregistrations⟩
    obtain ⟨hmem, hof⟩ := List.mem_filter.mp hd
    refine ⟨?_, (hdeliveries d hmem).2⟩
    obtain ⟨p, hp, hid⟩ := (keys_delivery h.keys hmem).1
    rw [hasPackage, List.any_eq_true]
    refine ⟨p, List.mem_filter.mpr ⟨hp, List.any_eq_true.mpr ⟨d, hmem, ?_⟩⟩, beq_iff_eq.mpr hid⟩
    rw [hof, hid, beq_self_eq_true]
    rfl
  deliveryOnce := (List.filter_sublist.map _).nodup h.deliveryOnce

/-- The database once an inbox has acknowledged some of its mail. -/
def Inbox.acknowledged (ids : List JsString) (db : Db) : Inbox → Db
  | ofReplica did => ended (fun d => d.replicaDid == did && ids.contains d.id) db
  | ofAccount did =>
    { db with messages := delete (fun m => m.ownerDid == did && ids.contains m.id) db.messages }

theorem Keyed.delete_messages (h : Keyed db) (which : Message → Bool) :
    Keyed { db with messages := delete which db.messages } where
  keys := by
    have hkeys := h.keys
    simp only [foreignKeys, Bool.and_eq_true, List.all_eq_true] at hkeys ⊢
    obtain ⟨⟨⟨⟨⟨⟨⟨⟨hkeylist, hmessages⟩, huploads⟩, hreplicas⟩, hrecipients⟩, hpackages⟩,
      hdeliveries⟩, hexecutions⟩, hregistrations⟩ := hkeys
    exact ⟨⟨⟨⟨⟨⟨⟨⟨hkeylist, fun m hm => hmessages m (mem_delete.mp hm).1⟩, huploads⟩,
      hreplicas⟩, hrecipients⟩, hpackages⟩, hdeliveries⟩, hexecutions⟩, hregistrations⟩
  deliveryOnce := h.deliveryOnce

theorem Keyed.acknowledged (h : Keyed db) (inbox : Inbox) (ids : List JsString) :
    Keyed (inbox.acknowledged ids db) := by
  cases inbox with
  | ofReplica did => exact h.ended _
  | ofAccount did => exact h.delete_messages _

theorem Keyed.acknowledge_ok (h : Keyed db) (inbox : Inbox) (ids : List JsString) :
    Sql.transaction foreignKeys (inbox.acknowledge ids) db =
      .ok ((), inbox.acknowledged ids db) := by
  cases inbox with
  | ofReplica did => exact h.acknowledge_lands did ids
  | ofAccount did =>
      have hkeys := (h.delete_messages fun m => m.ownerDid == did && ids.contains m.id).keys
      have hnot : ¬ foreignKeys ((Inbox.ofAccount did).acknowledged ids db) = false := by
        rw [Inbox.acknowledged, hkeys]
        exact Bool.noConfusion
      have hbatch : deleteMessages did ids ⟨db, false⟩ =
          .ok ((), ⟨(Inbox.ofAccount did).acknowledged ids db, false⟩) := by
        show (Checked.refuse (false = false ∧ foreignKeys _ = false) Sql.Fault.foreignKey >>= _) = _
        rw [Checked.refuse_of_not fun h => hnot h.2]
        rfl
      rw [Sql.transaction, Inbox.acknowledge, hbatch]
      show (Checked.refuse (foreignKeys _ = false) Sql.Fault.foreignKey >>= _) = _
      rw [Checked.refuse_of_not hnot]
      rfl

/-- An acknowledgement leaves every other inbox as it was. -/
theorem Keyed.acknowledged_others (h : Keyed db) {inbox other : Inbox} (hother : other ≠ inbox)
    (ids : List JsString) (limit : Nat) (recipientDid : Option Did) (now : Millis) :
    other.waiting limit recipientDid now (inbox.acknowledged ids db) =
        other.waiting limit recipientDid now db ∧
      other.count recipientDid now (inbox.acknowledged ids db) = other.count recipientDid now db := by
  cases inbox with
  | ofReplica did =>
      cases other with
      | ofAccount owner => exact ⟨rfl, rfl⟩
      | ofReplica replica =>
          have hne : replica ≠ did := fun heq => hother (congrArg Inbox.ofReplica heq)
          have hsame (next : Option Did) : Mediator.waiting replica next now
              ((Inbox.ofReplica did).acknowledged ids db) = Mediator.waiting replica next now db := by
            rw [Inbox.acknowledged, h.waiting_ended, List.filter_eq_self]
            intro x hx
            obtain ⟨p, _, hx⟩ := List.mem_flatMap.mp hx
            rw [(mem_queuedOf hx).2.1, beq_eq_false_iff_ne.mpr hne]
            rfl
          simp only [Inbox.waiting, Inbox.count, deliveriesFor, deliveryCount, hsame, and_self]
  | ofAccount did =>
      cases other with
      | ofReplica replica => exact ⟨rfl, rfl⟩
      | ofAccount owner =>
          have hne : owner ≠ did := fun heq => hother (congrArg Inbox.ofAccount heq)
          have hsame : (((Inbox.ofAccount did).acknowledged ids db).messages.filter fun m =>
              m.ownerDid == owner && now < m.expiresAt) =
                db.messages.filter fun m => m.ownerDid == owner && now < m.expiresAt := by
            refine filter_of_imp fun m hm => ?_
            show (!(m.ownerDid == did && ids.contains m.id)) = true
            rw [beq_iff_eq.mp (Bool.and_eq_true_iff.mp hm).1, beq_eq_false_iff_ne.mpr hne]
            rfl
          simp only [Inbox.waiting, Inbox.count, messagesFor, messageCount, hsame, and_self]

end

/-! ## One request from wait to wait -/

/-- What a request of this sender waits for is the sender's own. -/
def Wait.Of (sender : Did) : Wait → Prop
  | .inbox found => found.Of sender
  | .waiting found _ _ => found.Of sender
  | .acknowledge found _ => found.Of sender
  | .count found _ => found.Of sender
  | _ => True

section
variable {now : Millis} {r : PickupRequest} {s : Sessions} {db : Db}

theorem advance_wait (h : r.wait.Of r.sender) {wait : Wait}
    (hnext : (advance now r s db).1 = .wait wait) : wait.Of r.sender := by
  unfold advance at hnext
  split at hnext
  · split at hnext
    · cases hnext
    · cases hnext
      trivial
  · split at hnext
    · split at hnext
      · cases hnext
      · split at hnext
        · cases hnext
        · cases hnext
          exact .inl rfl
    · cases hnext
      trivial
  · split at hnext
    · cases hnext
      exact .inr rfl
    · cases hnext
  · next found hwait =>
      rw [hwait] at h
      split at hnext
      · cases hnext
        exact h
      · cases hnext
        exact h
      · cases hnext
        exact h
      · split at hnext
        · cases hnext
        · cases hnext
          exact h
  · next found limit recipientDid hwait =>
      rw [hwait] at h
      split at hnext
      · cases hnext
        exact h
      · cases hnext
  · next found ids hwait =>
      rw [hwait] at h
      split at hnext
      · cases hnext
        exact h
      · cases hnext
  · cases hnext
    trivial
  · cases hnext
  · cases hnext

/-- A request touches one live mode at most, that of its own connection. -/
theorem advance_sessions (now : Millis) (r : PickupRequest) (s : Sessions) (db : Db) :
    (advance now r s db).2.1 = s ∨
    ∃ i live, r.session = some i ∧ (advance now r s db).2.1 = s.setLiveDelivery i live := by
  unfold advance
  split
  · split <;> exact .inl rfl
  · split
    · split
      · exact .inl rfl
      · split <;> exact .inl rfl
    · exact .inl rfl
  · split <;> exact .inl rfl
  · split
    · exact .inl rfl
    · exact .inl rfl
    · exact .inl rfl
    · next live hbody =>
        split
        · exact .inl rfl
        · next i hsession => exact .inr ⟨i, live, hsession, rfl⟩
  · split <;> exact .inl rfl
  · split <;> exact .inl rfl
  · exact .inl rfl
  · exact .inl rfl
  · exact .inl rfl

/-- A request changes the database by acknowledging, and by that alone. -/
theorem advance_db (now : Millis) (r : PickupRequest) (s : Sessions) (h : Keyed db) :
    (advance now r s db).2.2 = db ∨
    ∃ inbox ids, r.wait = .acknowledge inbox ids ∧
      (advance now r s db).2.2 = inbox.acknowledged ids db := by
  unfold advance
  split
  · split <;> exact .inl rfl
  · split
    · split
      · exact .inl rfl
      · split <;> exact .inl rfl
    · exact .inl rfl
  · split <;> exact .inl rfl
  · split
    · exact .inl rfl
    · exact .inl rfl
    · exact .inl rfl
    · split <;> exact .inl rfl
  · split <;> exact .inl rfl
  · next inbox ids hwait =>
      rw [h.acknowledge_ok]
      exact .inr ⟨inbox, ids, hwait, rfl⟩
  · exact .inl rfl
  · exact .inl rfl
  · exact .inl rfl

/-- A request goes on as it would with everyone else's mail away. -/
theorem advance_mailOf (now : Millis) (s : Sessions) (h : Keyed db) (hof : r.wait.Of r.sender) :
    (advance now r s (mailOf r.sender db)).1 = (advance now r s db).1 ∧
      (advance now r s (mailOf r.sender db)).2.1 = (advance now r s db).2.1 := by
  cases hwait : r.wait with
  | isReplicaAccount =>
      have hheld : hasReplicaAccount (Mediator.mailOf r.sender db) (shortOf r.sender) =
        hasReplicaAccount db (shortOf r.sender) := rfl
      simp only [advance, hwait, hheld]
      split <;> exact ⟨rfl, rfl⟩
  | replicaState =>
      have hstate : replicaState (Mediator.mailOf r.sender db) (shortOf r.sender) =
        replicaState db (shortOf r.sender) := rfl
      simp only [advance, hwait, hstate]
      split
      · split
        · exact ⟨rfl, rfl⟩
        · split <;> exact ⟨rfl, rfl⟩
      · exact ⟨rfl, rfl⟩
  | isMediated =>
      have hheld : hasAccount (Mediator.mailOf r.sender db) r.sender = hasAccount db r.sender := rfl
      simp only [advance, hwait, hheld]
      split <;> exact ⟨rfl, rfl⟩
  | inbox found =>
      simp only [advance, hwait]
      split
      · exact ⟨rfl, rfl⟩
      · exact ⟨rfl, rfl⟩
      · exact ⟨rfl, rfl⟩
      · split <;> exact ⟨rfl, rfl⟩
  | waiting found limit recipientDid =>
      rw [hwait] at hof
      simp only [advance, hwait, inbox_waiting_mailOf hof]
      split <;> exact ⟨rfl, rfl⟩
  | acknowledge found ids =>
      simp only [advance, hwait, h.acknowledge_ok, (h.mailOf r.sender).acknowledge_ok, and_self]
  | count found recipientDid =>
      rw [hwait] at hof
      simp only [advance, hwait, count_mailOf hof, and_self]
  | status n recipientDid => simp only [advance, hwait, and_self]
  | pack reply => simp only [advance, hwait, and_self]

end

/-! ## What a run keeps -/

/-- A request that may go on came over no session, or over one that is its sender's if it is
open at all. -/
def PickupRequest.Belongs (r : PickupRequest) (s : Sessions) : Prop :=
  ∀ i, r.session = some i → s.isOpen i = true → s.BoundTo i r.sender

/-- A request in flight goes on with its sender's own, or waits to say no. -/
structure PickupRequest.Right (r : PickupRequest) (s : Sessions) : Prop where
  known : ∀ i, r.session = some i → i < s.opened.length
  right : (∃ code, r.wait = .pack (.problem code)) ∨ r.Belongs s ∧ r.wait.Of r.sender

structure Hub.Right (hub : Hub) : Prop where
  sessions : hub.sessions.Right
  db : Keyed hub.db
  requests : ∀ r ∈ hub.requests, r.Right hub.sessions

section
variable {r : PickupRequest} {s t : Sessions}

theorem Sessions.BoundTo.later {i : Nat} {did : Did} (h : s.BoundTo i did) (hlater : s.Later t) :
    t.BoundTo i did := by
  obtain ⟨held, hheld, hsame⟩ := h
  exact ⟨held, hlater.bound i held hheld, hsame⟩

theorem PickupRequest.Right.later (h : r.Right s) (hlater : s.Later t) : r.Right t where
  known i hi := lt_of_lt_of_le (h.known i hi) hlater.grows
  right := by
    rcases h.right with hno | ⟨hbelongs, hof⟩
    · exact .inl hno
    · refine .inr ⟨fun i hi hopen => ?_, hof⟩
      exact (hbelongs i hi (hlater.closed i (h.known i hi) hopen)).later hlater

/-- What is left of a request that went on is right where it was. -/
theorem PickupRequest.next_right (hknown : ∀ i, r.session = some i → i < s.opened.length)
    {next : Next}
    (hwait : ∀ wait, next = .wait wait → r.Belongs s ∧ wait.Of r.sender)
    (hreply : ∀ reply, next = .reply (some reply) → (∃ code, reply = .problem code) ∨ r.Belongs s) :
    ∀ q ∈ r.next next, q.Right s := by
  intro q hq
  cases next with
  | wait wait =>
      obtain rfl := List.mem_singleton.mp hq
      exact ⟨hknown, .inr (hwait wait rfl)⟩
  | reply reply =>
      cases reply with
      | none => cases hq
      | some reply =>
          have hnext : r.next (.reply (some reply)) =
            if r.routed then [{ r with wait := .pack reply }] else [] := rfl
          rw [hnext] at hq
          split at hq
          · obtain rfl := List.mem_singleton.mp hq
            refine ⟨hknown, ?_⟩
            rcases hreply reply rfl with ⟨code, rfl⟩ | hbelongs
            · exact .inl ⟨code, rfl⟩
            · exact .inr ⟨hbelongs, trivial⟩
          · cases hq

end

/-! ## Steps -/

/-- The DID an event binds a session to, if the session has none: the one it was saved with,
or the one an envelope over it proved while it was open. -/
def provedBy (i : Nat) : HubEvent → Sessions → Option Did
  | .accept saved, s => if i = s.opened.length then saved.bind SessionState.did else none
  | .envelope (some j) (some did) _ _ _, s => if j = i ∧ s.isOpen i = true then some did else none
  | _, _ => none

/-- A step that no session has a part in. -/
structure Quiet (hub hub' : Hub) : Prop where
  sessions : hub'.sessions = hub.sessions
  db : Keyed hub.db → Keyed hub'.db
  requests : ∀ r ∈ hub'.requests, r ∈ hub.requests
  sent : hub'.sent = hub.sent

/-- All that a step can do. -/
inductive HubStepped (hub : Hub) : HubEvent → Hub → Prop where
  | accept (saved : Option SessionState) :
      HubStepped hub (.accept saved) { hub with sessions := hub.sessions.openSession saved }
  | envelope {session : Option Nat} {verifiedFrom : Option Did} {authcrypted returnRoute : Bool}
      {pickup : Option PickupBody} (known : ∀ i, session = some i → i < hub.sessions.opened.length)
      {after : Sessions × Bool}
      (opened : after =
        returnRouteOpen session returnRoute (bindProof session verifiedFrom hub.sessions)) :
      HubStepped hub (.envelope session verifiedFrom authcrypted returnRoute pickup)
        { hub with
          sessions := after.1
          requests := hub.requests ++ begin session verifiedFrom authcrypted after.2 pickup after.1 }
  | reply {n : Nat} {now : Millis} {r : PickupRequest} {reply : Reply}
      (there : hub.requests[n]? = some r) (wait : r.wait = .pack reply) :
      HubStepped hub (.go n now)
        { hub with
          requests := hub.requests.eraseIdx n
          sent := hub.sent ++ sendReply r reply hub.sessions }
  | go {n : Nat} {now : Millis} {r : PickupRequest} (there : hub.requests[n]? = some r)
      (wait : ∀ reply, r.wait ≠ .pack reply) {after : Next × Sessions × Db}
      (advanced : after = advance now r hub.sessions hub.db) :
      HubStepped hub (.go n now)
        { hub with
          sessions := after.2.1
          db := after.2.2
          requests := hub.requests.take n ++ r.next after.1 ++ hub.requests.drop (n + 1) }
  | close (i : Nat) : HubStepped hub (.close i) { hub with sessions := hub.sessions.close i }
  | restart {survivors : List Nat} (once : survivors.Nodup)
      (live : ∀ i ∈ survivors, hub.sessions.isOpen i = true) :
      HubStepped hub (.restart survivors)
        { hub with
          sessions := hub.sessions.restart survivors
          requests := hub.requests.filter (·.session.isNone) }
  | push {n : Nat} {push : Push} (there : hub.pushes[n]? = some push) :
      HubStepped hub (.push n)
        { hub with
          pushes := hub.pushes.eraseIdx n
          sent := hub.sent ++ (hub.sessions.liveSessionsFor push.ownerDid).map
            (Sent.delivery · push.ownerDid push.messages) }
  | quiet {event : HubEvent} {hub' : Hub} (quiet : Quiet hub hub')
      (unproved : ∀ i, provedBy i event hub.sessions = none) : HubStepped hub event hub'

section
variable {s : Sessions} {hub hub' : Hub} {i : Nat}

/-- A step does one of these. -/
theorem hub_stepped {event : HubEvent} (hstep : hubStep event hub = some hub') :
    HubStepped hub event hub' := by
  cases event with
  | accept saved =>
      obtain rfl := Option.some.inj hstep
      exact .accept saved
  | envelope session verifiedFrom authcrypted returnRoute pickup =>
      simp only [hubStep] at hstep
      split at hstep
      · next hknown =>
          obtain rfl := Option.some.inj hstep
          refine .envelope (fun i hi => ?_) rfl
          subst hi
          simpa using hknown
      · cases hstep
  | go n now =>
      simp only [hubStep] at hstep
      split at hstep
      · cases hstep
      · next r hr =>
          split at hstep <;> obtain rfl := Option.some.inj hstep
          · next reply hwait => exact .reply hr hwait
          · next hnot => exact .go hr hnot rfl
  | fail n =>
      obtain rfl := Option.some.inj hstep
      exact .quiet ⟨rfl, id, fun _ => List.mem_of_mem_eraseIdx, rfl⟩ fun _ => rfl
  | close i =>
      obtain rfl := Option.some.inj hstep
      exact .close i
  | restart survivors =>
      simp only [hubStep] at hstep
      split at hstep
      · next hsurvive =>
          obtain rfl := Option.some.inj hstep
          exact .restart hsurvive.1 (List.all_eq_true.mp hsurvive.2)
      · cases hstep
  | offer ownerDid messages =>
      simp only [hubStep] at hstep
      split at hstep <;> obtain rfl := Option.some.inj hstep <;>
        exact .quiet ⟨rfl, id, fun _ hr => hr, rfl⟩ fun _ => rfl
  | push n =>
      simp only [hubStep] at hstep
      split at hstep
      · cases hstep
      · next push hpush =>
          split at hstep
          · obtain rfl := Option.some.inj hstep
            exact .push hpush
          · split at hstep <;> obtain rfl := Option.some.inj hstep <;>
              exact .quiet ⟨rfl, id, fun _ hr => hr, rfl⟩ fun _ => rfl
  | failPush n =>
      obtain rfl := Option.some.inj hstep
      exact .quiet ⟨rfl, id, fun _ hr => hr, rfl⟩ fun _ => rfl
  | elsewhere db =>
      simp only [hubStep] at hstep
      split at hstep
      · next hkeyed =>
          obtain rfl := Option.some.inj hstep
          exact .quiet ⟨rfl, fun _ => hkeyed, fun _ hr => hr, rfl⟩ fun _ => rfl
      · cases hstep

/-! ## What a step keeps -/

theorem Sessions.Right.bindProof (h : s.Right) (session : Option Nat) (verifiedFrom : Option Did) :
    (bindProof session verifiedFrom s).Right := by
  unfold Mediator.bindProof
  split
  · exact h.bindFirst _ _
  · exact h

theorem later_bindProof (session : Option Nat) (verifiedFrom : Option Did) :
    s.Later (bindProof session verifiedFrom s) := by
  unfold bindProof
  split
  · exact Sessions.later_bindFirst
  · exact .refl s

theorem Sessions.Right.returnRouteOpen (h : s.Right) (session : Option Nat) (requested : Bool) :
    (returnRouteOpen session requested s).1.Right := by
  unfold Mediator.returnRouteOpen
  split
  · exact h
  · cases requested with
    | false => exact h
    | true => exact h.setReturnRoute _ _

theorem later_returnRouteOpen (session : Option Nat) (requested : Bool) :
    s.Later (returnRouteOpen session requested s).1 := by
  unfold returnRouteOpen
  split
  · exact .refl s
  · cases requested with
    | false => exact .refl s
    | true => exact Sessions.later_setReturnRoute true

/-- A session is bound when it has met a proof, if it is open. -/
theorem didOf_bindProof {i : Nat} {sender : Did}
    (hopen : (bindProof (some i) (some sender) s).isOpen i = true) :
    (bindProof (some i) (some sender) s).didOf i ≠ none := by
  have hdid := Sessions.didOf_bindFirst (s := s) (i := i) sender i
  have hwas : s.isOpen i = true := Sessions.isOpen_modify Sessions.bindFirst_opened
    (fun x hx => (Sessions.closed_bound x).trans hx) hopen
  rw [if_pos ⟨rfl, hwas⟩] at hdid
  rw [show (bindProof (some i) (some sender) s).didOf i = (s.bindFirst i sender).didOf i from rfl, hdid]
  cases s.didOf i <;> exact Option.some_ne_none _

/-- A request begins as its sender's own, or is refused. -/
theorem begin_right {session : Option Nat} {verifiedFrom : Option Did} {authcrypted routed : Bool}
    {pickup : Option PickupBody} (hknown : ∀ i, session = some i → i < s.opened.length)
    (hproved : ∀ i sender, session = some i → verifiedFrom = some sender → s.isOpen i = true →
      s.didOf i ≠ none) :
    ∀ r ∈ begin session verifiedFrom authcrypted routed pickup s, r.Right s := by
  intro r hr
  unfold begin at hr
  split at hr
  · next sender body =>
      simp only at hr
      split at hr
      · exact PickupRequest.next_right hknown (fun _ h => by cases h)
          (fun reply h => .inl ⟨_, by cases h; rfl⟩) r hr
      · next hsame =>
          obtain rfl := List.mem_singleton.mp hr
          refine ⟨hknown, .inr ⟨fun i hi hopen => ?_, trivial⟩⟩
          obtain ⟨held, hheld⟩ := Option.ne_none_iff_exists'.mp (hproved i sender hi rfl hopen)
          refine ⟨held, hheld, ?_⟩
          rw [show session = some i from hi] at hsame
          simpa [hheld] using hsame
  · cases hr

theorem later_advance (now : Millis) (r : PickupRequest) (s : Sessions) (db : Db) :
    s.Later (advance now r s db).2.1 := by
  rcases advance_sessions now r s db with hsame | ⟨i, live, _, hset⟩
  · rw [hsame]
    exact .refl s
  · rw [hset]
    exact Sessions.later_setLiveDelivery live

theorem Sessions.Right.advance {now : Millis} {r : PickupRequest} {db : Db} (h : s.Right) :
    (advance now r s db).2.1.Right := by
  rcases advance_sessions now r s db with hsame | ⟨i, live, _, hset⟩
  · rw [hsame]
    exact h
  · rw [hset]
    exact h.setLiveDelivery i live

theorem Keyed.advance {now : Millis} {r : PickupRequest} {db : Db} (h : Keyed db) :
    Keyed (advance now r s db).2.2 := by
  rcases advance_db now r s h with hsame | ⟨inbox, ids, _, hset⟩
  · rw [hsame]
    exact h
  · rw [hset]
    exact h.acknowledged inbox ids

theorem Hub.Right.later (h : hub.Right) {sessions : Sessions} (hright : sessions.Right)
    (hlater : hub.sessions.Later sessions) : ({ hub with sessions } : Hub).Right where
  sessions := hright
  db := h.db
  requests r hr := (h.requests r hr).later hlater

/-- A step keeps what is right, and what was bound. -/
theorem Hub.Right.step (h : hub.Right) {event : HubEvent} (hstep : hubStep event hub = some hub') :
    hub'.Right ∧ hub.sessions.Later hub'.sessions := by
  cases hub_stepped hstep with
  | accept saved =>
      have hlater := Sessions.later_openSession (s := hub.sessions) saved
      exact ⟨h.later (h.sessions.openSession saved) hlater, hlater⟩
  | @envelope session verifiedFrom _ returnRoute _ known after opened =>
      have hright := (h.sessions.bindProof session verifiedFrom).returnRouteOpen session returnRoute
      have hbinds := later_bindProof (s := hub.sessions) session verifiedFrom
      have hroute := later_returnRouteOpen (s := bindProof session verifiedFrom hub.sessions) session
        returnRoute
      rw [← opened] at hright hroute
      have hlater := hbinds.trans hroute
      refine ⟨⟨hright, h.db, fun r hr => ?_⟩, hlater⟩
      rcases List.mem_append.mp hr with hr | hr
      · exact (h.requests r hr).later hlater
      · refine begin_right (fun i hi => lt_of_lt_of_le (known i hi) hlater.grows) ?_ r hr
        intro i sender hi hsender hopen
        subst hi hsender
        obtain ⟨held, hheld⟩ := Option.ne_none_iff_exists'.mp (didOf_bindProof
          (hroute.closed i (lt_of_lt_of_le (known i rfl) hbinds.grows) hopen))
        rw [hroute.bound i held hheld]
        exact Option.some_ne_none held
  | reply there wait =>
      exact ⟨⟨h.sessions, h.db, fun q hq => h.requests q (List.mem_of_mem_eraseIdx hq)⟩, .refl _⟩
  | @go n now r there wait after advanced =>
      have hlater := later_advance now r hub.sessions hub.db
      have hright := h.requests r (List.mem_of_getElem? there)
      subst advanced
      refine ⟨⟨h.sessions.advance, h.db.advance, fun q hq => ?_⟩, hlater⟩
      rcases List.mem_append.mp hq with hq | hq
      · rcases List.mem_append.mp hq with hq | hq
        · exact (h.requests q (List.mem_of_mem_take hq)).later hlater
        · rcases hright.right with ⟨code, hpack⟩ | ⟨hbelongs, hof⟩
          · exact absurd hpack (wait _)
          · exact ((PickupRequest.next_right hright.known
              (fun wait hnext => ⟨hbelongs, advance_wait hof hnext⟩) fun _ _ => .inr hbelongs)
                q hq).later hlater
      · exact (h.requests q (List.mem_of_mem_drop hq)).later hlater
  | close i =>
      have hlater := Sessions.later_close (s := hub.sessions) (i := i)
      exact ⟨h.later (h.sessions.close i) hlater, hlater⟩
  | restart once live =>
      have hlater := h.sessions.later_restart live
      refine ⟨⟨Sessions.right_restart once, h.db, fun q hq => ?_⟩, hlater⟩
      exact (h.requests q (List.mem_of_mem_filter hq)).later hlater
  | push there => exact ⟨⟨h.sessions, h.db, h.requests⟩, .refl _⟩
  | quiet quiet _ =>
      rw [quiet.sessions]
      refine ⟨⟨quiet.sessions ▸ h.sessions, quiet.db h.db, fun r hr => ?_⟩, .refl _⟩
      rw [quiet.sessions]
      exact h.requests r (quiet.requests r hr)

theorem Hub.Right.run (h : hub.Right) {events : List HubEvent}
    (hrun : hubRun events hub = some hub') : hub'.Right ∧ hub.sessions.Later hub'.sessions := by
  induction events generalizing hub with
  | nil =>
      obtain rfl := Option.some.inj hrun
      exact ⟨h, .refl _⟩
  | cons event events ih =>
      obtain ⟨hub1, hstep, hrun⟩ := Option.bind_eq_some_iff.mp hrun
      obtain ⟨h1, hlater⟩ := h.step hstep
      obtain ⟨h', hlater'⟩ := ih h1 hrun
      exact ⟨h', hlater.trans hlater'⟩

theorem right_start {db : Db} (hdb : Keyed db) : (Hub.start db).Right :=
  ⟨Sessions.right_empty, hdb, fun _ hr => (by cases hr)⟩

end

/-! ## The first proof -/

def firstProof (i : Nat) : List HubEvent → Hub → Option Did
  | [], _ => none
  | event :: events, hub =>
    (provedBy i event hub.sessions).or ((hubStep event hub).bind (firstProof i events))

section
variable {s : Sessions} {hub hub' : Hub} {i : Nat}

theorem didOf_returnRouteOpen (session : Option Nat) (requested : Bool) :
    (returnRouteOpen session requested s).1.didOf i = s.didOf i := by
  unfold returnRouteOpen
  split
  · rfl
  · cases requested with
    | false => rfl
    | true => exact Sessions.didOf_setReturnRoute true i

theorem didOf_step (h : hub.Right) {event : HubEvent} (hstep : hubStep event hub = some hub') :
    hub'.sessions.didOf i = (hub.sessions.didOf i).or (provedBy i event hub.sessions) := by
  cases hub_stepped hstep with
  | accept saved => exact Sessions.didOf_openSession saved i
  | @envelope session verifiedFrom _ returnRoute _ known after opened =>
      subst opened
      refine (didOf_returnRouteOpen session returnRoute).trans ?_
      cases session with
      | none => exact (Option.or_none ..).symm
      | some j =>
          cases verifiedFrom with
          | none => exact (Option.or_none ..).symm
          | some did => exact Sessions.didOf_bindFirst did i
  | reply there wait => exact (Option.or_none ..).symm
  | @go n now r there wait after advanced =>
      subst advanced
      refine Eq.trans ?_ (Option.or_none ..).symm
      rcases advance_sessions now r hub.sessions hub.db with
        hsame | ⟨j, live, _, hset⟩
      · exact congrArg (Sessions.didOf · i) hsame
      · exact (congrArg (Sessions.didOf · i) hset).trans (Sessions.didOf_setLiveDelivery live i)
  | close j => exact (Sessions.didOf_close i).trans (Option.or_none ..).symm
  | restart once live => exact (h.sessions.didOf_restart live i).trans (Option.or_none ..).symm
  | push there => exact (Option.or_none ..).symm
  | quiet quiet unproved => rw [quiet.sessions, unproved, Option.or_none]

/-- A session is bound to what it was first, or else to what it first proved. -/
theorem didOf_run (h : hub.Right) {events : List HubEvent} (hrun : hubRun events hub = some hub') :
    hub'.sessions.didOf i = (hub.sessions.didOf i).or (firstProof i events hub) := by
  induction events generalizing hub with
  | nil =>
      obtain rfl := Option.some.inj hrun
      exact (Option.or_none ..).symm
  | cons event events ih =>
      obtain ⟨hub1, hstep, hrun⟩ := Option.bind_eq_some_iff.mp hrun
      rw [ih (h.step hstep).1 hrun, didOf_step h hstep, firstProof, hstep, Option.bind_some,
        Option.or_assoc]

/-! ## What leaves -/

/-- What leaves over a session is for the DID it is bound to, but for a refusal. -/
def Sent.Fits (s : Sessions) : Sent → Prop
  | .delivery i ownerDid _ =>
    s.isOpen i = true ∧ s.BoundTo i ownerDid ∧ s.liveDelivery i = true
  | .reply (some i) replyTo told =>
    s.isOpen i = true ∧ ((∃ code, told = .problem code) ∨ s.BoundTo i replyTo)
  | .reply none _ _ => True

theorem sendReply_fits {r : PickupRequest} (h : r.Right s) {reply : Reply}
    (hwait : r.wait = .pack reply) : ∀ x ∈ sendReply r reply s, x.Fits s := by
  intro x hx
  unfold sendReply at hx
  split at hx
  · next hopen =>
      obtain rfl := List.mem_singleton.mp hx
      cases hsession : r.session with
      | none => trivial
      | some i =>
          rw [hsession] at hopen
          refine ⟨hopen, ?_⟩
          rcases h.right with ⟨code, hpack⟩ | ⟨hbelongs, _⟩
          · rw [hwait] at hpack
            exact .inl ⟨code, Wait.pack.inj hpack⟩
          · exact .inr (hbelongs i hsession hopen)
  · cases hx

/-- Whatever a step lets leave fits. -/
theorem step_sent (h : hub.Right) {event : HubEvent} (hstep : hubStep event hub = some hub') :
    ∃ new, hub'.sent = hub.sent ++ new ∧ ∀ x ∈ new, x.Fits hub.sessions := by
  have hnone : ∃ new, hub.sent = hub.sent ++ new ∧ ∀ x ∈ new, x.Fits hub.sessions :=
    ⟨[], (List.append_nil _).symm, fun _ hx => (by cases hx)⟩
  cases hub_stepped hstep with
  | reply there wait =>
      exact ⟨_, rfl, sendReply_fits (h.requests _ (List.mem_of_getElem? there)) wait⟩
  | push there =>
      refine ⟨_, rfl, fun x hx => ?_⟩
      obtain ⟨i, hi, rfl⟩ := List.mem_map.mp hx
      exact h.sessions.mem_liveSessionsFor.mp hi
  | quiet quiet _ =>
      rw [quiet.sent]
      exact hnone
  | accept saved => exact hnone
  | envelope known opened => exact hnone
  | go there wait advanced => exact hnone
  | close i => exact hnone
  | restart once live => exact hnone

/-! ## A stranger's request, and one's own -/

/-- A request of another DID leaves everything but a refusal and the return route. -/
structure Refused (hub : Hub) (session : Nat) (sender : Did) (hub' : Hub) : Prop where
  db : hub'.db = hub.db
  sent : hub'.sent = hub.sent
  index : hub'.sessions.byDid = hub.sessions.byDid
  sessions : ∀ j, hub'.sessions.didOf j = hub.sessions.didOf j ∧
    hub'.sessions.isOpen j = hub.sessions.isOpen j ∧
    hub'.sessions.liveDelivery j = hub.sessions.liveDelivery j
  requests : ∃ refusal, hub'.requests = hub.requests ++ refusal ∧ ∀ r ∈ refusal,
    r.session = some session ∧ r.sender = sender ∧ r.wait = .pack ANOTHERS_CONNECTION

theorem refused {sender held : Did} {authcrypted returnRoute : Bool} {body : PickupBody}
    (hheld : hub.sessions.didOf i = some held) (hother : shortOf held ≠ shortOf sender)
    (hstep : hubStep (.envelope (some i) (some sender) authcrypted returnRoute (some body)) hub =
      some hub') : Refused hub i sender hub' := by
  have hbinds : bindProof (some i) (some sender) hub.sessions = hub.sessions :=
    Sessions.bindFirst_of_bound hheld
  have hroute : (returnRouteOpen (some i) returnRoute hub.sessions).1 = hub.sessions ∨
      (returnRouteOpen (some i) returnRoute hub.sessions).1 = hub.sessions.setReturnRoute i true := by
    cases returnRoute with
    | false => exact .inl rfl
    | true => exact .inr rfl
  have hstill : (returnRouteOpen (some i) returnRoute hub.sessions).1.didOf i = some held :=
    (didOf_returnRouteOpen _ _).trans hheld
  simp only [hubStep, hbinds] at hstep
  split at hstep
  · obtain rfl := Option.some.inj hstep
    refine ⟨rfl, rfl, ?_, fun j => ?_, ⟨_, rfl, fun r hr => ?_⟩⟩
    · rcases hroute with h | h
      · rw [h]
      · rw [h]
        rfl
    · rcases hroute with h | h <;> rw [h]
      · exact ⟨rfl, rfl, rfl⟩
      · exact ⟨Sessions.didOf_setReturnRoute true j, Sessions.isOpen_setReturnRoute true j,
          Sessions.liveDelivery_setReturnRoute true j⟩
    · simp only [begin, Option.bind_some, hstill, Option.any_some, bne_iff_ne, ne_eq, hother,
        not_false_eq_true, if_true, PickupRequest.next] at hr
      split at hr
      · obtain rfl := List.mem_singleton.mp hr
        exact ⟨rfl, rfl, rfl⟩
      · cases hr
  · cases hstep

/-- A request that goes on reads as it would with everyone else's mail away, leaves everyone
else's queue, and switches no live mode but its own connection's. -/
structure OwnStep (hub : Hub) (n : Nat) (now : Millis) (r : PickupRequest) (hub' : Hub) : Prop where
  reads : ∃ hub'', hubStep (.go n now) { hub with db := mailOf r.sender hub.db } = some hub'' ∧
    hub''.sessions = hub'.sessions ∧ hub''.requests = hub'.requests ∧ hub''.sent = hub'.sent
  leaves : ∀ other : Inbox, ¬ other.Of r.sender → ∀ limit recipientDid later,
    other.waiting limit recipientDid later hub'.db = other.waiting limit recipientDid later hub.db ∧
    other.count recipientDid later hub'.db = other.count recipientDid later hub.db
  switches : ∀ j, hub'.sessions.liveDelivery j ≠ hub.sessions.liveDelivery j →
    r.session = some j ∧ (hub.sessions.isOpen j = true → hub.sessions.BoundTo j r.sender)

theorem go_reply (hub : Hub) {n : Nat} (now : Millis) {r : PickupRequest} {reply : Reply}
    (hr : hub.requests[n]? = some r) (hwait : r.wait = .pack reply) :
    hubStep (.go n now) hub = some { hub with
      requests := hub.requests.eraseIdx n
      sent := hub.sent ++ sendReply r reply hub.sessions } := by
  simp only [hubStep, hr, hwait]

theorem go_advance (hub : Hub) {n : Nat} (now : Millis) {r : PickupRequest}
    (hr : hub.requests[n]? = some r)
    (hwait : ∀ reply, r.wait ≠ .pack reply) :
    hubStep (.go n now) hub = some { hub with
      sessions := (advance now r hub.sessions hub.db).2.1
      db := (advance now r hub.sessions hub.db).2.2
      requests := hub.requests.take n ++ r.next (advance now r hub.sessions hub.db).1 ++
        hub.requests.drop (n + 1) } := by
  simp only [hubStep, hr]

theorem go_own (h : hub.Right) {n : Nat} {now : Millis} {r : PickupRequest}
    (hr : hub.requests[n]? = some r) (hstep : hubStep (.go n now) hub = some hub') :
    OwnStep hub n now r hub' := by
  have hright := h.requests r (List.mem_of_getElem? hr)
  by_cases hpack : ∃ reply, r.wait = .pack reply
  · obtain ⟨reply, hwait⟩ := hpack
    rw [go_reply hub now hr hwait] at hstep
    obtain rfl := Option.some.inj hstep
    exact ⟨⟨_, go_reply { hub with db := mailOf r.sender hub.db } now hr hwait, rfl, rfl, rfl⟩, fun _ _ _ _ _ => ⟨rfl, rfl⟩, fun _ hj => absurd rfl hj⟩
  · have hwait : ∀ reply, r.wait ≠ .pack reply := not_exists.mp hpack
    obtain ⟨hbelongs, hof⟩ : r.Belongs hub.sessions ∧ r.wait.Of r.sender := by
      rcases hright.right with ⟨code, hcode⟩ | hright
      · exact absurd hcode (hwait _)
      · exact hright
    rw [go_advance hub now hr hwait] at hstep
    obtain rfl := Option.some.inj hstep
    refine ⟨?_, fun other hother limit recipientDid later => ?_, fun j hj => ?_⟩
    · obtain ⟨hnext, hsessions⟩ := advance_mailOf now hub.sessions h.db hof
      refine ⟨_, go_advance { hub with db := mailOf r.sender hub.db } now hr hwait,
        hsessions, ?_, rfl⟩
      exact congrArg (fun next => hub.requests.take n ++ r.next next ++ hub.requests.drop (n + 1)) hnext
    · rcases advance_db now r hub.sessions h.db with hsame | ⟨inbox, ids, hack, hset⟩
      · rw [hsame]
        exact ⟨rfl, rfl⟩
      · rw [hack] at hof
        have hof : inbox.Of r.sender := hof
        rw [hset]
        exact h.db.acknowledged_others (fun heq => hother (by rw [heq]; exact hof)) ids limit
          recipientDid later
    · rcases advance_sessions now r hub.sessions hub.db with
        hsame | ⟨i, live, hi, hset⟩
      · exact absurd (congrArg (Sessions.liveDelivery j) hsame) hj
      · by_cases hij : i = j
        · subst hij
          exact ⟨hi, hbelongs i hi⟩
        · exact absurd ((congrArg (Sessions.liveDelivery j) hset).trans
            (Sessions.liveDelivery_setLiveDelivery live hij)) hj

end

/-! ## Over any run -/

/-- Over any order of sessions that open, prove, switch, close and are found again, and of
pickup requests over them: the index holds, for a DID in either spelling, the open sessions
bound to it; a session is bound to what it first proved while it was open, and stays so; a
stranger's request is refused and nothing else; any other goes by its sender's own mail; and
what leaves over a session is for the DID it is bound to, a delivery that was pushed only
where live delivery is on. -/
theorem mail_heard_by_owner {db : Db} (hdb : Keyed db) {events : List HubEvent} {hub : Hub}
    (hrun : hubRun events (Hub.start db) = some hub) :
    (∀ did i, i ∈ SetIndex.filed hub.sessions.byDid (indexed did) ↔
      hub.sessions.isOpen i = true ∧ hub.sessions.BoundTo i did) ∧
    (∀ did, (SetIndex.filed hub.sessions.byDid (indexed did)).Nodup) ∧
    (∀ i, hub.sessions.didOf i = firstProof i events (Hub.start db)) ∧
    (∀ more hub', hubRun more hub = some hub' → ∀ i did,
      hub.sessions.didOf i = some did → hub'.sessions.didOf i = some did) ∧
    (∀ i sender held authcrypted returnRoute body hub', hub.sessions.didOf i = some held →
      shortOf held ≠ shortOf sender →
      hubStep (.envelope (some i) (some sender) authcrypted returnRoute (some body)) hub =
        some hub' → Refused hub i sender hub') ∧
    (∀ n now r hub', hub.requests[n]? = some r → hubStep (.go n now) hub = some hub' →
      OwnStep hub n now r hub') ∧
    ∀ event hub', hubStep event hub = some hub' →
      ∃ new, hub'.sent = hub.sent ++ new ∧ ∀ x ∈ new, x.Fits hub.sessions := by
  obtain ⟨h, _⟩ := (right_start hdb).run hrun
  refine ⟨fun did i => h.sessions.mem_filed, fun did => h.sessions.exact.once _, fun i => ?_,
    fun more hub' hmore i did hi => ?_, fun i sender held authcrypted returnRoute body hub' => ?_,
    fun n now r hub' => go_own h, fun event hub' => step_sent h⟩
  · exact (didOf_run (right_start hdb) hrun).trans (Option.none_or ..)
  · exact (h.run hmore).2.bound i did hi
  · exact refused

/-! Somebody listens, and is pushed a message, which a second connection that proved nobody does
not hear of. -/

def aliceMediated : Db := { Db.empty with accounts := [⟨lit "did:example:alice", 0⟩] }

def aliceListens : List HubEvent :=
  [.accept none, .accept none,
    .envelope (some 0) (some (lit "did:example:alice")) true true (some (.liveDeliveryChange true)),
    .go 0 0, .go 0 0, .go 0 0, .go 0 0, .go 0 0, .go 0 0, .go 0 0,
    .offer (lit "did:example:alice") [⟨lit "m", lit "packed", 0⟩], .push 0, .push 0]

theorem mail_heard_by_owner_example : ∃ hub,
    hubRun aliceListens (Hub.start aliceMediated) = some hub ∧
      hub.sent = [.reply (some 0) (lit "did:example:alice") (.status 0 true none),
        .delivery 0 (lit "did:example:alice") [⟨lit "m", lit "packed", 0⟩]] ∧
      (1 ∈ SetIndex.filed hub.sessions.byDid (indexed (lit "did:example:alice")) ↔
        hub.sessions.isOpen 1 = true ∧ hub.sessions.BoundTo 1 (lit "did:example:alice")) := by
  have hruns : (hubRun aliceListens (Hub.start aliceMediated)).isSome = true := rfl
  have hkeyed : Keyed aliceMediated := by decide
  exact ⟨(hubRun aliceListens (Hub.start aliceMediated)).get hruns, (Option.some_get hruns).symm,
    rfl, (mail_heard_by_owner hkeyed (Option.some_get hruns).symm).1 _ 1⟩

end Estoc.Mediator
