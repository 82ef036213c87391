import Estoc.Mediator.Pickup
import Estoc.Mediator.Sessions

/-!
# The hub of the live sessions

Envelopes come in over sessions and by single requests; each proof binds its session before
the message is handled. A pickup request then goes from one wait to the next, for the store,
or for its reply to be packed, and everything else may happen in between: other proofs, closes,
a host that starts again, mail pushed to its owner, and whatever else changes the database.
-/

set_option linter.unusedSectionVars false

namespace Estoc.Mediator

open Json (lit)
open Utf16 (JsString)
open DidPeer (shortOf)

inductive PickupBody where
  | statusRequest (recipientDid : Option Did)
  | deliveryRequest (limit : Option Rat) (recipientDid : Option Did)
  | messagesReceived (ids : List JsString)
  | liveDeliveryChange (liveDelivery : Bool)

/-- What a pickup request waits for. -/
inductive Wait where
  | isReplicaAccount
  | replicaState
  | isMediated
  /-- its handler to go on with the inbox that was found -/
  | inbox (inbox : Inbox)
  | waiting (inbox : Inbox) (limit : Option Rat) (recipientDid : Option Did)
  | acknowledge (inbox : Inbox) (ids : List JsString)
  | count (inbox : Inbox) (recipientDid : Option Did)
  /-- its status to be told -/
  | status (messageCount : Nat) (recipientDid : Option Did)
  | pack (reply : Reply)

structure PickupRequest where
  session : Option Nat
  sender : Did
  authcrypted : Bool
  /-- May the reply ride the connection the request came on? -/
  routed : Bool
  body : PickupBody
  wait : Wait

/-- A delivery for the sessions of an owner, from `wantsPush` on. -/
structure Push where
  ownerDid : Did
  messages : List StoredMessage
  /-- Somebody was listening, and the delivery is being packed. -/
  wanted : Bool

/-- What left over a connection. -/
inductive Sent where
  | reply (session : Option Nat) (replyTo : Did) (reply : Reply)
  | delivery (session : Nat) (ownerDid : Did) (messages : List StoredMessage)
deriving DecidableEq

structure Hub where
  sessions : Sessions
  db : Db
  requests : List PickupRequest
  pushes : List Push
  sent : List Sent

def Hub.start (db : Db) : Hub := ⟨.empty, db, [], [], []⟩

/-! ## Pickup, from wait to wait -/

def ANOTHERS_CONNECTION : Reply := .problem (lit "e.p.msg.connection-bound")

/-- How a handler goes on. -/
inductive Next where
  | wait (wait : Wait)
  | reply (reply : Option Reply)

/-- `inboxOf`, from one answer of the store to the next, and the handler from there. -/
def advance (now : Millis) (request : PickupRequest) (sessions : Sessions) (db : Db) :
    Next × Sessions × Db :=
  match request.wait with
  | .isReplicaAccount =>
    if hasReplicaAccount db (shortOf request.sender) then
      (.reply (some (.problem (lit "replica-required"))), sessions, db)
    else (.wait .replicaState, sessions, db)
  | .replicaState =>
    match replicaState db (shortOf request.sender) with
    | some state =>
      if !request.authcrypted then (.reply none, sessions, db)
      else if state = .removed then
        (.reply (some (.problem (lit "replica-removed"))), sessions, db)
      else (.wait (.inbox (.ofReplica (shortOf request.sender))), sessions, db)
    | none => (.wait .isMediated, sessions, db)
  | .isMediated =>
    if hasAccount db request.sender then
      (.wait (.inbox (.ofAccount request.sender)), sessions, db)
    else (.reply none, sessions, db)
  | .inbox inbox =>
    match request.body with
    | .statusRequest recipientDid => (.wait (.count inbox recipientDid), sessions, db)
    | .deliveryRequest limit recipientDid =>
      (.wait (.waiting inbox limit recipientDid), sessions, db)
    | .messagesReceived ids => (.wait (.acknowledge inbox ids), sessions, db)
    | .liveDeliveryChange liveDelivery =>
      match request.session with
      | none =>
        (.reply (some (.problem (lit "e.m.live-mode-not-supported"))), sessions, db)
      | some i => (.wait (.count inbox none), sessions.setLiveDelivery i liveDelivery, db)
  | .waiting inbox limit recipientDid =>
    match inbox.waiting (pageLimit limit) recipientDid now db with
    | [] => (.wait (.count inbox recipientDid), sessions, db)
    | messages =>
      (.reply (some (.delivery recipientDid (messages.map fun m => ⟨m.id, m.packed⟩))), sessions, db)
  | .acknowledge inbox ids =>
    match Sql.transaction foreignKeys (inbox.acknowledge ids) db with
    | .ok (_, db') => (.wait (.count inbox none), sessions, db')
    | .error _ => (.reply none, sessions, db)
  | .count inbox recipientDid =>
    (.wait (.status (inbox.count recipientDid now db) recipientDid), sessions, db)
  | .status messageCount recipientDid =>
    (.reply (some (.status messageCount (request.session.any (sessions.liveDelivery ·))
      recipientDid)), sessions, db)
  | .pack reply => (.reply (some reply), sessions, db)

/-- What is left of a request that goes on so: a reply is packed where it may ride. -/
def PickupRequest.next (request : PickupRequest) : Next → List PickupRequest
  | .wait wait => [{ request with wait }]
  | .reply none => []
  | .reply (some reply) => if request.routed then [{ request with wait := .pack reply }] else []

/-! ## The events -/

/-- The return route is set once and for the rest of the connection. -/
def returnRouteOpen (session : Option Nat) (requested : Bool) (sessions : Sessions) :
    Sessions × Bool :=
  match session with
  | none => (sessions, requested)
  | some i =>
    let sessions := if requested then sessions.setReturnRoute i true else sessions
    (sessions, sessions.returnRoute i)

/-- A pickup request as far as its first wait; from nobody proven, and for a message of
another protocol, there is none. -/
def begin (session : Option Nat) (verifiedFrom : Option Did) (authcrypted routed : Bool)
    (pickup : Option PickupBody) (sessions : Sessions) : List PickupRequest :=
  match verifiedFrom, pickup with
  | some sender, some body =>
    let request : PickupRequest := ⟨session, sender, authcrypted, routed, body, .isReplicaAccount⟩
    let another := (session.bind sessions.didOf).any fun held => shortOf held != shortOf sender
    if another then request.next (.reply (some ANOTHERS_CONNECTION)) else [request]
  | _, _ => []

/-- A proof binds the session it came over. -/
def bindProof (session : Option Nat) (verifiedFrom : Option Did) (sessions : Sessions) : Sessions :=
  match session, verifiedFrom with
  | some i, some did => sessions.bindFirst i did
  | _, _ => sessions

inductive HubEvent where
  /-- A session opens, fresh or from what a host had kept. -/
  | accept (saved : Option SessionState)
  /-- An envelope was opened: a pickup request, or a message of another protocol. -/
  | envelope (session : Option Nat) (verifiedFrom : Option Did) (authcrypted returnRoute : Bool)
      (pickup : Option PickupBody)
  /-- A request goes on to its next wait. -/
  | go (n : Nat) (now : Millis)
  /-- A request throws. -/
  | fail (n : Nat)
  | close (session : Nat)
  /-- The host starts again with the sockets that outlived it. -/
  | restart (survivors : List Nat)
  /-- Mail was stored for an owner. -/
  | offer (ownerDid : Did) (messages : List StoredMessage)
  | push (n : Nat)
  | failPush (n : Nat)
  /-- Anything else changes the database, within its keys. -/
  | elsewhere (db : Db)

/-- A reply leaves over its session, while that is open. -/
def sendReply (request : PickupRequest) (reply : Reply) (sessions : Sessions) : List Sent :=
  if request.session.all sessions.isOpen then [.reply request.session request.sender reply] else []

def hubStep : HubEvent → Hub → Option Hub
  | .accept saved, hub => some { hub with sessions := hub.sessions.openSession saved }
  | .envelope session verifiedFrom authcrypted returnRoute pickup, hub =>
    if session.all (· < hub.sessions.opened.length) then
      let bound := bindProof session verifiedFrom hub.sessions
      let (sessions, routed) := returnRouteOpen session returnRoute bound
      some { hub with
        sessions
        requests := hub.requests ++ begin session verifiedFrom authcrypted routed pickup sessions }
    else none
  | .go n now, hub =>
    match hub.requests[n]? with
    | none => none
    | some request =>
      match request.wait with
      | .pack reply => some { hub with
          requests := hub.requests.eraseIdx n
          sent := hub.sent ++ sendReply request reply hub.sessions }
      | _ =>
        let (next, sessions, db) := advance now request hub.sessions hub.db
        some { hub with
          sessions
          db
          requests := hub.requests.take n ++ request.next next ++ hub.requests.drop (n + 1) }
  | .fail n, hub => some { hub with requests := hub.requests.eraseIdx n }
  | .close i, hub => some { hub with sessions := hub.sessions.close i }
  | .restart survivors, hub =>
    if survivors.Nodup ∧ survivors.all hub.sessions.isOpen then
      some { hub with
        sessions := hub.sessions.restart survivors
        requests := hub.requests.filter (·.session.isNone) }
    else none
  | .offer ownerDid messages, hub =>
    if messages = [] then some hub
    else some { hub with pushes := hub.pushes ++ [⟨ownerDid, messages, false⟩] }
  | .push n, hub =>
    match hub.pushes[n]? with
    | none => none
    | some push =>
      if push.wanted then
        some { hub with
          pushes := hub.pushes.eraseIdx n
          sent := hub.sent ++ (hub.sessions.liveSessionsFor push.ownerDid).map
            (Sent.delivery · push.ownerDid push.messages) }
      else if hub.sessions.wantsPush push.ownerDid then
        some { hub with pushes := hub.pushes.set n { push with wanted := true } }
      else some { hub with pushes := hub.pushes.eraseIdx n }
  | .failPush n, hub => some { hub with pushes := hub.pushes.eraseIdx n }
  | .elsewhere db, hub => if Keyed db then some { hub with db } else none

def hubRun : List HubEvent → Hub → Option Hub
  | [], hub => some hub
  | event :: events, hub => (hubStep event hub).bind (hubRun events)

/-! ## A request that nothing interrupts

It is answered as it would be at once. -/

/-- The reply to a request that goes on alone, and what it leaves. -/
def finish : Nat → Millis → PickupRequest → Sessions → Db → Option Reply × Sessions × Db
  | 0, _, _, sessions, db => (none, sessions, db)
  | steps + 1, now, request, sessions, db =>
    match advance now request sessions db with
    | (.reply reply, sessions, db) => (reply, sessions, db)
    | (.wait wait, sessions, db) => finish steps now { request with wait } sessions db

def PickupRequest.context (request : PickupRequest) (sessions : Sessions) : Context :=
  ⟨some request.sender, request.authcrypted,
    request.session.map fun i => (sessions.didOf i, sessions.liveDelivery i)⟩

section
variable {steps : Nat} {now : Millis} {r : PickupRequest} {s : Sessions} {db : Db}

/-- Its inbox is the one `inboxOf` finds, and its handler goes on from there. -/
theorem finish_inboxOf (now : Millis) (db : Db) (hwait : r.wait = .isReplicaAccount)
    (hown : (r.session.bind s.didOf).any (fun held => shortOf held != shortOf r.sender) = false) :
    ∃ steps, finish 7 now r s db = match inboxOf (r.context s) db with
      | none => (none, s, db)
      | some (.error problem) => (some problem, s, db)
      | some (.ok inbox) => finish (steps + 4) now { r with wait := .inbox inbox } s db := by
  have hsession : ((r.context s).session.bind Prod.fst).any
      (fun held => shortOf held != shortOf r.sender) = false := by
    rw [← hown, PickupRequest.context]
    cases r.session <;> rfl
  have hinbox : inboxOf (r.context s) db =
      if hasReplicaAccount db (shortOf r.sender) then
        some (.error (.problem (lit "replica-required")))
      else match replicaState db (shortOf r.sender) with
        | some state =>
          if !r.authcrypted then none
          else if state = .removed then some (.error (.problem (lit "replica-removed")))
          else some (.ok (.ofReplica (shortOf r.sender)))
        | none =>
          if hasAccount db r.sender then some (.ok (.ofAccount r.sender)) else none := by
    show (if ((r.context s).session.bind Prod.fst).any _ then _ else _) = _
    rw [hsession]
    rfl
  rw [hinbox]
  cases hreplica : hasReplicaAccount db (shortOf r.sender) with
  | true => exact ⟨0, by simp [finish, advance, hwait, hreplica]⟩
  | false =>
      cases hstate : replicaState db (shortOf r.sender) with
      | some state =>
          refine ⟨1, ?_⟩
          cases hsealed : r.authcrypted with
          | false => simp [finish, advance, hwait, hreplica, hstate, hsealed]
          | true =>
              cases state <;> simp [finish, advance, hwait, hreplica, hstate, hsealed]
      | none =>
          refine ⟨0, ?_⟩
          cases hheld : hasAccount db r.sender <;>
            simp [finish, advance, hwait, hreplica, hstate, hheld]

theorem told_live : (r.session.any fun i => s.liveDelivery i) =
    ((r.context s).session.map Prod.snd).getD false := by
  rw [PickupRequest.context]
  cases r.session <;> rfl

theorem finish_statusRequest (hwait : r.wait = .isReplicaAccount)
    (hown : (r.session.bind s.didOf).any (fun held => shortOf held != shortOf r.sender) = false)
    {recipientDid : Option Did} (hbody : r.body = .statusRequest recipientDid) :
    finish 7 now r s db = (statusRequest (r.context s) recipientDid now db, s, db) := by
  obtain ⟨steps, hfinish⟩ := finish_inboxOf now db hwait hown
  rw [hfinish, statusRequest]
  cases inboxOf (r.context s) db with
  | none => rfl
  | some found =>
      cases found with
      | error problem => rfl
      | ok inbox => simp [finish, advance, hbody, status, told_live]

theorem finish_deliveryRequest (hwait : r.wait = .isReplicaAccount)
    (hown : (r.session.bind s.didOf).any (fun held => shortOf held != shortOf r.sender) = false)
    {limit : Option Rat} {recipientDid : Option Did}
    (hbody : r.body = .deliveryRequest limit recipientDid) :
    finish 7 now r s db = (deliveryRequest (r.context s) limit recipientDid now now db, s, db) := by
  obtain ⟨steps, hfinish⟩ := finish_inboxOf now db hwait hown
  rw [hfinish, deliveryRequest]
  cases inboxOf (r.context s) db with
  | none => rfl
  | some found =>
      cases found with
      | error problem => rfl
      | ok inbox =>
          cases hmail : inbox.waiting (pageLimit limit) recipientDid now db <;>
            simp [finish, advance, hbody, hmail, status, told_live]

theorem finish_messagesReceived (hwait : r.wait = .isReplicaAccount)
    (hown : (r.session.bind s.didOf).any (fun held => shortOf held != shortOf r.sender) = false)
    {ids : List JsString} (hbody : r.body = .messagesReceived ids) :
    finish 7 now r s db = ((messagesReceived (r.context s) ids now db).1, s,
      (messagesReceived (r.context s) ids now db).2) := by
  obtain ⟨steps, hfinish⟩ := finish_inboxOf now db hwait hown
  rw [hfinish, messagesReceived]
  cases inboxOf (r.context s) db with
  | none => rfl
  | some found =>
      cases found with
      | error problem => rfl
      | ok inbox =>
          cases hlands : Sql.transaction foreignKeys (inbox.acknowledge ids) db <;>
            simp [finish, advance, hbody, hlands, status, told_live]

end

end Estoc.Mediator
