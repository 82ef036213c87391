import Estoc.EventStore.Event
import Estoc.Mediator.Executions
import Estoc.Vault.Outside

/-!
# Who answers an input

An input picked up at a mediator came to every replica of the account, and each would answer
it. So each registers at the mediator under the input's execution, and the replica the
registration lists first answers. A request whose reply is lost is made once more.

The mediator tells one registration alike to all that ask (`told_serveAll`), so the replicas
that read a registration read one replica first, whatever became of their requests.
-/

set_option linter.unusedSectionVars false

namespace Estoc.Mediator

open Json (lit)
open EventStore (jsonStr)

/-- The body of the reply to a replica that was registered. -/
def executionRegistered (kept : ExecutionRegistrationSnapshot) : Json :=
  .object [(lit "execution_id", jsonStr kept.executionId),
    (lit "registration_id", jsonStr kept.registrationId),
    (lit "created_time", .scalar (.number (Binary64.ofInt kept.createdTime))),
    (lit "retain_until", .scalar (.number (Binary64.ofInt kept.retainUntil))),
    (lit "replicas", .array (kept.replicas.map jsonStr))]

end Estoc.Mediator

namespace Estoc.Agent

open Json (lit)
open Utf16 (JsString)
open Checked (refuse bind_eq_ok refuse_bind_eq_ok)
open EventStore (jsonStr member?)
open Mediator (ExecutionRegistrationSnapshot executionRegistered StoreCall Options Db serveAll
  tellings Agree Told told_empty told_serveAll refused_serve registrationsOf Registration)
open Vault (Did Outside)

structure ExecutionRegistration where
  mediationId : JsString
  executionId : JsString
  registrationId : JsString
  /-- Every replica registered, in the order each first did, by short form. -/
  replicas : List Did
deriving DecidableEq

inductive Responder where
  /-- This runtime answers. -/
  | self (registration : Option ExecutionRegistration)
  | other (registration : ExecutionRegistration)
  | unknown (because : JsString)
deriving DecidableEq

/-- What a request to register came back with. -/
inductive Attempt where
  | reply (body : Json)
  | refused (because : JsString)
  | closed (because : JsString)
  | failed (because : JsString)

def isPeerDID4 (did : JsString) : Bool := (lit "did:peer:4").isPrefixOf did

def isNull : Json → Bool
  | .scalar .null => true
  | _ => false

/-- The text a member holds, where it holds one. -/
def textOf : Option Json → Option JsString
  | some (.scalar (.string s)) => some s
  | _ => none

/-- What a member lists, where it lists anything. -/
def itemsOf : Option Json → List Json
  | some (.array items) => items
  | _ => []

section
variable (O : Outside)

def peerDidOrNull (entry : Json) : Option Did :=
  match textOf (some entry) with
  | none => none
  | some s => if isPeerDID4 s then (O.canonicalDidOf s).toOption else none

/-- A registration that was answered, as the replica `replicaDid` reads it. What is thrown is
that `replicaDid` names no DID, or that there is no body to read. -/
def responderOf (body : Json) (mediationId executionId : JsString) (replicaDid : Did) :
    Except JsString Responder :=
  let unknown := fun because : JsString =>
    (.ok (.unknown (lit "execution-registered " ++ because)) : Except JsString Responder)
  if isNull body then
    .error (lit "Cannot destructure property 'execution_id' of 'reply.body' as it is null.")
  else if textOf (member? body (lit "execution_id")) ≠ some executionId then
    unknown (lit "names another execution than the one registered")
  else
    let registrationId := (textOf (member? body (lit "registration_id"))).getD []
    let listed := itemsOf (member? body (lit "replicas"))
    if registrationId = [] then unknown (lit "names no registration")
    else if listed.isEmpty then unknown (lit "lists no replica")
    else
      let replicas := listed.map (peerDidOrNull O)
      if none ∈ replicas then unknown (lit "lists a replica that is no did:peer:4")
      else do
        let me ← O.canonicalDidOf replicaDid
        let registration : ExecutionRegistration :=
          ⟨mediationId, executionId, registrationId, replicas.filterMap id⟩
        if some me ∉ replicas then unknown (lit "does not list this replica")
        else if replicas.head? = some (some me) then pure (.self (some registration))
        else pure (.other registration)

/-- One replica's registration of an execution, and what its requests come back with. -/
structure Registering where
  mediationId : JsString
  executionId : JsString
  replicaDid : Did
  first : Attempt
  second : Attempt

/-- A request that was lost is made once more; a refusal and a closed link are not. -/
def registerExecution (r : Registering) : Except JsString Responder :=
  let reply := match r.first with
    | .failed _ => r.second
    | attempt => attempt
  match reply with
  | .reply body => responderOf O body r.mediationId r.executionId r.replicaDid
  | .refused because => pure (.unknown because)
  | .closed because => pure (.unknown because)
  | .failed because => pure (.unknown because)

/-! ## Who concludes that it answers -/

section
variable {O} {body : Json} {mediationId executionId : JsString} {replicaDid : Did}

/-- A replica that reads itself first was told so: the registration it concludes from is the
one the body names, and the first listed is its own DID. -/
theorem responderOf_self {registration : ExecutionRegistration}
    (h : responderOf O body mediationId executionId replicaDid = .ok (.self (some registration))) :
    registration.registrationId = (textOf (member? body (lit "registration_id"))).getD [] ∧
      ∃ me, O.canonicalDidOf replicaDid = .ok me ∧
        ((itemsOf (member? body (lit "replicas"))).map (peerDidOrNull O)).head? = some (some me) := by
  unfold responderOf at h
  split at h
  · cases h
  split at h
  · cases h
  dsimp only at h
  split at h
  · cases h
  split at h
  · cases h
  split at h
  · cases h
  obtain ⟨me, hme, h⟩ := bind_eq_ok.mp h
  split at h
  · cases h
  split at h
  · next hhead =>
      cases h
      exact ⟨rfl, me, hme, hhead⟩
  · cases h

/-- A registration is concluded from a reply. -/
theorem registerExecution_self {r : Registering} {registration : ExecutionRegistration}
    (h : registerExecution O r = .ok (.self (some registration))) :
    ∃ body, (r.first = .reply body ∨ r.second = .reply body) ∧
      responderOf O body r.mediationId r.executionId r.replicaDid =
        .ok (.self (some registration)) := by
  unfold registerExecution at h
  dsimp only at h
  split at h
  · next body hreply =>
      refine ⟨body, ?_, h⟩
      split at hreply
      · exact .inr hreply
      · exact .inl hreply
  · cases h
  · cases h
  · cases h

/-- Its requests came back with what the mediator answered one time or another, or with
nothing to read. -/
def Registering.Answered (r : Registering) (told : List ExecutionRegistrationSnapshot) : Prop :=
  ∀ body, r.first = .reply body ∨ r.second = .reply body → ∃ s ∈ told, body = executionRegistered s

theorem text_registrationId (s : ExecutionRegistrationSnapshot) :
    textOf (member? (executionRegistered s) (lit "registration_id")) = some s.registrationId := by
  have hne : (lit "registration_id" == lit "execution_id") = false := by decide
  rw [executionRegistered, member?, List.lookup_cons, hne, List.lookup_cons, beq_self_eq_true]
  rfl

theorem items_replicas (s : ExecutionRegistrationSnapshot) :
    itemsOf (member? (executionRegistered s) (lit "replicas")) = s.replicas.map jsonStr := by
  have h1 : (lit "replicas" == lit "execution_id") = false := by decide
  have h2 : (lit "replicas" == lit "registration_id") = false := by decide
  have h3 : (lit "replicas" == lit "created_time") = false := by decide
  have h4 : (lit "replicas" == lit "retain_until") = false := by decide
  simp only [executionRegistered, member?, List.lookup_cons, h1, h2, h3, h4, beq_self_eq_true]
  rfl

/-- Two lists one of which begins the other have one first entry. -/
theorem head?_eq_of_prefixes {α : Type} {xs ys : List α} (h : xs <+: ys ∨ ys <+: xs) {x y : α}
    (hx : xs.head? = some x) (hy : ys.head? = some y) : x = y := by
  rcases h with ⟨zs, rfl⟩ | ⟨zs, rfl⟩
  · rw [List.head?_append, hx] at hy
    exact Option.some.inj hy
  · rw [List.head?_append, hy] at hx
    exact (Option.some.inj hx).symm

/-- Two replicas that conclude they answer one registration are one replica. -/
theorem one_self {told : List ExecutionRegistrationSnapshot}
    (hagree : ∀ s ∈ told, ∀ s' ∈ told, s.registrationId = s'.registrationId → Agree s s')
    {r r' : Registering} (hr : r.Answered told) (hr' : r'.Answered told)
    {registration registration' : ExecutionRegistration}
    (h : registerExecution O r = .ok (.self (some registration)))
    (h' : registerExecution O r' = .ok (.self (some registration')))
    (hid : registration.registrationId = registration'.registrationId) :
    O.canonicalDidOf r.replicaDid = O.canonicalDidOf r'.replicaDid := by
  obtain ⟨body, hbody, h⟩ := registerExecution_self h
  obtain ⟨body', hbody', h'⟩ := registerExecution_self h'
  obtain ⟨s, hs, rfl⟩ := hr body hbody
  obtain ⟨s', hs', rfl⟩ := hr' body' hbody'
  obtain ⟨hregistration, me, hme, hfirst⟩ := responderOf_self h
  obtain ⟨hregistration', me', hme', hfirst'⟩ := responderOf_self h'
  rw [text_registrationId, Option.getD_some] at hregistration hregistration'
  rw [items_replicas] at hfirst hfirst'
  have hlists := (hagree s hs s' hs' (hregistration ▸ hregistration' ▸ hid)).replicas
  have hread : (s.replicas.map jsonStr).map (peerDidOrNull O) <+:
      (s'.replicas.map jsonStr).map (peerDidOrNull O) ∨
      (s'.replicas.map jsonStr).map (peerDidOrNull O) <+:
        (s.replicas.map jsonStr).map (peerDidOrNull O) :=
    hlists.imp (fun hp => (hp.map _).map _) fun hp => (hp.map _).map _
  have hsame := Option.some.inj (head?_eq_of_prefixes hread hfirst hfirst')
  rw [hme, hme', hsame]

end

/-- Over any run of the mediator, under a limit of at least one replica and with every ID
drawn once: two answers for one registration carry the same times, and one's replicas begin
the other's; no answer lists a replica twice or more replicas than the limit; a registration's
places are numbered from the first without a gap; an answer of `full` or `unknown` wrote
nothing. And of the replicas that read those answers, whichever of their requests and replies
were lost or repeated, those that conclude they answer under one registration are one. -/
theorem one_responder (options : Options) (limit : Nat) (calls : List StoreCall)
    (hlimit : 1 ≤ limit) (hpolicy : ∀ call ∈ calls, call.Limited limit)
    (hids : (calls.filterMap StoreCall.registrationId).Nodup) :
    let run := serveAll options calls Db.empty
    let told := tellings run.1
    (∀ s ∈ told, ∀ s' ∈ told, s.registrationId = s'.registrationId →
      s.createdTime = s'.createdTime ∧ s.retainUntil = s'.retainUntil ∧
        (s.replicas <+: s'.replicas ∨ s'.replicas <+: s.replicas)) ∧
    (∀ s ∈ told, s.replicas ≠ [] ∧ s.replicas.Nodup ∧ s.replicas.length ≤ limit) ∧
    (∀ e ∈ run.2.executions, (registrationsOf run.2 e.registrationId).map Registration.ordinal =
      List.range' 1 (registrationsOf run.2 e.registrationId).length) ∧
    (∀ before call after, calls = before ++ call :: after →
      let found := (serveAll options before Db.empty).2
      (call.serve options found).1.refuses → (call.serve options found).2 = found) ∧
    (∀ (O : Outside) (r r' : Registering) (registration registration' : ExecutionRegistration),
      r.Answered told → r'.Answered told →
      registerExecution O r = .ok (.self (some registration)) →
      registerExecution O r' = .ok (.self (some registration')) →
      registration.registrationId = registration'.registrationId →
      O.canonicalDidOf r.replicaDid = O.canonicalDidOf r'.replicaDid) := by
  intro run told
  have htold : Told limit (calls.filterMap StoreCall.registrationId) told run.2 := by
    have hcalls : ([] ++ calls.filterMap StoreCall.registrationId).Nodup := by
      rw [List.nil_append]
      exact hids
    have hrun := told_serveAll options (@told_empty limit) hlimit hpolicy hcalls
    rw [List.nil_append, List.nil_append] at hrun
    exact hrun
  refine ⟨fun s hs s' hs' hid => ?_, fun s hs => ?_, htold.elected.places, ?_, ?_⟩
  · have hagree := htold.agree s hs s' hs' hid
    exact ⟨hagree.createdTime, hagree.retainUntil, hagree.replicas⟩
  · exact ⟨htold.some s hs, htold.nodup s hs, htold.bounded s hs⟩
  · intro before call after hcalls found hrefuses
    have hsplit : calls = (before ++ [call]) ++ after := by rw [hcalls]; simp
    rw [hsplit, List.filterMap_append] at hids
    refine refused_serve options hlimit (fun c hc => hpolicy c ?_) (List.nodup_append.mp hids).1
      hrefuses
    rw [hsplit]
    exact List.mem_append_left _ hc
  · intro O r r' registration registration' hr hr' h h' hid
    exact one_self htold.agree hr hr' h h' hid

/-- A world with no document in it. -/
def bare : Outside where
  retainedDocument _ := .error []
  canonicalCid _ := .error []
  authorizedMethodIds _ _ := .error []
  methodPublicKey _ _ := .error []
  didcommServiceUris _ := .error []
  serviceTargetOf _ := none
  decodePublicKey _ := .error []
  contributes _ := false
  precheckFromPrior _ _ := .error []
  decodeLongForm _ := .error []
  derive _ _ := []
  EMPTY_CONTENT_CID := []
  deriveContinuity _ := ⟨fun _ => .noEvidence, fun _ _ => [], fun _ _ => .none,
    fun _ => ⟨[], []⟩, fun _ => .unknown⟩

/-- Two replicas register for one execution, the first of them twice, its first reply lost: the
first answers, the second leaves the input to it. -/
theorem one_responder_example :
    let options : Options := ⟨1000, 10⟩
    let account : Did := DidPeer.prefix4 ++ List.replicate 44 50
    let first : Did := DidPeer.prefix4 ++ List.replicate 44 51
    let second : Did := DidPeer.prefix4 ++ List.replicate 44 52
    let mediator : Did := lit "did:web:m"
    let asking := fun replica : Did =>
      (⟨replica, mediator, lit "x", ⟨60, 10, 2⟩⟩ : Mediator.ExecutionRegistration)
    let calls : List StoreCall :=
      [.mediation (.registerReplicaAccount account (account ++ lit ":z222222") mediator true 1
          (lit "r")),
        .mediation (.addReplica account mediator first (first ++ lit ":z222222") [] 10 2),
        .mediation (.addReplica account mediator second (second ++ lit ":z222222") [] 10 2),
        .registerExecution (lit "1") (asking first) 5000,
        .registerExecution (lit "2") (asking first) 6000,
        .registerExecution (lit "3") (asking second) 7000]
    let told := tellings (serveAll options calls Db.empty).1
    let alone : ExecutionRegistrationSnapshot := ⟨lit "x", lit "1", 5, 65, [first]⟩
    let both : ExecutionRegistrationSnapshot := ⟨lit "x", lit "1", 5, 65, [first, second]⟩
    let registration : ExecutionRegistration := ⟨lit "m", lit "x", lit "1", [first]⟩
    told = [alone, alone, both] ∧
      registerExecution bare ⟨lit "m", lit "x", first, .failed [], .reply (executionRegistered alone)⟩ =
        .ok (.self (some registration)) ∧
      registerExecution bare ⟨lit "m", lit "x", second, .reply (executionRegistered both), .failed []⟩ =
        .ok (.other { registration with replicas := [first, second] }) ∧
      ∀ s ∈ told, s.replicas ≠ [] ∧ s.replicas.Nodup ∧ s.replicas.length ≤ 2 := by
  intro options account first second mediator asking calls told alone both registration
  have hlimited : ∀ call ∈ calls, call.Limited 2 := by
    simp [calls, StoreCall.Limited, asking]
  have hids : (calls.filterMap StoreCall.registrationId).Nodup := by decide
  refine ⟨by decide +kernel, by decide +kernel, by decide +kernel, ?_⟩
  exact (one_responder options 2 calls (by decide) hlimited hids).2.1

end

end Estoc.Agent
