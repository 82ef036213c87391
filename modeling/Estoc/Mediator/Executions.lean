import Estoc.Mediator.Service

/-!
# Every registration is told alike

A registration is made with its first replica and only ever gains replicas, each in the
next place; it ends whole, by its own purge or with its account, and its ID never comes
back. So whatever was answered for it, at any time and to anyone, is a beginning of what
is answered later. `Elected` is what holds of the tables, `Told` what holds between them
and everything answered so far.
-/

set_option linter.unusedSectionVars false

namespace Estoc.Mediator

open Utf16 (JsString)
open Sql (bind_ok select_bind_ok write_ok pure_ok insert insertOrIgnore insert_eq_ok delete Tx)
open Checked (bind_eq_ok)

/-! ## What one call leaves -/

/-- The database with a replica in the next place of a registration, where there is one. -/
def joined (policy : ExecutionPolicy) (replicaDid : Did) (e : Execution) (db : Db) : Db :=
  if (registrationsOf db e.registrationId).length < policy.maxReplicas then
    { db with
      registrations := insertOrIgnore Registration.clash
        ⟨e.registrationId, replicaDid, (registrationsOf db e.registrationId).length + 1⟩
        db.registrations }
  else db

/-- The registration an account makes of an execution at this time. -/
def newExecution (registrationId : JsString) (account : Did) (r : ExecutionRegistration)
    (now : Millis) : Execution :=
  ⟨registrationId, account, r.executionId, (now / 1000).floor,
    (now / 1000).floor + r.policy.retainSeconds⟩

/-- What is answered where a registration was found. -/
def answered (replicaDid : Did) (found : ExecutionRegistrationSnapshot) : RegisterExecutionOutcome :=
  if found.replicas.contains replicaDid then .registered found else .full

/-- The ways a registration goes: no active replica asks; the account keeps none of the
execution and makes none; or there is one, found or just made, which the replica joins. -/
inductive Registering (id : JsString) (r : ExecutionRegistration) (now : Millis) (db : Db) :
    Db → RegisterExecutionOutcome → Prop where
  | unknown : Registering id r now db db .unknown
  | full : Registering id r now db db .full
  | found (e : Execution) : e ∈ db.executions →
      Registering id r now db (joined r.policy r.replicaDid e db)
        (answered r.replicaDid (snapshotOf (joined r.policy r.replicaDid e db) e))
  | made (account : Did) (db' : Db) : db.executions.any (newExecution id account r now).clash = false →
      db' = { db with executions := db.executions ++ [newExecution id account r now] } →
      Registering id r now db (joined r.policy r.replicaDid (newExecution id account r now) db')
        (answered r.replicaDid (snapshotOf
          (joined r.policy r.replicaDid (newExecution id account r now) db')
          (newExecution id account r now)))

section
variable {id : JsString} {r : ExecutionRegistration} {now : Millis}

theorem memberAccount_congr {db db' : Db} (hreplicas : db'.replicas = db.replicas)
    (haccounts : db'.replicaAccounts = db.replicaAccounts) (replica mediator : Did) :
    memberAccount db' replica mediator = memberAccount db replica mediator := by
  simp only [memberAccount, isBound, hreplicas, haccounts]

theorem joined_replicas (policy : ExecutionPolicy) (replica : Did) (e : Execution) (db : Db) :
    (joined policy replica e db).replicas = db.replicas := by
  unfold joined
  split <;> rfl

theorem joined_replicaAccounts (policy : ExecutionPolicy) (replica : Did) (e : Execution)
    (db : Db) : (joined policy replica e db).replicaAccounts = db.replicaAccounts := by
  unfold joined
  split <;> rfl

@[simp] theorem joined_executions (policy : ExecutionPolicy) (replica : Did) (e : Execution)
    (db : Db) : (joined policy replica e db).executions = db.executions := by
  unfold joined
  split <;> rfl

theorem registerExecution_ok {t t' : Tx Db} {outcome : RegisterExecutionOutcome}
    (h : registerExecution id r now t = .ok (outcome, t')) :
    Registering id r now t.db t'.db outcome := by
  obtain ⟨replica, mediator, executionId, policy⟩ := r
  replace h := select_bind_ok.mp h
  obtain ⟨_, s1, h1, h⟩ := bind_ok.mp h
  obtain ⟨h1, _⟩ := write_ok h1
  obtain ⟨s2, h2, h⟩ := modify_bind_ok h
  replace h := select_bind_ok.mp h
  obtain ⟨houtcome, rfl⟩ := pure_ok h
  cases hmember : memberAccount t.db replica mediator with
  | none =>
      rw [hmember] at h1 houtcome
      have h1 := (Except.ok.inj h1).symm
      rw [h1, hmember] at h2
      rw [houtcome, h2]
      exact .unknown
  | some account =>
      rw [hmember] at h1 houtcome
      simp only at h1 houtcome
      have hafter : ∀ e, s1.db.executions.find? (Execution.names account executionId) = some e →
          s1.db.replicas = t.db.replicas → s1.db.replicaAccounts = t.db.replicaAccounts →
          t'.db = joined policy replica e s1.db ∧
            outcome = answered replica (snapshotOf t'.db e) := by
        intro e he hreplicas haccounts
        have hmember1 := (memberAccount_congr hreplicas haccounts replica mediator).trans hmember
        rw [hmember1] at h2
        simp only [he] at h2
        have hdb : t'.db = joined policy replica e s1.db := h2
        have hmember2 : memberAccount t'.db replica mediator = some account := by
          rw [hdb, memberAccount_congr (joined_replicas _ _ _ _) (joined_replicaAccounts _ _ _ _),
            hmember1]
        refine ⟨hdb, ?_⟩
        rw [houtcome, hmember2, Option.bind_some]
        have he2 : t'.db.executions.find? (Execution.names account executionId) = some e := by
          rw [hdb, joined_executions, he]
        rw [he2]
        rfl
      have hstays : s1.db = t.db →
          Registering id ⟨replica, mediator, executionId, policy⟩ now t.db t'.db outcome := by
        intro hs1
        cases hfind : t.db.executions.find? (Execution.names account executionId) with
        | none =>
            rw [hs1, hmember] at h2
            simp only [hfind] at h2
            rw [h2, hmember, Option.bind_some, hfind] at houtcome
            rw [houtcome, h2]
            exact .full
        | some e =>
            obtain ⟨hdb, hout⟩ := hafter e (by rw [hs1, hfind]) (by rw [hs1]) (by rw [hs1])
            rw [hout, hdb, hs1]
            exact .found e (List.mem_of_find?_eq_some hfind)
      split at h1
      · next hnew =>
          obtain ⟨executions, hinsert, hs1⟩ := bind_eq_ok.mp h1
          obtain ⟨hclash, rfl⟩ := insert_eq_ok hinsert
          have hs1 := (Except.ok.inj hs1).symm
          rw [Bool.and_eq_true, Bool.not_eq_true'] at hnew
          have hnone : t.db.executions.find? (Execution.names account executionId) = none :=
            List.find?_eq_none.mpr (List.any_eq_false.mp hnew.2)
          have hnames : Execution.names account executionId
              (newExecution id account ⟨replica, mediator, executionId, policy⟩ now) = true := by
            simp [Execution.names, newExecution]
          obtain ⟨hdb, hout⟩ := hafter
            (newExecution id account ⟨replica, mediator, executionId, policy⟩ now)
            (by
              rw [hs1]
              simp only
              rw [List.find?_append, hnone, Option.none_or, List.find?_singleton]
              exact if_pos hnames)
            (by rw [hs1]) (by rw [hs1])
          rw [hout, hdb]
          exact .made account s1.db hclash hs1
      · exact hstays (Except.ok.inj h1).symm

theorem purgeExecutions_ok {t t' : Tx Db} {n : Nat}
    (h : purgeExecutions now t = .ok (n, t')) :
    t'.db = { t.db with
      executions := delete (fun e => e.retainUntil ≤ (now / 1000).floor) t.db.executions
      registrations := t.db.registrations.filter fun x =>
        (delete (fun e => e.retainUntil ≤ (now / 1000).floor) t.db.executions).any
          (·.registrationId == x.registrationId) } := by
  replace h := select_bind_ok.mp h
  obtain ⟨s, hs, h⟩ := modify_bind_ok h
  rw [(pure_ok h).2, hs]

end

/-! ## The tables -/

/-- Registrations in order: told apart by their IDs, each with its replicas in the places
from the first on, one place for each, and no more of them than the limit. -/
structure Elected (limit : Nat) (used : List JsString) (db : Db) : Prop where
  ids : (db.executions.map Execution.registrationId).Nodup
  used : ∀ e ∈ db.executions, e.registrationId ∈ used
  held : ∀ x ∈ db.registrations, ∃ e ∈ db.executions, e.registrationId = x.registrationId
  places : ∀ e ∈ db.executions, (registrationsOf db e.registrationId).map Registration.ordinal =
    List.range' 1 (registrationsOf db e.registrationId).length
  replicas : ∀ e ∈ db.executions,
    ((registrationsOf db e.registrationId).map Registration.replicaDid).Nodup
  some : ∀ e ∈ db.executions, registrationsOf db e.registrationId ≠ []
  bounded : ∀ e ∈ db.executions, (registrationsOf db e.registrationId).length ≤ limit

section
variable {limit : Nat} {used : List JsString} {db db' : Db}

theorem elected_empty : Elected limit [] Db.empty where
  ids := List.nodup_nil
  used _ h := by cases h
  held _ h := by cases h
  places _ h := by cases h
  replicas _ h := by cases h
  some _ h := by cases h
  bounded _ h := by cases h

theorem Elected.grow (h : Elected limit used db) {used' : List JsString}
    (hsub : ∀ id ∈ used, id ∈ used') : Elected limit used' db :=
  { h with used := fun e he => hsub _ (h.used e he) }

/-- Registrations that stand, stand as they were. -/
structure Stands (db db' : Db) : Prop where
  executions : db'.executions.Sublist db.executions
  kept : ∀ e ∈ db'.executions,
    registrationsOf db' e.registrationId = registrationsOf db e.registrationId
  held : ∀ x ∈ db'.registrations, ∃ e ∈ db'.executions, e.registrationId = x.registrationId

theorem Elected.stands (h : Elected limit used db) (hs : Stands db db') :
    Elected limit used db' where
  ids := h.ids.sublist (hs.executions.map _)
  used e he := h.used e (hs.executions.subset he)
  held := hs.held
  places e he := by
    rw [hs.kept e he]
    exact h.places e (hs.executions.subset he)
  replicas e he := by
    rw [hs.kept e he]
    exact h.replicas e (hs.executions.subset he)
  some e he := by
    rw [hs.kept e he]
    exact h.some e (hs.executions.subset he)
  bounded e he := by
    rw [hs.kept e he]
    exact h.bounded e (hs.executions.subset he)

theorem Elected.same (h : Elected limit used db) (hexecutions : db'.executions = db.executions)
    (hregistrations : db'.registrations = db.registrations) : Stands db db' where
  executions := by rw [hexecutions]
  kept e _ := by rw [registrationsOf, registrationsOf, hregistrations]
  held := by
    rw [hexecutions, hregistrations]
    exact h.held

/-- Executions that end take their registrations along. -/
theorem stands_delete (which : Execution → Bool)
    (hexecutions : db'.executions = delete which db.executions)
    (hregistrations : db'.registrations = db.registrations.filter fun x =>
      (delete which db.executions).any (·.registrationId == x.registrationId)) :
    Stands db db' where
  executions := by
    rw [hexecutions]
    exact List.filter_sublist
  kept e he := by
    rw [hexecutions] at he
    rw [registrationsOf, registrationsOf, hregistrations, List.filter_filter]
    refine List.filter_congr fun x _ => ?_
    rw [Bool.and_eq_left_iff_imp]
    intro hx
    exact List.any_eq_true.mpr ⟨e, he, by rw [beq_iff_eq.mp hx]; exact beq_self_eq_true _⟩
  held x hx := by
    rw [hregistrations, List.mem_filter, List.any_eq_true] at hx
    obtain ⟨_, e, he, hid⟩ := hx
    exact ⟨e, by rwa [hexecutions], beq_iff_eq.mp hid⟩

/-- No call but a registration's adds to a registration or takes from it. -/
theorem stands_after (options : Options) (call : Call) (h : Elected limit used db) :
    Stands db (call.after options db) := by
  have hself : Stands db db := h.same rfl rfl
  cases call with
  | deleteReplicaAccount account mediator =>
      refine landed_keeps hself fun a t ht _ => ?_
      have hd := deleteReplicaAccount_ok ht
      refine stands_delete _ hd.executions ?_
      rw [hd.registrations, hd.executions]
  | removeReplica account mediator replica now =>
      refine landed_keeps hself fun a t ht _ => ?_
      have hr := removeReplica_ok ht
      exact h.same hr.executions hr.registrations
  | revokeMediation did =>
      refine landed_keeps hself fun a t ht _ => ?_
      obtain ⟨s, hs, heq⟩ := revokeMediation_ok ht
      refine h.same ?_ ?_
      · rw [heq]
        exact hs.executions
      · rw [heq]
        exact hs.registrations
  | fanOut id deliveryId now next packed bounds =>
      refine landed_keeps hself fun a t ht _ => ?_
      rcases fanOut_ok ht with ⟨_, heq⟩ | ⟨htaken, _⟩
      · rw [heq]
        exact hself
      · refine h.same ?_ ?_
        · rw [htaken.rest]
        · rw [htaken.rest]
  | grantMediation did now =>
      refine landed_keeps hself fun a t ht _ => ?_
      rw [grantMediation_ok ht]
      split <;> exact h.same rfl rfl
  | addRecipient owner recipient now =>
      refine landed_keeps hself fun a t ht _ => ?_
      rw [addRecipient_ok ht]
      split <;> exact h.same rfl rfl
  | removeRecipient owner recipient =>
      refine landed_keeps hself fun a t ht _ => ?_
      rw [removeRecipient_ok ht]
      exact h.same rfl rfl
  | registerReplicaAccount account long mediator create now registration =>
      refine landed_keeps hself fun a t ht _ => ?_
      rw [registerReplicaAccount_ok ht]
      split <;> exact h.same rfl rfl
  | addReplica account mediator replica long grant maxReplicas now =>
      refine landed_keeps hself fun a t ht _ => ?_
      rw [addReplica_ok ht]
      split <;> exact h.same rfl rfl
  | addSharedRecipient account mediator recipient long maxRecipients now =>
      refine landed_keeps hself fun a t ht _ => ?_
      rw [addSharedRecipient_ok ht]
      split <;> exact h.same rfl rfl
  | removeSharedRecipient account mediator recipient =>
      refine landed_keeps hself fun a t ht _ => ?_
      rw [removeSharedRecipient_ok ht]
      exact h.same rfl rfl
  | acknowledgeDeliveries replica ids =>
      refine landed_keeps hself fun a t ht _ => ?_
      rw [acknowledgeDeliveries_ok ht]
      exact h.same rfl rfl
  | purgeExpired now =>
      refine landed_keeps hself fun a t ht _ => ?_
      rw [purgeExpired_ok ht]
      exact h.same rfl rfl

/-! ## Joining a registration -/

/-- The replicas of a registration, in the order of their places. -/
def members (db : Db) (registrationId : JsString) : List Did :=
  (registrationsOf db registrationId).map Registration.replicaDid

theorem length_members (db : Db) (id : JsString) :
    (members db id).length = (registrationsOf db id).length := List.length_map _

/-- A replica joins in the next place, unless the registration is full or lists it. -/
theorem joined_cases {policy : ExecutionPolicy} {replica : Did} {e : Execution}
    (hplaces : (registrationsOf db e.registrationId).map Registration.ordinal =
      List.range' 1 (registrationsOf db e.registrationId).length) :
    (joined policy replica e db = db ∧
      ((members db e.registrationId).length < policy.maxReplicas →
        replica ∈ members db e.registrationId)) ∨
    (joined policy replica e db = { db with
        registrations := db.registrations ++
          [⟨e.registrationId, replica, (registrationsOf db e.registrationId).length + 1⟩] } ∧
      (members db e.registrationId).length < policy.maxReplicas ∧
      replica ∉ members db e.registrationId) := by
  rw [length_members, joined]
  split
  · next hlt =>
    have hclash : db.registrations.any (Registration.clash ⟨e.registrationId, replica,
        (registrationsOf db e.registrationId).length + 1⟩) = true ↔
        replica ∈ members db e.registrationId := by
      rw [List.any_eq_true, members, List.mem_map]
      constructor
      · intro h
        obtain ⟨x, hx, hc⟩ := h
        simp only [Registration.clash, Bool.and_eq_true, Bool.or_eq_true, beq_iff_eq] at hc
        have hmem : x ∈ registrationsOf db e.registrationId :=
          List.mem_filter.mpr ⟨hx, by simp [hc.1]⟩
        rcases hc.2 with hreplica | hordinal
        · exact ⟨x, hmem, hreplica.symm⟩
        · -- the places taken end before the next one
          have hplace := List.mem_map_of_mem (f := Registration.ordinal) hmem
          rw [hplaces, ← hordinal, List.mem_range'_1] at hplace
          omega
      · intro h
        obtain ⟨x, hx, rfl⟩ := h
        obtain ⟨hx, hid⟩ := List.mem_filter.mp hx
        refine ⟨x, hx, ?_⟩
        simp [Registration.clash, (beq_iff_eq.mp hid).symm]
    rw [insertOrIgnore]
    split
    · next hc => exact .inl ⟨rfl, fun _ => hclash.mp hc⟩
    · next hc => exact .inr ⟨rfl, hlt, fun hmem => hc (hclash.mpr hmem)⟩
  · next hge => exact .inl ⟨rfl, fun hlt => absurd hlt hge⟩

/-- A registration found, or one just made, with one replica more. -/
structure Appended (e : Execution) (replica : Did) (db db' : Db) : Prop where
  before : ∀ e' ∈ db'.executions, e' ∈ db.executions ∨ e' = e
  stays : ∀ e' ∈ db.executions, e' ∈ db'.executions
  mem : e ∈ db'.executions
  registrations : db'.registrations = db.registrations ++
    [⟨e.registrationId, replica, (registrationsOf db e.registrationId).length + 1⟩]

theorem Appended.self {e : Execution} {replica : Did} (h : Appended e replica db db') :
    registrationsOf db' e.registrationId = registrationsOf db e.registrationId ++
      [⟨e.registrationId, replica, (registrationsOf db e.registrationId).length + 1⟩] := by
  rw [registrationsOf, h.registrations, List.filter_append]
  congr 1
  exact List.filter_singleton.trans (by simp)

theorem Appended.members {e : Execution} {replica : Did} (h : Appended e replica db db') :
    members db' e.registrationId = members db e.registrationId ++ [replica] := by
  rw [Mediator.members, h.self, List.map_append]
  rfl

theorem Appended.other {e : Execution} {replica : Did} (h : Appended e replica db db')
    {id : JsString} (hid : e.registrationId ≠ id) :
    registrationsOf db' id = registrationsOf db id := by
  have hnone : ([⟨e.registrationId, replica, (registrationsOf db e.registrationId).length + 1⟩] :
      List Registration).filter (·.registrationId == id) = [] := by
    rw [List.filter_eq_nil_iff]
    intro x hx
    rw [List.mem_singleton.mp hx]
    simp [hid]
  rw [registrationsOf, h.registrations, List.filter_append, hnone, List.append_nil]
  rfl

theorem Elected.appended {e : Execution} {replica : Did} {used' : List JsString}
    (h : Elected limit used db) (ha : Appended e replica db db')
    (hids : (db'.executions.map Execution.registrationId).Nodup)
    (hused : ∀ e' ∈ db'.executions, e'.registrationId ∈ used')
    (hplaces : (registrationsOf db e.registrationId).map Registration.ordinal =
      List.range' 1 (registrationsOf db e.registrationId).length)
    (hreplicas : (members db e.registrationId).Nodup)
    (hnew : replica ∉ members db e.registrationId)
    (hlt : (members db e.registrationId).length < limit) : Elected limit used' db' := by
  have hself := ha.self
  -- another registration stands as it was, and this one has one replica more
  have hcases : ∀ e' ∈ db'.executions, e' = e ∨
      e' ∈ db.executions ∧ registrationsOf db' e'.registrationId =
        registrationsOf db e'.registrationId := by
    intro e' he'
    by_cases hid : e.registrationId = e'.registrationId
    · exact .inl (List.inj_on_of_nodup_map hids he' ha.mem hid.symm)
    · rcases ha.before e' he' with hmem | rfl
      · exact .inr ⟨hmem, ha.other hid⟩
      · exact absurd rfl hid
  constructor
  · exact hids
  · exact hused
  · intro x hx
    rw [ha.registrations, List.mem_append, List.mem_singleton] at hx
    rcases hx with hx | rfl
    · obtain ⟨e', he', hid⟩ := h.held x hx
      exact ⟨e', ha.stays e' he', hid⟩
    · exact ⟨e, ha.mem, rfl⟩
  · intro e' he'
    rcases hcases e' he' with rfl | ⟨hmem, heq⟩
    · rw [hself, List.map_append, hplaces, List.length_append, List.length_singleton,
        List.range'_concat]
      simp [Nat.add_comm]
    · rw [heq]
      exact h.places e' hmem
  · intro e' he'
    rcases hcases e' he' with rfl | ⟨hmem, heq⟩
    · have hmembers := ha.members
      rw [Mediator.members] at hmembers
      rw [hmembers]
      exact List.nodup_append.mpr ⟨hreplicas, List.nodup_singleton _, fun a ha b hb hab => by
        rw [hab, List.mem_singleton.mp hb] at ha
        exact hnew ha⟩
    · rw [heq]
      exact h.replicas e' hmem
  · intro e' he'
    rcases hcases e' he' with rfl | ⟨hmem, heq⟩
    · rw [hself]
      simp
    · rw [heq]
      exact h.some e' hmem
  · intro e' he'
    rcases hcases e' he' with rfl | ⟨hmem, heq⟩
    · rw [length_members] at hlt
      rw [hself, List.length_append, List.length_singleton]
      omega
    · rw [heq]
      exact h.bounded e' hmem

/-- What a registration is told as lists its members in order. -/
theorem snapshotOf_replicas (h : Elected limit used db) {e : Execution}
    (he : e ∈ db.executions) : (snapshotOf db e).replicas = members db e.registrationId := by
  have hsorted : (registrationsOf db e.registrationId).Pairwise fun a b =>
      ((fun a b : Registration => compare a.ordinal b.ordinal) a b).isLE := by
    have hplaces : ((registrationsOf db e.registrationId).map Registration.ordinal).Pairwise
        (· ≤ ·) := by
      rw [h.places e he]
      exact List.pairwise_le_range'
    rw [List.pairwise_map] at hplaces
    exact hplaces.imp fun hle => Nat.isLE_compare.mpr hle
  rw [snapshotOf, members]
  simp only [Cmp.sortBy_of_sorted hsorted]

/-! ## What was told -/

/-- The tellings in an answer. -/
def RegisterExecutionOutcome.told : RegisterExecutionOutcome → List ExecutionRegistrationSnapshot
  | .registered s => [s]
  | .unknown => []
  | .full => []

/-- The registration is as it was told, with replicas more at most. -/
structure Tells (db : Db) (e : Execution) (s : ExecutionRegistrationSnapshot) : Prop where
  executionId : s.executionId = e.executionId
  createdTime : s.createdTime = e.createdTime
  retainUntil : s.retainUntil = e.retainUntil
  replicas : s.replicas <+: members db e.registrationId

/-- Two tellings of one registration: one time, and one list begins the other. -/
structure Agree (s s' : ExecutionRegistrationSnapshot) : Prop where
  executionId : s.executionId = s'.executionId
  createdTime : s.createdTime = s'.createdTime
  retainUntil : s.retainUntil = s'.retainUntil
  replicas : s.replicas <+: s'.replicas ∨ s'.replicas <+: s.replicas

theorem Agree.symm {s s' : ExecutionRegistrationSnapshot} (h : Agree s s') : Agree s' s :=
  ⟨h.executionId.symm, h.createdTime.symm, h.retainUntil.symm, h.replicas.symm⟩

theorem Tells.agree {e : Execution} {s s' : ExecutionRegistrationSnapshot} (h : Tells db e s)
    (h' : Tells db e s') : Agree s s' where
  executionId := h.executionId.trans h'.executionId.symm
  createdTime := h.createdTime.trans h'.createdTime.symm
  retainUntil := h.retainUntil.trans h'.retainUntil.symm
  replicas := List.prefix_or_prefix_of_prefix h.replicas h'.replicas

/-- Everything answered so far, and the tables. -/
structure Told (limit : Nat) (used : List JsString) (told : List ExecutionRegistrationSnapshot)
    (db : Db) : Prop where
  elected : Elected limit used db
  known : ∀ s ∈ told, s.registrationId ∈ used
  live : ∀ s ∈ told, ∀ e ∈ db.executions, e.registrationId = s.registrationId → Tells db e s
  agree : ∀ s ∈ told, ∀ s' ∈ told, s.registrationId = s'.registrationId → Agree s s'
  some : ∀ s ∈ told, s.replicas ≠ []
  nodup : ∀ s ∈ told, s.replicas.Nodup
  bounded : ∀ s ∈ told, s.replicas.length ≤ limit

section
variable {told : List ExecutionRegistrationSnapshot}

theorem told_empty : Told limit [] [] Db.empty where
  elected := elected_empty
  known _ h := by cases h
  live _ h := by cases h
  agree _ h := by cases h
  some _ h := by cases h
  nodup _ h := by cases h
  bounded _ h := by cases h

theorem Told.stands (h : Told limit used told db) (hs : Stands db db') :
    Told limit used told db' :=
  { h with
    elected := h.elected.stands hs
    live := fun s hmem e he hid => by
      obtain ⟨hexecution, hcreated, hretain, hreplicas⟩ := h.live s hmem e (hs.executions.subset he) hid
      refine ⟨hexecution, hcreated, hretain, ?_⟩
      rw [members, hs.kept e he]
      exact hreplicas }

theorem Told.grow (h : Told limit used told db) {used' : List JsString}
    (hsub : ∀ id ∈ used, id ∈ used') : Told limit used' told db :=
  { h with
    elected := h.elected.grow hsub
    known := fun s hs => hsub _ (h.known s hs) }

/-- A registration of the tables, told as it is. -/
theorem Told.tell (h : Told limit used told db) {e : Execution} (he : e ∈ db.executions) :
    Told limit used (told ++ [snapshotOf db e]) db := by
  have hreplicas := snapshotOf_replicas h.elected he
  have htells : ∀ s ∈ told ++ [snapshotOf db e], ∀ e' ∈ db.executions,
      e'.registrationId = s.registrationId → Tells db e' s := by
    intro s hs e' he' hid
    rcases List.mem_append.mp hs with hs | hs
    · exact h.live s hs e' he' hid
    · rw [List.mem_singleton.mp hs] at hid ⊢
      have heq : e' = e := List.inj_on_of_nodup_map h.elected.ids he' he hid
      rw [heq]
      exact ⟨rfl, rfl, rfl, hreplicas ▸ List.prefix_refl _⟩
  have hagree : ∀ s ∈ told ++ [snapshotOf db e],
      s.registrationId = (snapshotOf db e).registrationId → Agree s (snapshotOf db e) := by
    intro s hs hid
    exact (htells s hs e he hid.symm).agree (htells _ (by simp) e he rfl)
  constructor
  · exact h.elected
  · intro s hs
    rcases List.mem_append.mp hs with hs | hs
    · exact h.known s hs
    · rw [List.mem_singleton.mp hs]
      exact h.elected.used e he
  · exact htells
  · intro s hs s' hs' hid
    rcases List.mem_append.mp hs' with hold' | hnew'
    · rcases List.mem_append.mp hs with hold | hnew
      · exact h.agree s hold s' hold' hid
      · rw [List.mem_singleton.mp hnew] at hid ⊢
        exact (hagree s' hs' hid.symm).symm
    · rw [List.mem_singleton.mp hnew'] at hid ⊢
      exact hagree s hs hid
  · intro s hs
    rcases List.mem_append.mp hs with hs | hs
    · exact h.some s hs
    · rw [List.mem_singleton.mp hs, hreplicas, members, Ne, List.map_eq_nil_iff]
      exact h.elected.some e he
  · intro s hs
    rcases List.mem_append.mp hs with hs | hs
    · exact h.nodup s hs
    · rw [List.mem_singleton.mp hs, hreplicas]
      exact h.elected.replicas e he
  · intro s hs
    rcases List.mem_append.mp hs with hs | hs
    · exact h.bounded s hs
    · rw [List.mem_singleton.mp hs, hreplicas, length_members]
      exact h.elected.bounded e he

/-- One replica more leaves what was told a beginning. -/
theorem Told.appended (h : Told limit used told db) {e : Execution} {replica : Did}
    (ha : Appended e replica db db') {used' : List JsString} (hsub : ∀ id ∈ used, id ∈ used')
    (helected : Elected limit used' db')
    (hfound : e ∈ db.executions ∨ ∀ s ∈ told, s.registrationId ≠ e.registrationId) :
    Told limit used' told db' where
  elected := helected
  known s hs := hsub _ (h.known s hs)
  live s hs e' he' hid := by
    have hmem : e' ∈ db.executions := by
      rcases ha.before e' he' with hmem | rfl
      · exact hmem
      · exact hfound.resolve_right fun hne => hne s hs hid.symm
    obtain ⟨hexecution, hcreated, hretain, hreplicas⟩ := h.live s hs e' hmem hid
    refine ⟨hexecution, hcreated, hretain, hreplicas.trans ?_⟩
    by_cases hsame : e.registrationId = e'.registrationId
    · rw [← hsame, ha.members]
      exact List.prefix_append _ _
    · have hother : members db' e'.registrationId = members db e'.registrationId := by
        rw [members, ha.other hsame, members]
      exact hother ▸ List.prefix_refl _
  agree := h.agree
  some := h.some
  nodup := h.nodup
  bounded := h.bounded

/-- The invariant over one registration, and that a refusal wrote nothing. -/
theorem Told.registering (h : Told limit used told db) {id : JsString} {r : ExecutionRegistration}
    {now : Millis} {outcome : RegisterExecutionOutcome} (hlimit : 1 ≤ limit)
    (hpolicy : r.policy.maxReplicas = limit) (hnew : id ∉ used)
    (hr : Registering id r now db db' outcome) :
    Told limit (used ++ [id]) (told ++ outcome.told) db' ∧
      (outcome.told = [] → db' = db) := by
  have hsub : ∀ i ∈ used, i ∈ used ++ [id] := fun i hi => List.mem_append_left _ hi
  have hanswer : ∀ {db' : Db} {e : Execution}, e ∈ db'.executions →
      Told limit (used ++ [id]) told db' →
      Told limit (used ++ [id]) (told ++ (answered r.replicaDid (snapshotOf db' e)).told) db' := by
    intro db' e he htold
    rw [answered]
    split
    · exact htold.tell he
    · rw [RegisterExecutionOutcome.told, List.append_nil]
      exact htold
  have hlisted : ∀ {db' : Db} {e : Execution}, Elected limit (used ++ [id]) db' →
      e ∈ db'.executions → r.replicaDid ∈ members db' e.registrationId →
      (answered r.replicaDid (snapshotOf db' e)).told ≠ [] := by
    intro db' e helected he hmem hnil
    rw [answered, if_pos] at hnil
    · cases hnil
    · rw [snapshotOf_replicas helected he]
      exact List.contains_iff_mem.mpr hmem
  cases hr with
  | unknown => exact ⟨by rw [RegisterExecutionOutcome.told, List.append_nil]; exact h.grow hsub, fun _ => rfl⟩
  | full => exact ⟨by rw [RegisterExecutionOutcome.told, List.append_nil]; exact h.grow hsub, fun _ => rfl⟩
  | found e he =>
      have hplaces := h.elected.places e he
      rcases @joined_cases db r.policy r.replicaDid _ hplaces with
        ⟨hsame, _⟩ | ⟨happ, hlt, hnot⟩
      · rw [hsame]
        exact ⟨hanswer he (h.grow hsub), fun _ => rfl⟩
      · have ha : Appended e r.replicaDid db (joined r.policy r.replicaDid e db) := by
          rw [happ]
          exact ⟨fun e' he' => .inl he', fun e' he' => he', he, rfl⟩
        have helected : Elected limit (used ++ [id]) _ := h.elected.appended ha
          (by rw [happ]; exact h.elected.ids)
          (fun e' he' => hsub _ (h.elected.used e' (by rw [happ] at he'; exact he'))) hplaces
          (h.elected.replicas e he) hnot (by rw [← hpolicy]; exact hlt)
        refine ⟨hanswer ha.mem (h.appended ha hsub helected (.inl he)), fun hnil => ?_⟩
        exact absurd hnil (hlisted helected ha.mem (by rw [ha.members]; simp))
  | made account db1 hclash hdb1 =>
      -- nothing is registered under an ID just drawn
      have hunused : ∀ e ∈ db.executions, e.registrationId ≠ id := by
        intro e he heq
        exact hnew (heq ▸ h.elected.used e he)
      have hnone : registrationsOf db id = [] := by
        rw [registrationsOf, List.filter_eq_nil_iff]
        intro x hx hid
        obtain ⟨e, he, hex⟩ := h.elected.held x hx
        exact hunused e he (hex.trans (beq_iff_eq.mp hid))
      have hnone1 : registrationsOf db1 id = [] := by
        rw [hdb1]
        exact hnone
      have hmembers1 : members db1 (newExecution id account r now).registrationId = [] :=
        List.map_eq_nil_iff.mpr hnone1
      have hplaces1 : (registrationsOf db1 (newExecution id account r now).registrationId).map
          Registration.ordinal = List.range' 1
            (registrationsOf db1 (newExecution id account r now).registrationId).length := by
        show (registrationsOf db1 id).map _ = List.range' 1 (registrationsOf db1 id).length
        rw [hnone1]
        rfl
      rcases @joined_cases db1 r.policy r.replicaDid _ hplaces1 with ⟨_, hmust⟩ | ⟨happ, hlt, hnot⟩
      · rw [hmembers1] at hmust
        have hin := hmust (by rw [List.length_nil]; omega)
        cases hin
      · have ha : Appended (newExecution id account r now) r.replicaDid db
            (joined r.policy r.replicaDid (newExecution id account r now) db1) := by
          rw [happ, hdb1]
          refine ⟨fun e' he' => ?_, fun e' he' => List.mem_append_left _ he', by simp, rfl⟩
          rcases List.mem_append.mp he' with he' | he'
          · exact .inl he'
          · exact .inr (List.mem_singleton.mp he')
        have hids : ((joined r.policy r.replicaDid (newExecution id account r now)
            db1).executions.map Execution.registrationId).Nodup := by
          rw [joined_executions, hdb1, List.map_append]
          refine List.nodup_append.mpr ⟨h.elected.ids, List.nodup_singleton _, ?_⟩
          intro i hi j hj hij
          obtain ⟨e, he, rfl⟩ := List.mem_map.mp hi
          rw [List.mem_singleton.mp hj] at hij
          exact hunused e he hij
        have hmembers : members db (newExecution id account r now).registrationId = [] :=
          List.map_eq_nil_iff.mpr hnone
        have helected : Elected limit (used ++ [id]) _ := h.elected.appended ha hids
          (fun e' he' => by
            rcases ha.before e' he' with hmem | rfl
            · exact hsub _ (h.elected.used e' hmem)
            · exact List.mem_append_right _ (List.mem_singleton_self _))
          (by
            show (registrationsOf db id).map _ = List.range' 1 (registrationsOf db id).length
            rw [hnone]
            rfl)
          (by rw [hmembers]; exact List.nodup_nil) (by rw [hmembers]; exact List.not_mem_nil)
          (by rw [hmembers, List.length_nil]; omega)
        refine ⟨hanswer ha.mem (h.appended ha hsub helected (.inr fun s hs hid => ?_)),
          fun hnil => ?_⟩
        · have hid : s.registrationId = id := hid
          exact hnew (by rw [← hid]; exact h.known s hs)
        · exact absurd hnil (hlisted helected ha.mem (by rw [ha.members]; simp))

end

end

/-! ## Runs -/

/-- The registration ID a call draws. -/
def StoreCall.registrationId : StoreCall → Option JsString
  | .registerExecution id _ _ => some id
  | _ => none

/-- Where the call registers an execution, the policy is of this many replicas. -/
def StoreCall.Limited (limit : Nat) : StoreCall → Prop
  | .registerExecution _ r _ => r.policy.maxReplicas = limit
  | _ => True

def StoreAnswer.told : StoreAnswer → List ExecutionRegistrationSnapshot
  | .execution outcome => outcome.told
  | _ => []

/-- Every registration answered in a run. -/
def tellings (answers : List (StoreCall × StoreAnswer)) : List ExecutionRegistrationSnapshot :=
  answers.flatMap fun p => p.2.told

/-- A call that refuses to register an execution. -/
def StoreAnswer.refuses : StoreAnswer → Prop
  | .execution .unknown => True
  | .execution .full => True
  | _ => False

section
variable {limit : Nat} {used : List JsString} {told : List ExecutionRegistrationSnapshot} {db : Db}

/-- What a batch that tells nothing of executions leaves. -/
theorem Told.answering {α : Type} {answer : α → StoreAnswer} {batch : Batch α}
    (h : Told limit used told db) (hnone : ∀ a, (answer a).told = [])
    (hbatch : ∀ a t, batch ⟨db, false⟩ = .ok (a, t) → Stands db t.db) :
    (answering answer batch db).1.told = [] ∧ Told limit used told (answering answer batch db).2 := by
  rcases attempt_cases batch db with hfail | ⟨a, t, ht, hok, _⟩
  · rw [Mediator.answering, hfail]
    exact ⟨rfl, h⟩
  · rw [Mediator.answering, hok]
    exact ⟨hnone a, h.stands (hbatch a t ht)⟩

/-- The tables that hold the registrations of executions. -/
structure SameExecutions (db db' : Db) : Prop where
  executions : db'.executions = db.executions
  registrations : db'.registrations = db.registrations

theorem keepBlob_executions {keep : BlobKeep} {quotaBytes : Nat} {now : Millis} {t t' : Tx Db}
    {outcome : KeepOutcome} (h : keepBlob keep quotaBytes now t = .ok (outcome, t')) :
    SameExecutions t.db t'.db := by
  replace h := select_bind_ok.mp h
  replace h := select_bind_ok.mp h
  obtain ⟨_, s1, h1, h⟩ := bind_ok.mp h
  obtain ⟨h1, _⟩ := write_ok h1
  replace h := select_bind_ok.mp h
  obtain ⟨s2, h2, h⟩ := modify_bind_ok h
  replace h := select_bind_ok.mp h
  have hs1 : SameExecutions t.db s1.db := by
    split at h1
    · obtain ⟨blobs, _, h1⟩ := bind_eq_ok.mp h1
      rw [← Except.ok.inj h1]
      exact ⟨rfl, rfl⟩
    · rw [← Except.ok.inj h1]
      exact ⟨rfl, rfl⟩
  rw [(pure_ok h).2, h2]
  exact ⟨hs1.executions, hs1.registrations⟩

theorem grantUpload_executions {token id : JsString} {expiresAt : Millis} {t t' : Tx Db}
    {result : JsString} (h : grantUpload token id expiresAt t = .ok (result, t')) :
    SameExecutions t.db t'.db := by
  obtain ⟨_, s1, h1, h⟩ := bind_ok.mp h
  obtain ⟨h1, _⟩ := write_ok h1
  obtain ⟨uploads, _, h1⟩ := bind_eq_ok.mp h1
  rw [(pure_ok h).2, ← Except.ok.inj h1]
  exact ⟨rfl, rfl⟩

/-- One call: what was told before it and what it tells, and that a refusal wrote
nothing. -/
theorem told_serve (options : Options) {call : StoreCall} (h : Told limit used told db)
    (hlimit : 1 ≤ limit) (hpolicy : call.Limited limit)
    (hnew : ∀ id ∈ call.registrationId, id ∉ used) :
    Told limit (used ++ call.registrationId.toList) (told ++ (call.serve options db).1.told)
        (call.serve options db).2 ∧
      ((call.serve options db).1.refuses → (call.serve options db).2 = db) := by
  -- a call that registers nothing draws no ID, tells nothing and refuses nothing
  have hquiet : ∀ answer : StoreAnswer, ∀ db', answer.told = [] ∧ Told limit used told db' →
      Told limit (used ++ (none : Option JsString).toList) (told ++ answer.told) db' := by
    intro answer db' hboth
    rw [hboth.1, List.append_nil, Option.toList_none, List.append_nil]
    exact hboth.2
  have hself : Stands db db := h.elected.same rfl rfl
  have hsilent : ∀ {α : Type} (answer : α → StoreAnswer) (batch : Batch α),
      (∀ a, ¬ (answer a).refuses) → (answering answer batch db).1.refuses →
      (answering answer batch db).2 = db := by
    intro α answer batch hno hr
    rcases attempt_cases batch db with hfail | ⟨a, t, _, hok, _⟩
    · rw [answering, hfail]
    · rw [answering, hok] at hr
      exact absurd hr (hno a)
  cases call with
  | mediation call =>
      exact ⟨hquiet .none _ ⟨rfl, h.stands (stands_after options call h.elected)⟩, fun hr => hr.elim⟩
  | registerExecution id r now =>
      have hid : id ∉ used := hnew id rfl
      rw [StoreCall.serve]
      rcases attempt_cases (registerExecution id r now) db with hfail | ⟨outcome, t, ht, hok, _⟩
      · rw [answering, hfail]
        refine ⟨?_, fun _ => rfl⟩
        simp only [StoreAnswer.told, Option.map_none, Option.getD_none, List.append_nil]
        exact h.grow fun i hi => List.mem_append_left _ hi
      · rw [answering, hok]
        obtain ⟨htold, hwrote⟩ := h.registering hlimit hpolicy hid (registerExecution_ok ht)
        refine ⟨htold, fun hr => hwrote ?_⟩
        cases outcome with
        | registered s => exact hr.elim
        | unknown => rfl
        | full => rfl
  | purgeExecutions now =>
      refine ⟨hquiet _ _ (h.answering (fun _ => rfl) fun a t ht => ?_),
        hsilent _ _ fun _ hr => hr⟩
      rw [purgeExecutions_ok ht]
      exact stands_delete _ rfl rfl
  | keepBlob keep quotaBytes now =>
      refine ⟨hquiet _ _ (h.answering (fun _ => rfl) fun a t ht => ?_),
        hsilent _ _ fun _ hr => hr⟩
      have hs := keepBlob_executions ht
      exact h.elected.same hs.executions hs.registrations
  | dropBlob owner hash =>
      refine ⟨hquiet _ _ (h.answering (fun _ => rfl) fun a t ht => ?_),
        hsilent _ _ fun _ hr => hr⟩
      replace ht := select_bind_ok.mp ht
      obtain ⟨s, hs, ht⟩ := modify_bind_ok ht
      rw [(pure_ok ht).2]
      exact h.elected.same (by rw [hs]) (by rw [hs])
  | grantUpload token id expiresAt =>
      refine ⟨hquiet _ _ (h.answering (fun _ => rfl) fun a t ht => ?_),
        hsilent _ _ fun _ hr => hr⟩
      have hs := grantUpload_executions ht
      exact h.elected.same hs.executions hs.registrations
  | claimUpload token now =>
      refine ⟨hquiet _ _ (h.answering (fun _ => rfl) fun a t ht => ?_),
        hsilent _ _ fun _ hr => hr⟩
      replace ht := select_bind_ok.mp ht
      obtain ⟨s, hs, ht⟩ := modify_bind_ok ht
      rw [(pure_ok ht).2]
      exact h.elected.same (by rw [hs]) (by rw [hs])
  | markUploaded id now =>
      refine ⟨hquiet _ _ (h.answering (fun _ => rfl) fun a t ht => ?_),
        hsilent _ _ fun _ hr => hr⟩
      have hs := modify_ok ht
      exact h.elected.same (by rw [hs]) (by rw [hs])
  | purgeBlobs now =>
      refine ⟨hquiet _ _ (h.answering (fun _ => rfl) fun a t ht => ?_),
        hsilent _ _ fun _ hr => hr⟩
      replace ht := select_bind_ok.mp ht
      obtain ⟨s1, h1, ht⟩ := modify_bind_ok ht
      obtain ⟨s2, h2, ht⟩ := modify_bind_ok ht
      obtain ⟨s3, h3, ht⟩ := modify_bind_ok ht
      rw [(pure_ok ht).2]
      exact h.elected.same (by rw [h3, h2, h1]) (by rw [h3, h2, h1])

/-- The invariant over a run. -/
theorem told_serveAll (options : Options) {calls : List StoreCall} (h : Told limit used told db)
    (hlimit : 1 ≤ limit) (hpolicy : ∀ call ∈ calls, call.Limited limit)
    (hids : (used ++ calls.filterMap StoreCall.registrationId).Nodup) :
    Told limit (used ++ calls.filterMap StoreCall.registrationId)
      (told ++ tellings (serveAll options calls db).1) (serveAll options calls db).2 := by
  induction calls generalizing used told db with
  | nil =>
      rw [serveAll, tellings, List.filterMap_nil, List.flatMap_nil, List.append_nil,
        List.append_nil]
      exact h
  | cons call calls ih =>
      rw [filterMap_cons_toList, ← List.append_assoc] at hids ⊢
      have hnew : ∀ id ∈ call.registrationId, id ∉ used := by
        intro id hid hused
        have hdisjoint := (List.nodup_append.mp (List.nodup_append.mp hids).1).2.2
        exact hdisjoint id hused id (Option.mem_toList.mpr hid) rfl
      have hone := (told_serve options h hlimit (hpolicy call List.mem_cons_self) hnew).1
      have hrest := ih hone (fun c hc => hpolicy c (List.mem_cons_of_mem _ hc)) hids
      rw [List.append_assoc told] at hrest
      exact hrest

/-- A refused registration, wherever in a run it stands, wrote nothing. -/
theorem refused_serve (options : Options) {before : List StoreCall} {call : StoreCall}
    (hlimit : 1 ≤ limit) (hpolicy : ∀ c ∈ before ++ [call], c.Limited limit)
    (hids : ((before ++ [call]).filterMap StoreCall.registrationId).Nodup)
    (hrefuses : (call.serve options (serveAll options before Db.empty).2).1.refuses) :
    (call.serve options (serveAll options before Db.empty).2).2 =
      (serveAll options before Db.empty).2 := by
  rw [List.filterMap_append] at hids
  have hbefore : ([] ++ before.filterMap StoreCall.registrationId).Nodup := by
    rw [List.nil_append]
    exact (List.nodup_append.mp hids).1
  have htold := told_serveAll options (@told_empty limit) hlimit
    (fun c hc => hpolicy c (List.mem_append_left _ hc)) hbefore
  refine (told_serve options htold hlimit (hpolicy call (by simp)) ?_).2 hrefuses
  intro id hid hused
  refine (List.nodup_append.mp hids).2.2 id hused id ?_ rfl
  exact List.mem_filterMap.mpr ⟨call, List.mem_singleton_self _, hid⟩

end

end Estoc.Mediator
