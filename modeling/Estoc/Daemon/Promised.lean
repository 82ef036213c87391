import Estoc.Daemon.Client

/-!
# Every promise of a session is settled once

What a session keeps of its promises is one list: those of the calls that wait for a reply, those of
the barriers and those that wait for the connection. The ledger keeps with it (`Promises.Ledger`),
so that no promise is settled twice or lost, whatever comes in whatever order; and a session that
ended keeps none. Only while a reply is told to its call is a promise in neither place: the call was
taken off the map, and nothing else settles it then.
-/

set_option linter.unusedSectionVars false

namespace Estoc.Daemon

open Json (lit)
open Utf16 (JsString)
open Promises (Ledger)

namespace Client

variable {Data Input Raw Limits S L V : Type} {sdk : Sdk Data Input Raw Limits S L V}
  {client client' client'' : Client Data Limits S L V} {owed : List Nat} {may : Nat → Prop}

/-! ## What a session keeps -/

/-- The promises a session is to settle. -/
def awaited (client : Client Data Limits S L V) : List Nat :=
  client.pending.values.filterMap Pending.promise ++ client.barriers.map Barrier.promise ++
    client.waiting

/-- The IDs of the calls handed to the port. -/
def issued (client : Client Data Limits S L V) : List Nat := client.sent.filterMap Prod.fst

/-- What holds of a session between turns; within one some promises may be owed by what runs. -/
structure Sound (client : Client Data Limits S L V) (owed : List Nat) : Prop where
  keeps : client.ledger.Keeps (owed ++ client.awaited)
  fresh : ∀ id ∈ client.pending.keys, id < client.nextId
  issued : ∀ id ∈ client.issued, id < client.nextId
  once : client.issued.Nodup
  ended : client.ended = true → client.pending = .empty ∧ client.barriers = [] ∧
    client.waiting = [] ∧ client.isConnected = false

/-- What a session comes to by some of its steps: nothing settled is unsettled, an ID that was
answered is not waited for again, and what ended stays as it was. A step that does not end the
session settles, of the promises there were, only some. -/
structure Goes (may : Nat → Prop) (client client' : Client Data Limits S L V) : Prop where
  nextId : client.nextId ≤ client'.nextId
  handed : client.ledger.handed ≤ client'.ledger.handed
  limits : client.limits.isSome = true → client'.limits.isSome = true
  gone : ∀ id < client.nextId, id ∉ client.pending.keys → id ∉ client'.pending.keys
  ended : client.ended = true → client'.ended = true ∧ client'.sent = client.sent ∧
    client'.state = client.state ∧ client'.lines = client.lines
  settled : client.ledger.settled <+: client'.ledger.settled
  only : client'.ended = true ∨ ∀ promise ∈ client'.ledger.settled.map Prod.fst,
    promise ∈ client.ledger.settled.map Prod.fst ∨ client.ledger.handed ≤ promise ∨ may promise

theorem Goes.refl : Goes may client client where
  nextId := Nat.le_refl _
  handed := Nat.le_refl _
  limits h := h
  gone _ _ h := h
  ended h := ⟨h, rfl, rfl, rfl⟩
  settled := List.prefix_rfl
  only := .inr fun _ h => .inl h

theorem Goes.trans (h : Goes may client client') (h' : Goes may client' client'') :
    Goes may client client'' where
  nextId := h.nextId.trans h'.nextId
  handed := h.handed.trans h'.handed
  limits hlimits := h'.limits (h.limits hlimits)
  gone id hid hgone := h'.gone id (Nat.lt_of_lt_of_le hid h.nextId) (h.gone id hid hgone)
  ended hended := by
    obtain ⟨hended, hsent, hstate, hlines⟩ := h.ended hended
    obtain ⟨hended', hsent', hstate', hlines'⟩ := h'.ended hended
    exact ⟨hended', hsent'.trans hsent, hstate'.trans hstate, hlines'.trans hlines⟩
  settled := h.settled.trans h'.settled
  only := by
    rcases h'.only with hended | honly'
    · exact .inl hended
    · rcases h.only with hended | honly
      · exact .inl (h'.ended hended).1
      · refine .inr fun promise hpromise => ?_
        rcases honly' promise hpromise with hpromise | hlater | hmay
        · exact honly promise hpromise
        · exact .inr (.inl (h.handed.trans hlater))
        · exact .inr (.inr hmay)

theorem Goes.mono {may' : Nat → Prop} (h : Goes may client client') (hmay : ∀ promise, may promise → may' promise) :
    Goes may' client client' :=
  { h with only := h.only.imp_right fun honly promise hpromise =>
      (honly promise hpromise).imp_right (Or.imp_right (hmay promise)) }

theorem Sound.foldl {α : Type} {f : Client Data Limits S L V → α → Client Data Limits S L V}
    (hf : ∀ client a, Sound client [] → Sound (f client a) [] ∧ Goes may client (f client a))
    (h : Sound client []) (l : List α) : Sound (l.foldl f client) [] ∧ Goes may client (l.foldl f client) := by
  induction l generalizing client with
  | nil => exact ⟨h, .refl⟩
  | cons a rest ih =>
    obtain ⟨hsound, hgoes⟩ := hf client a h
    obtain ⟨hsound', hgoes'⟩ := ih hsound
    exact ⟨hsound', hgoes.trans hgoes'⟩

/-! ## What a view does -/

theorem Sound.handSettled {outcome : Outcome V} (h : Sound client []) :
    Sound (client.handSettled outcome) [] :=
  { h with keeps := h.keeps.handSettled }

theorem goes_handSettled {outcome : Outcome V} : Goes may client (client.handSettled outcome) where
  nextId := Nat.le_refl _
  handed := Nat.le_succ _
  limits h := h
  gone _ _ h := h
  ended h := ⟨h, rfl, rfl, rfl⟩
  settled := List.prefix_append _ _
  only := by
    refine .inr fun promise hpromise => ?_
    change promise ∈ (client.ledger.settled ++ [(client.ledger.handed, outcome)]).map Prod.fst at hpromise
    rw [List.map_append, List.mem_append] at hpromise
    rcases hpromise with hpromise | hpromise
    · exact .inl hpromise
    · exact .inr (.inl (Nat.le_of_eq (List.mem_singleton.mp hpromise).symm))

/-- A call is refused, and only its ID is used; or it is handed to the port and waits. -/
theorem send_cases (sdk : Sdk Data Input Raw Limits S L V) (client : Client Data Limits S L V)
    (name : JsString) (input : Input) (answered : Pending Limits) :
    (∃ refused nextId, client.nextId ≤ nextId ∧
      client.send sdk name input answered = (some refused, { client with nextId := nextId })) ∨
    ∃ data, client.send sdk name input answered = (none, { client with
      nextId := client.nextId + 1
      pending := client.pending.set client.nextId answered
      sent := client.sent ++ [(some client.nextId, data)] }) := by
  unfold send
  split
  · exact .inl ⟨_, client.nextId, Nat.le_refl _, rfl⟩
  · dsimp only
    split
    · exact .inl ⟨_, client.nextId + 1, Nat.le_succ _, rfl⟩
    · next data _ => exact .inr ⟨data, rfl⟩

/-- A call handed to the port waits under an ID that was none's. -/
theorem Sound.sent {answered : Pending Limits} {data : Data}
    (h : Sound client (answered.promise.toList ++ owed)) (hopen : client.ended = false) :
    Sound { client with
        nextId := client.nextId + 1
        pending := client.pending.set client.nextId answered
        sent := client.sent ++ [(some client.nextId, data)] } owed := by
  have hkey : client.nextId ∉ client.pending.keys := fun hin => Nat.lt_irrefl _ (h.fresh _ hin)
  refine ⟨h.keeps.perm ?_, ?_, ?_, ?_, fun hended => absurd (hopen.symm.trans hended) Bool.false_ne_true⟩
  · change (owed ++ ((client.pending.set client.nextId answered).values.filterMap Pending.promise ++ _ ++ _)).Perm _
    rw [OMap.values_set hkey, List.filterMap_append, awaited]
    have hone : [answered].filterMap Pending.promise = answered.promise.toList := by
      cases hpromise : answered.promise <;> simp [hpromise]
    rw [hone, List.perm_iff_count]
    intro promise
    simp only [List.count_append]
    omega
  · intro id hid
    rcases OMap.mem_keys_set.mp hid with hid | rfl
    · exact Nat.lt_succ_of_lt (h.fresh id hid)
    · exact Nat.lt_succ_self _
  · intro id hid
    change id ∈ (client.sent ++ [(some client.nextId, data)]).filterMap Prod.fst at hid
    rw [List.filterMap_append, List.mem_append] at hid
    rcases hid with hid | hid
    · exact Nat.lt_succ_of_lt (h.issued id hid)
    · exact Nat.lt_succ_of_le (Nat.le_of_eq (List.mem_singleton.mp hid))
  · change ((client.sent ++ [(some client.nextId, data)]).filterMap Prod.fst).Nodup
    rw [List.filterMap_append]
    refine List.Nodup.append h.once (List.nodup_singleton _) ?_
    intro id hid hid'
    rw [List.mem_singleton.mp hid'] at hid
    exact Nat.lt_irrefl _ (h.issued _ hid)

theorem Sound.settle {promise : Nat} {outcome : Outcome V} (h : Sound client (promise :: owed)) :
    Sound { client with ledger := client.ledger.settle promise outcome } owed :=
  { h with keeps := h.keeps.settle }

theorem goes_settle {promise : Nat} {outcome : Outcome V} (hmay : may promise) :
    Goes may client { client with ledger := client.ledger.settle promise outcome } where
  nextId := Nat.le_refl _
  handed := Nat.le_refl _
  limits h := h
  gone _ _ h := h
  ended h := ⟨h, rfl, rfl, rfl⟩
  settled := List.prefix_append _ _
  only := by
    refine .inr fun other hother => ?_
    change other ∈ (client.ledger.settled ++ [(promise, outcome)]).map Prod.fst at hother
    rw [List.map_append, List.mem_append] at hother
    rcases hother with hother | hother
    · exact .inl hother
    · rw [List.mem_singleton.mp hother]
      exact .inr (.inr hmay)

/-- A call of a promise is refused, and the promise is handed out settled; or the call waits. -/
theorem dispatch_cases (sdk : Sdk Data Input Raw Limits S L V) (client : Client Data Limits S L V)
    (name : JsString) (input : Input) (answered : Nat → Pending Limits) :
    (∃ refused nextId, client.nextId ≤ nextId ∧ client.dispatch sdk name input answered =
      Client.handSettled { client with nextId := nextId } (.rejected refused)) ∨
    ∃ data, client.dispatch sdk name input answered = { client with
      ledger := client.ledger.hand
      nextId := client.nextId + 1
      pending := client.pending.set client.nextId (answered client.ledger.handed)
      sent := client.sent ++ [(some client.nextId, data)] } := by
  unfold dispatch
  dsimp only
  rcases send_cases sdk { client with ledger := client.ledger.hand } name input
    (answered client.ledger.handed) with ⟨refused, nextId, hle, heq⟩ | ⟨data, heq⟩
  · rw [heq]
    exact .inl ⟨refused, nextId, hle, rfl⟩
  · rw [heq]
    exact .inr ⟨data, rfl⟩

theorem Sound.nextId {nextId : Nat} (h : Sound client owed) (hle : client.nextId ≤ nextId) :
    Sound { client with nextId := nextId } owed :=
  { h with
    fresh := fun id hid => Nat.lt_of_lt_of_le (h.fresh id hid) hle
    issued := fun id hid => Nat.lt_of_lt_of_le (h.issued id hid) hle }

theorem goes_nextId {nextId : Nat} (hle : client.nextId ≤ nextId) :
    Goes may client { client with nextId := nextId } :=
  { (Goes.refl : Goes may client client) with nextId := hle }

theorem goes_sent {answered : Pending Limits} {data : Data} (hopen : client.ended = false) :
    Goes may client { client with
      nextId := client.nextId + 1
      pending := client.pending.set client.nextId answered
      sent := client.sent ++ [(some client.nextId, data)] } := by
  refine { (Goes.refl : Goes may client client) with
    nextId := Nat.le_succ _
    gone := fun id hid hgone hin => ?_
    ended := fun hended => absurd (hopen.symm.trans hended) Bool.false_ne_true }
  rcases OMap.mem_keys_set.mp hin with hin | rfl
  · exact hgone hin
  · exact Nat.lt_irrefl _ hid

theorem goes_hand : Goes may client { client with ledger := client.ledger.hand } :=
  { (Goes.refl : Goes may client client) with handed := Nat.le_succ _ }

theorem Sound.dispatch {name : JsString} {input : Input} {answered : Nat → Pending Limits}
    (h : Sound client []) (hopen : client.ended = false)
    (hanswered : ∀ promise, (answered promise).promise = some promise) :
    Sound (client.dispatch sdk name input answered) [] := by
  rcases dispatch_cases sdk client name input answered with ⟨refused, nextId, hle, heq⟩ | ⟨data, heq⟩
  · rw [heq]
    exact (h.nextId hle).handSettled
  · rw [heq]
    have hhanded : Sound { client with ledger := client.ledger.hand }
        ((answered client.ledger.handed).promise.toList ++ []) := by
      rw [hanswered]
      exact { h with keeps := h.keeps.hand }
    exact hhanded.sent hopen

theorem goes_dispatch {name : JsString} {input : Input} {answered : Nat → Pending Limits}
    (hopen : client.ended = false) : Goes may client (client.dispatch sdk name input answered) := by
  rcases dispatch_cases sdk client name input answered with ⟨refused, nextId, hle, heq⟩ | ⟨data, heq⟩
  · rw [heq]
    exact (goes_nextId hle).trans goes_handSettled
  · rw [heq]
    exact (goes_sent hopen).trans goes_hand

theorem Sound.open_of_connected (h : Sound client owed) (hconnected : client.isConnected = true) :
    client.ended = false := by
  cases hended : client.ended with
  | false => rfl
  | true =>
    rw [(h.ended hended).2.2.2] at hconnected
    cases hconnected

theorem Sound.call {name : JsString} {input : Input} (h : Sound client []) :
    Sound (client.call sdk name input) [] ∧ Goes may client (client.call sdk name input) := by
  unfold Client.call
  split
  · exact ⟨h.handSettled, goes_handSettled⟩
  · split
    · exact ⟨h.handSettled, goes_handSettled⟩
    · next hconnected =>
      have hopen := h.open_of_connected (by simpa using hconnected)
      exact ⟨h.dispatch hopen fun _ => rfl, goes_dispatch hopen⟩

theorem Sound.refresh (h : Sound client []) :
    Sound (client.refresh sdk) [] ∧ Goes may client (client.refresh sdk) := by
  unfold Client.refresh
  split
  · exact ⟨h.handSettled, goes_handSettled⟩
  · next hconnected =>
    have hopen := h.open_of_connected (by simpa using hconnected)
    exact ⟨h.dispatch hopen fun _ => rfl, goes_dispatch hopen⟩

theorem Sound.connected (h : Sound client []) :
    Sound client.connected [] ∧ Goes may client client.connected := by
  unfold Client.connected
  split
  · exact ⟨h.handSettled, goes_handSettled⟩
  · split
    · exact ⟨h.handSettled, goes_handSettled⟩
    · next hopen =>
      refine ⟨⟨h.keeps.hand.perm ?_, h.fresh, h.issued, h.once, fun hended => absurd hended hopen⟩, ?_⟩
      · change ([] ++ (_ ++ (client.waiting ++ [client.ledger.handed]))).Perm _
        rw [List.nil_append, ← List.append_assoc]
        exact List.perm_append_singleton _ _
      · exact { (Goes.refl : Goes may client client) with
          handed := Nat.le_succ _
          ended := fun hended => absurd hended hopen }

/-! ## The end -/

theorem Sound.closing {closing : Bool} (h : Sound client owed) :
    Sound { client with closing := closing } owed := { h with }

theorem goes_closing {closing : Bool} : Goes may client { client with closing := closing } :=
  { (Goes.refl : Goes may client client) with }

theorem Sound.lateAct {late : Late Input} (h : Sound client []) :
    Sound (client.lateAct sdk late) [] ∧ Goes may client (client.lateAct sdk late) := by
  cases late with
  | call name input => exact h.call
  | refresh => exact h.refresh
  | connected => exact h.connected
  | close => exact ⟨h.closing, goes_closing⟩

/-- A session lost has nothing to settle, and all it had is settled. -/
theorem Sound.lose {connection : Connection Limits} (h : Sound client [])
    (hconnection : (connection matches .connected _ _) = false) :
    Sound (Client.lose { client with ended := true, connection := connection }) [] := by
  refine ⟨Ledger.Keeps.settleAll (h.keeps.perm ?_), fun id hid => absurd hid List.not_mem_nil, h.issued,
    h.once, fun _ => ⟨rfl, rfl, rfl, hconnection⟩⟩
  have hbarriers : client.barriers.filterMap
      (Client.settled { client with ended := true, connection := connection }) =
      client.barriers.map fun barrier => (barrier.promise, Outcome.rejected (lost (lit "refresh")
        (lit "the connection ended before the state arrived"))) := by
    rw [← List.filterMap_eq_map]
    rfl
  rw [hbarriers, List.map_append, List.map_append, List.map_filterMap, List.map_map, List.map_map]
  refine List.Perm.of_eq ?_
  change _ ++ [] = [] ++ client.awaited
  rw [List.append_nil, List.nil_append, awaited]
  congr 1
  · congr 1
    congr 1
    funext pending
    cases pending <;> rfl
  · exact List.map_id _

theorem goes_lose {connection : Connection Limits} (hopen : client.ended = false) :
    Goes may client (Client.lose { client with ended := true, connection := connection }) where
  nextId := Nat.le_refl _
  handed := Nat.le_refl _
  limits h := h
  gone _ _ _ hin := absurd hin List.not_mem_nil
  ended hended := absurd (hopen.symm.trans hended) Bool.false_ne_true
  settled := List.prefix_append _ _
  only := .inl rfl

theorem Sound.finish (h : Sound client []) (sdk : Sdk Data Input Raw Limits S L V)
    (connection : Connection Limits) (heard : List (Late Input))
    (hconnection : (connection matches .connected _ _) = false) :
    Sound (client.finish sdk connection heard) [] ∧ Goes may client (client.finish sdk connection heard) ∧
      (client.finish sdk connection heard).ended = true := by
  unfold Client.finish
  split
  · next hended => exact ⟨h, .refl, hended⟩
  · next hopen =>
    have hopen : client.ended = false := by simpa using hopen
    have hsound := h.lose hconnection
    obtain ⟨hlate, hgoes⟩ : _ ∧ Goes may _ _ :=
      hsound.foldl (fun _ _ h => h.lateAct) heard
    exact ⟨hlate, (goes_lose hopen).trans hgoes, (hgoes.ended rfl).1⟩

theorem Sound.close (h : Sound client []) (sdk : Sdk Data Input Raw Limits S L V)
    (heard : List (Late Input)) :
    Sound (client.close sdk heard) [] ∧ Goes may client (client.close sdk heard) := by
  obtain ⟨hsound, hgoes, -⟩ : Sound (client.close sdk heard) [] ∧ Goes may _ (client.close sdk heard) ∧ _ :=
    h.closing.finish sdk (.disconnected none) heard rfl
  exact ⟨hsound, goes_closing.trans hgoes⟩

theorem Sound.act (h : Sound client []) (act : Act Input) :
    Sound (client.act sdk act) [] ∧ Goes may client (client.act sdk act) := by
  cases act with
  | call name input => exact h.call
  | refresh => exact h.refresh
  | connected => exact h.connected
  | close heard => exact h.close sdk heard

theorem Sound.emit (h : Sound client []) (sdk : Sdk Data Input Raw Limits S L V)
    (heard : List (Act Input)) :
    Sound (client.emit sdk heard) [] ∧ Goes may client (client.emit sdk heard) :=
  h.foldl (fun _ act h => h.act act) heard

/-! ## What the daemon sends -/

/-- What a session that is open comes to by a step, whatever was owed before it. -/
structure Does (may : Nat → Prop) (client client' : Client Data Limits S L V) : Prop where
  sound : Sound client' []
  goes : Goes may client client'

theorem Sound.rejectCall {pending : Pending Limits} {error : CallError}
    (h : Sound client pending.promise.toList) (sdk : Sdk Data Input Raw Limits S L V)
    (heard : List (Late Input)) (hmay : ∀ promise, pending.promise = some promise → may promise) :
    Does may client (client.rejectCall sdk pending error heard) := by
  cases pending with
  | attach connection =>
    obtain ⟨hsound, hgoes, -⟩ := h.finish sdk (.disconnected (some error)) heard rfl
    exact ⟨hsound, hgoes⟩
  | refresh promise => exact ⟨h.settle, goes_settle (hmay promise rfl)⟩
  | call name promise => exact ⟨h.settle, goes_settle (hmay promise rfl)⟩

/-- A protocol error ends the session, its culprit refused first. -/
theorem Sound.protocolError {message : JsString} {culprit : Option (Pending Limits)}
    (h : Sound client (culprit.bind Pending.promise).toList) (sdk : Sdk Data Input Raw Limits S L V)
    (heard : List (Late Input)) :
    Does may client (client.protocolError sdk message culprit heard) ∧
      (client.protocolError sdk message culprit heard).ended = true := by
  have hends : ∀ {before : Client Data Limits S L V}, Does (fun _ => True) client before →
      ∀ {error : CallError}, Does may client (before.finish sdk (.disconnected (some error)) heard) ∧
        (before.finish sdk (.disconnected (some error)) heard).ended = true := by
    intro before hbefore error
    obtain ⟨hsound, hgoes, hended⟩ := hbefore.sound.finish sdk
      (.disconnected (some error)) heard rfl
    exact ⟨⟨hsound, { hbefore.goes.trans hgoes with only := .inl hended }⟩, hended⟩
  unfold Client.protocolError
  cases culprit with
  | none => exact hends ⟨h, .refl⟩
  | some pending => exact hends (h.rejectCall sdk heard fun _ _ => trivial)

theorem Sound.attached {baseline : BaselineOf S L} {connection : Connection Limits} (h : Sound client [])
    (sdk : Sdk Data Input Raw Limits S L V) (heard : Heard Input) (hopen : client.ended = false)
    (hmay : ∀ promise ∈ client.waiting, may promise) :
    Does may client (client.attached sdk baseline connection heard) := by
  unfold Client.attached
  split
  · exact (Sound.protocolError h sdk heard.ended).1
  · have hshown : Does may client { client with
        state := some baseline.state
        lines := some baseline.lines
        connection := connection
        waiting := []
        ledger := client.ledger.settleAll (client.waiting.map fun promise => (promise, Outcome.done)) } := by
      refine ⟨⟨Ledger.Keeps.settleAll (h.keeps.perm ?_), h.fresh, h.issued, h.once,
        fun hended => absurd (hopen.symm.trans hended) Bool.false_ne_true⟩, ?_⟩
      · have hwaiting : (client.waiting.map fun promise => (promise, (Outcome.done : Outcome V))).map
            Prod.fst = client.waiting := by
          rw [List.map_map]
          exact List.map_id _
        rw [hwaiting]
        change (client.waiting ++ ([] ++ (_ ++ []))).Perm ([] ++ (_ ++ client.waiting))
        rw [List.nil_append, List.append_nil, List.nil_append]
        exact List.perm_append_comm
      · refine { (Goes.refl : Goes may client client) with
          ended := fun hended => absurd (hopen.symm.trans hended) Bool.false_ne_true
          settled := List.prefix_append _ _
          only := .inr fun promise hpromise => ?_ }
        change promise ∈ (client.ledger.settled ++ _).map Prod.fst at hpromise
        rw [List.map_append, List.mem_append, List.map_map] at hpromise
        rcases hpromise with hpromise | hpromise
        · exact .inl hpromise
        · obtain ⟨waiting, hwaiting, rfl⟩ := List.mem_map.mp hpromise
          exact .inr (.inr (hmay waiting hwaiting))
    obtain ⟨hconnection, hgoes⟩ : _ ∧ Goes may _ _ := hshown.sound.emit sdk heard.connection
    obtain ⟨hstate, hgoes'⟩ : _ ∧ Goes may _ _ := hconnection.emit sdk heard.state
    obtain ⟨hlines, hgoes''⟩ : _ ∧ Goes may _ _ := hstate.emit sdk heard.lines
    exact ⟨hlines, hshown.goes.trans (hgoes.trans (hgoes'.trans hgoes''))⟩

theorem settled_promise {barrier : Barrier} {entry : Nat × Outcome V}
    (h : client.settled barrier = some entry) : entry.1 = barrier.promise := by
  unfold settled at h
  split at h
  · cases h
    rfl
  · split at h
    · cases h
    · split at h
      · cases h
        rfl
      · split at h
        · cases h
        · cases h
          rfl

theorem Sound.refreshed {promise : Nat} {target : RevisionMarker} (h : Sound client [promise])
    (hopen : client.ended = false) (hmay : may promise) :
    Does may client (client.refreshed promise target) := by
  unfold Client.refreshed
  split
  · next settled outcome hsettled =>
    have hpromise : settled = promise := settled_promise hsettled
    subst hpromise
    exact ⟨h.settle, goes_settle hmay⟩
  · refine ⟨⟨h.keeps.perm ?_, h.fresh, h.issued, h.once,
      fun hended => absurd (hopen.symm.trans hended) Bool.false_ne_true⟩, { (Goes.refl : Goes may client client) with
        ended := fun hended => absurd (hopen.symm.trans hended) Bool.false_ne_true }⟩
    change ([] ++ (_ ++ (client.barriers ++ [(⟨target, promise⟩ : Barrier)]).map Barrier.promise ++ _)).Perm
      ([promise] ++ (_ ++ client.barriers.map Barrier.promise ++ _))
    rw [List.perm_iff_count]
    intro other
    simp only [List.map_append, List.count_append, List.map_cons, List.map_nil, List.count_nil]
    omega

theorem Sound.replied {pending : Pending Limits} {limits : Limits} {value : Raw}
    (h : Sound client pending.promise.toList) (sdk : Sdk Data Input Raw Limits S L V)
    (heard : Heard Input) (hopen : client.ended = false)
    (hmay : ∀ promise, pending.promise = some promise → may promise)
    (hwaiting : ∀ connection, pending = .attach connection → ∀ promise ∈ client.waiting, may promise) :
    Does may client (client.replied sdk limits pending value heard) := by
  unfold Client.replied
  cases pending with
  | attach connection =>
    dsimp only
    split
    · exact (Sound.protocolError h sdk heard.ended).1
    · exact Sound.attached h sdk heard hopen (hwaiting connection rfl)
  | refresh promise =>
    dsimp only
    split
    · exact (Sound.protocolError h sdk heard.ended).1
    · exact h.refreshed hopen (hmay promise rfl)
  | call name promise =>
    dsimp only
    split
    · exact (Sound.protocolError h sdk heard.ended).1
    · exact ⟨h.settle, goes_settle (hmay promise rfl)⟩

theorem Sound.failed {pending : Pending Limits} {error : Raw}
    (h : Sound client pending.promise.toList) (sdk : Sdk Data Input Raw Limits S L V)
    (heard : Heard Input) (hmay : ∀ promise, pending.promise = some promise → may promise) :
    Does may client (client.failed sdk pending error heard) := by
  unfold Client.failed
  split
  · exact (Sound.protocolError h sdk heard.ended).1
  · exact h.rejectCall sdk heard.ended hmay

/-- A call taken off those that wait is owed its reply. -/
theorem Sound.taken {id : Nat} {pending : Pending Limits} (h : Sound client [])
    (hget : client.pending.get? id = some pending) :
    Sound { client with pending := client.pending.erase id } pending.promise.toList := by
  refine ⟨h.keeps.perm ?_, fun other hother => h.fresh other (OMap.mem_keys_erase.mp hother).1, h.issued,
    h.once, fun hended => ?_⟩
  · have hvalues := (OMap.perm_values_erase hget).filterMap Pending.promise
    have hcons : (pending :: (client.pending.erase id).values).filterMap Pending.promise =
        pending.promise.toList ++ (client.pending.erase id).values.filterMap Pending.promise := by
      cases pending <;> rfl
    rw [hcons, List.perm_iff_count] at hvalues
    rw [List.perm_iff_count]
    intro promise
    have hcount := hvalues promise
    simp only [awaited, List.count_append, List.nil_append] at hcount ⊢
    omega
  · rw [(h.ended hended).1] at hget
    cases hget

theorem goes_taken {id : Nat} (hopen : client.ended = false) :
    Goes may client { client with pending := client.pending.erase id } :=
  { (Goes.refl : Goes may client client) with
    gone := fun _ _ hgone hin => hgone (OMap.mem_keys_erase.mp hin).1
    ended := fun hended => absurd (hopen.symm.trans hended) Bool.false_ne_true }

/-- A reply is told to its call, and to nothing else. -/
theorem Sound.answer {id : Nat}
    {reply : Client Data Limits S L V → Pending Limits → Client Data Limits S L V} (h : Sound client [])
    (hopen : client.ended = false)
    (hreply : ∀ pending, client.pending.get? id = some pending →
      Sound { client with pending := client.pending.erase id } pending.promise.toList →
      Does may { client with pending := client.pending.erase id }
        (reply { client with pending := client.pending.erase id } pending)) :
    Does may client (client.answer id reply) := by
  unfold Client.answer
  split
  · exact ⟨h, .refl⟩
  · next pending hget =>
    have hdoes := hreply pending hget (h.taken hget)
    exact ⟨hdoes.sound, (goes_taken hopen).trans hdoes.goes⟩

/-- The barriers done and those that wait are the barriers there were. -/
theorem perm_barriers (client : Client Data Limits S L V) (barriers : List Barrier) :
    (barriers.map Barrier.promise).Perm ((barriers.filterMap client.settled).map Prod.fst ++
      (barriers.filter fun barrier => (client.settled barrier).isNone).map Barrier.promise) := by
  induction barriers with
  | nil => exact List.Perm.refl _
  | cons barrier rest ih =>
    cases hsettled : client.settled barrier with
    | none =>
      rw [List.filterMap_cons_none hsettled, List.filter_cons_of_pos (by rw [hsettled]; rfl),
        List.map_cons, List.map_cons]
      exact (List.Perm.cons _ ih).trans List.perm_middle.symm
    | some entry =>
      rw [List.filterMap_cons_some hsettled, List.filter_cons_of_neg (by rw [hsettled]; simp),
        List.map_cons, List.map_cons, settled_promise hsettled]
      exact List.Perm.cons _ ih

theorem Sound.applyState {current state : StateOf S} (h : Sound client [])
    (sdk : Sdk Data Input Raw Limits S L V) (heard : Heard Input) (hopen : client.ended = false) :
    Does (fun _ => True) client (client.applyState sdk current state heard) := by
  unfold Client.applyState
  split
  · exact (Sound.protocolError h sdk heard.ended).1
  · split
    · exact ⟨h, .refl⟩
    · have hshown : Does (fun _ => True) client { client with
          state := some state
          barriers := client.barriers.filter fun barrier =>
            (Client.settled { client with state := some state } barrier).isNone
          ledger := client.ledger.settleAll
            (client.barriers.filterMap (Client.settled { client with state := some state })) } := by
        refine ⟨⟨Ledger.Keeps.settleAll (h.keeps.perm ?_), h.fresh, h.issued, h.once,
          fun hended => absurd (hopen.symm.trans hended) Bool.false_ne_true⟩,
          { (Goes.refl : Goes (fun _ => True) client client) with
            ended := fun hended => absurd (hopen.symm.trans hended) Bool.false_ne_true
            settled := List.prefix_append _ _
            only := .inr fun _ _ => .inr (.inr trivial) }⟩
        have hbarriers := perm_barriers { client with state := some state } client.barriers
        rw [List.perm_iff_count] at hbarriers ⊢
        intro promise
        have hcount := hbarriers promise
        simp only [awaited, List.count_append, List.nil_append] at hcount ⊢
        omega
      obtain ⟨hsound, hgoes⟩ : _ ∧ Goes _ _ _ := hshown.sound.emit sdk heard.state
      exact ⟨hsound, hshown.goes.trans hgoes⟩

theorem Sound.applyLines {state : StateOf S} {lines : LinesStateOf L} (h : Sound client [])
    (sdk : Sdk Data Input Raw Limits S L V) (heard : Heard Input) (hopen : client.ended = false) :
    Does may client (client.applyLines sdk state lines heard) := by
  unfold Client.applyLines
  split
  · exact (Sound.protocolError h sdk heard.ended).1
  · split
    · exact (Sound.protocolError h sdk heard.ended).1
    · split
      · exact ⟨h, .refl⟩
      · have hshown : Does may client { client with lines := some lines } :=
          ⟨{ h with ended := fun hended => h.ended hended }, { (Goes.refl : Goes may client client) with
            ended := fun hended => absurd (hopen.symm.trans hended) Bool.false_ne_true }⟩
        obtain ⟨hsound, hgoes⟩ : _ ∧ Goes may _ _ := hshown.sound.emit sdk heard.lines
        exact ⟨hsound, hshown.goes.trans hgoes⟩

theorem Sound.applyLog {state : StateOf S} {line : LogLine} (h : Sound client [])
    (sdk : Sdk Data Input Raw Limits S L V) (heard : Heard Input) :
    Does may client (client.applyLog sdk state line heard) := by
  unfold Client.applyLog
  split
  · exact (Sound.protocolError h sdk heard.ended).1
  · obtain ⟨hsound, hgoes⟩ : _ ∧ Goes may _ _ := h.emit sdk heard.log
    exact ⟨hsound, hgoes⟩

theorem Sound.publish {name : EventName} {value : Raw} (h : Sound client [])
    (sdk : Sdk Data Input Raw Limits S L V) (heard : Heard Input) (hopen : client.ended = false) :
    Does (fun _ => True) client (client.publish sdk name value heard) := by
  have herror : ∀ message, Does (fun _ => True) client
      (client.protocolError sdk message none heard.ended) :=
    fun _ => (Sound.protocolError h sdk heard.ended).1
  unfold Client.publish
  dsimp only
  split
  · exact herror _
  · split
    · split
      · exact herror _
      · exact h.applyState sdk heard hopen
    · split
      · exact herror _
      · exact h.applyLines sdk heard hopen
    · split
      · exact herror _
      · exact h.applyLog sdk heard

theorem Sound.faulted {error : Raw} (h : Sound client []) (sdk : Sdk Data Input Raw Limits S L V)
    (heard : Heard Input) : Does may client (client.faulted sdk error heard) := by
  unfold Client.faulted
  split
  · exact (Sound.protocolError h sdk heard.ended).1
  · next error _ =>
    obtain ⟨hsound, hgoes, -⟩ := h.finish sdk (.disconnected (some ⟨error, .daemon⟩)) heard.ended rfl
    exact ⟨hsound, hgoes⟩

theorem Sound.negotiate {data : Data} (h : Sound client []) (sdk : Sdk Data Input Raw Limits S L V)
    (heard : Heard Input) (hopen : client.ended = false) :
    Does may client (client.negotiate sdk data heard) := by
  have herror : ∀ message, Does may client (client.protocolError sdk message none heard.ended) :=
    fun _ => (Sound.protocolError h sdk heard.ended).1
  unfold Client.negotiate
  split
  · exact herror _
  · exact herror _
  · next supported message _ =>
    obtain ⟨hsound, hgoes, -⟩ := h.finish sdk (.incompatible supported message) heard.ended rfl
    exact ⟨hsound, hgoes⟩
  · next api implementation limits _ =>
    split
    · exact herror _
    · have hwelcomed : Does may client { client with limits := some limits } :=
        ⟨{ h with }, { (Goes.refl : Goes may client client) with
          limits := fun _ => rfl
          ended := fun hended => absurd (hopen.symm.trans hended) Bool.false_ne_true }⟩
      rcases send_cases sdk { client with limits := some limits } (lit "attach") sdk.noInput
        (.attach (.connected implementation limits)) with ⟨refused, nextId, hle, heq⟩ | ⟨data, heq⟩
      · rw [heq]
        obtain ⟨hsound, hgoes, -⟩ : _ ∧ Goes may _ _ ∧ _ :=
          (hwelcomed.sound.nextId hle).finish sdk (.disconnected (some refused)) heard.ended rfl
        exact ⟨hsound, hwelcomed.goes.trans ((goes_nextId hle).trans hgoes)⟩
      · rw [heq]
        exact ⟨Sound.sent hwelcomed.sound hopen, hwelcomed.goes.trans (goes_sent hopen)⟩

theorem Sound.receive {data : Data} (h : Sound client []) (sdk : Sdk Data Input Raw Limits S L V)
    (heard : Heard Input) : Does (fun _ => True) client (client.receive sdk data heard) := by
  unfold Client.receive
  split
  · exact ⟨h, .refl⟩
  · next hopen =>
    have hopen : client.ended = false := by simpa using hopen
    split
    · exact h.negotiate sdk heard hopen
    · split
      · exact (Sound.protocolError h sdk heard.ended).1
      · exact h.answer hopen fun pending _ htaken => htaken.replied sdk heard hopen (fun _ _ => trivial)
          fun _ _ _ _ => trivial
      · exact h.answer hopen fun pending _ htaken => htaken.failed sdk heard fun _ _ => trivial
      · exact h.publish sdk heard hopen
      · exact h.faulted sdk heard
      · exact (Sound.protocolError h sdk heard.ended).1

/-- One turn, whatever it is. -/
theorem Sound.turn (h : Sound client []) (sdk : Sdk Data Input Raw Limits S L V)
    (turn : ClientTurn Data Input) : Does (fun _ => True) client (client.turn sdk turn) := by
  cases turn with
  | receives data heard => exact h.receive sdk heard
  | portCloses heard =>
    obtain ⟨hsound, hgoes, -⟩ := h.finish sdk (.disconnected (if client.closing then none
      else some (clientError (lit "TransportDisconnected") (lit "the port closed") .none))) heard rfl
    exact ⟨hsound, hgoes⟩
  | sendFails heard =>
    obtain ⟨hsound, hgoes, -⟩ := h.finish sdk (.disconnected (some (clientError
      (lit "TransportDisconnected") (lit "the port refused a frame") .none))) heard rfl
    exact ⟨hsound, hgoes⟩
  | acts act =>
    obtain ⟨hsound, hgoes⟩ : _ ∧ Goes _ _ _ := h.act act
    exact ⟨hsound, hgoes⟩

/-! ## A session's life -/

theorem Sound.turns (h : Sound client []) (turns : List (ClientTurn Data Input)) :
    Sound (turns.foldl (Client.turn sdk) client) [] ∧
      Goes (fun _ => True) client (turns.foldl (Client.turn sdk) client) :=
  h.foldl (fun _ turn h => ⟨(h.turn sdk turn).sound, (h.turn sdk turn).goes⟩) turns

/-- The ID a reply carries. -/
def replyId : RawFrame Raw → Option Nat
  | .result id _ => some id
  | .error id _ => some id
  | _ => none

/-- A frame that is a reply, once the welcome is in. -/
structure Reply (sdk : Sdk Data Input Raw Limits S L V) (client : Client Data Limits S L V) (data : Data)
    (id : Nat) : Prop where
  welcomed : client.limits.isSome = true
  read : (sdk.readFrame data).bind replyId = some id

/-- What a reply may settle: its call, or, where that is the attachment, those that wait for the
connection. -/
def Told (client : Client Data Limits S L V) (id promise : Nat) : Prop :=
  (∃ pending, client.pending.get? id = some pending ∧ pending.promise = some promise) ∨
    (∃ connection, client.pending.get? id = some (.attach connection)) ∧ promise ∈ client.waiting

/-- A reply of a call that does not wait is nothing; another settles what it may, and its call
waits no more. -/
theorem Sound.reply {data : Data} {id : Nat} (h : Sound client []) (hopen : client.ended = false)
    (hreply : Reply sdk client data id) (heard : Heard Input) :
    (id ∉ client.pending.keys → client.receive sdk data heard = client) ∧
      Does (Told client id) client (client.receive sdk data heard) ∧
      (id ∈ client.pending.keys → id ∉ (client.receive sdk data heard).pending.keys) := by
  obtain ⟨limits, hlimits⟩ := Option.isSome_iff_exists.mp hreply.welcomed
  have hanswer : ∃ reply, client.receive sdk data heard = client.answer id reply ∧
      ∀ pending, client.pending.get? id = some pending →
        Sound { client with pending := client.pending.erase id } pending.promise.toList →
        Does (Told client id) { client with pending := client.pending.erase id }
          (reply { client with pending := client.pending.erase id } pending) := by
    have hread := hreply.read
    unfold Client.receive
    rw [if_neg (by rw [hopen]; exact Bool.false_ne_true), hlimits]
    dsimp only
    cases hframe : sdk.readFrame data with
    | none => rw [hframe] at hread; cases hread
    | some frame =>
      rw [hframe] at hread
      cases frame with
      | result other value =>
        cases hread
        exact ⟨_, rfl, fun pending hget htaken => htaken.replied sdk heard hopen
          (fun promise hpromise => .inl ⟨pending, hget, hpromise⟩)
          fun connection hattach promise hwaiting => .inr ⟨⟨connection, hattach ▸ hget⟩, hwaiting⟩⟩
      | error other error =>
        cases hread
        exact ⟨_, rfl, fun pending hget htaken => htaken.failed sdk heard
          fun promise hpromise => .inl ⟨pending, hget, hpromise⟩⟩
      | _ => cases hread
  obtain ⟨reply, heq, hdoes⟩ := hanswer
  rw [heq]
  refine ⟨fun hnot => ?_, h.answer hopen hdoes, fun hin => ?_⟩
  · unfold Client.answer
    rw [OMap.get?_eq_none.mpr hnot]
  · obtain ⟨pending, hget⟩ := OMap.mem_keys.mp hin
    unfold Client.answer
    rw [hget]
    refine (hdoes pending hget (h.taken hget)).goes.gone id (h.fresh id hin) fun hin => ?_
    exact (OMap.mem_keys_erase.mp hin).2 rfl

variable (sdk)

section Example

/-- Frames are their own bytes, and a result is read where it is 0. -/
def plainSdk : Sdk (Option (RawFrame Nat)) Unit Nat Unit Unit Unit Unit where
  API_VERSION := 1
  isMethodName _ := true
  hello := none
  noInput := ()
  readBootstrap data := if data.isNone then some (.welcome 1 [] ()) else none
  readFrame := id
  writeCall _ _ _ _ := .ok (some .call)
  baseline _ _ := .ok ⟨⟨0, 0, .nonOpen ⟨.locked, none, none⟩⟩, ⟨0, 0, ()⟩⟩
  marker _ _ := .ok ⟨0, 0⟩
  result _ _ value := if value = 0 then .ok () else .error none
  apiError _ := .error none
  state _ := .error none
  lines _ := .error none
  log _ := .error none

end Example

end Client

end Estoc.Daemon
