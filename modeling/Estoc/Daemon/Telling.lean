import Estoc.Daemon.Notified

/-!
# What a session says

A session says something in three ways: it says nothing of the connection, it is attached, or it
ends. An end is said once, and a session that ended says nothing.
-/

set_option linter.unusedSectionVars false

namespace Estoc.Daemon

open Json (lit)
open Utf16 (JsString)

namespace Says

variable {Data Input Raw Limits S L V : Type} {sdk : Sdk Data Input Raw Limits S L V}
  {client client' : Client Data Limits S L V} {may : BaselineOf S L → Prop}

/-- A session ended is told apart by its connection, and an attachment awaited makes none that
ended. -/
structure Stands (client : Client Data Limits S L V) : Prop where
  ended : client.connection.isEnd = client.ended
  attach : ∀ {id connection}, client.pending.get? id = some (.attach connection) →
    connection.isEnd = false

theorem stands_opened : Stands (Client.opened sdk : Client Data Limits S L V) := by
  refine ⟨rfl, fun hget => ?_⟩
  change (OMap.empty : OMap Nat (Pending Limits)).get? _ = _ at hget
  rw [OMap.get?_empty] at hget
  cases hget

/-- What is said is what the session has by then. -/
def Shows (client : Client Data Limits S L V) : Said Limits S L → Prop
  | .connection _ => True
  | .state state => client.state = some state
  | .lines lines => client.lines = some lines
  | .log _ => True

/-- What a change leaves and says; `may` is of the baseline it attaches with. -/
inductive Tells (may : BaselineOf S L → Prop) (client : Client Data Limits S L V) :
    Change Data Limits S L V → Prop
  | quiet {client' : Client Data Limits S L V} {said : List (Said Limits S L)} (stands : Stands client')
      (ended : client'.ended = client.ended) (connection : client'.connection = client.connection)
      (silent : client.ended = true → said = [])
      (only : ∀ x ∈ said, x.kind ≠ .connection ∧ Shows client' x) : Tells may client (client', said)
  | attached {client' : Client Data Limits S L V} (stands : Stands client') (live : client.ended = false)
      (ended : client'.ended = false) (baseline : BaselineOf S L) (given : may baseline)
      (state : client'.state = some baseline.state) (lines : client'.lines = some baseline.lines) :
      Tells may client
        (client', [.connection client'.connection, .state baseline.state, .lines baseline.lines])
  | ends {client' : Client Data Limits S L V} (stands : Stands client') (live : client.ended = false)
      (ended : client'.ended = true) : Tells may client (client', [.connection client'.connection])

/-- What leaves the connection and the calls alone says what it likes of the rest. -/
theorem Tells.of_frame {said : List (Said Limits S L)} (h : Stands client)
    (hended : client'.ended = client.ended) (hconnection : client'.connection = client.connection)
    (hpending : client'.pending = client.pending)
    (hlive : client.ended = false) (hsaid : ∀ x ∈ said, x.kind ≠ .connection ∧ Shows client' x) :
    Tells may client (client', said) := by
  refine .quiet ⟨?_, fun hget => ?_⟩ hended hconnection (fun hover => ?_) hsaid
  · rw [hconnection, hended]
    exact h.ended
  · rw [hpending] at hget
    exact h.attach hget
  · rw [hlive] at hover
    cases hover

theorem Tells.silent (h : Stands client') (hended : client'.ended = client.ended)
    (hconnection : client'.connection = client.connection) : Tells may client (client', []) :=
  .quiet h hended hconnection (fun _ => rfl) (fun _ hx => by cases hx)

/-- A change of what was changed before in silence. -/
theorem Tells.of_quiet {change : Change Data Limits S L V} (h : Tells may client' change)
    (hended : client'.ended = client.ended) (hconnection : client'.connection = client.connection) :
    Tells may client change := by
  cases h with
  | quiet stands ended connection silent only =>
      exact .quiet stands (ended.trans hended) (connection.trans hconnection)
        (fun hover => silent (hended.trans hover)) only
  | attached stands live ended baseline given state lines =>
      exact .attached stands (hended ▸ live) ended baseline given state lines
  | ends stands live ended => exact .ends stands (hended ▸ live) ended

theorem tells_finish {connection : Connection Limits} (h : Stands client) (hend : connection.isEnd = true) :
    Tells may client (finish client connection) := by
  unfold finish
  split
  · exact .silent h rfl rfl
  · next hlive =>
      refine .ends ⟨hend, fun hget => ?_⟩ (Bool.eq_false_iff.mpr hlive) rfl
      change (OMap.empty : OMap Nat (Pending Limits)).get? _ = _ at hget
      rw [OMap.get?_empty] at hget
      cases hget

theorem tells_close (h : Stands client) : Tells (fun _ => False) client (close client) := by
  have hclosing : Stands { client with closing := true } := ⟨h.ended, h.attach⟩
  exact (tells_finish hclosing rfl).of_quiet rfl rfl

theorem tells_portCloses (h : Stands client) : Tells (fun _ => False) client (portCloses client) :=
  tells_finish h rfl

theorem tells_sendFails (h : Stands client) : Tells (fun _ => False) client (sendFails client) :=
  tells_finish h rfl

theorem Stands.erase {id : Nat} (h : Stands client) :
    Stands { client with pending := client.pending.erase id } := by
  refine ⟨h.ended, fun {other connection} hget => ?_⟩
  change (client.pending.erase id).get? other = _ at hget
  rw [OMap.get?_erase] at hget
  split at hget
  · cases hget
  · exact h.attach hget

theorem tells_rejectCall {pending : Pending Limits} {error : CallError} (h : Stands client) :
    Tells may client (rejectCall client pending error) := by
  cases pending with
  | attach connection => exact tells_finish h rfl
  | refresh promise => exact .silent ⟨h.ended, h.attach⟩ rfl rfl
  | call name promise => exact .silent ⟨h.ended, h.attach⟩ rfl rfl

theorem Tells.stands {change : Change Data Limits S L V} (h : Tells may client change) : Stands change.1 := by
  cases h with
  | quiet stands => exact stands
  | attached stands => exact stands
  | ends stands => exact stands

/-- A second end says nothing more. -/
theorem Tells.finish {change : Change Data Limits S L V} {connection : Connection Limits}
    (h : Tells may client change) (hnot : change.2 = [] ∨ change.1.ended = true)
    (hend : connection.isEnd = true) :
    Tells may client
      ((Says.finish change.1 connection).1, change.2 ++ (Says.finish change.1 connection).2) := by
  obtain ⟨client', said⟩ := change
  by_cases hover : client'.ended = true
  · have heq : Says.finish client' connection = (client', []) := if_pos hover
    rw [heq, List.append_nil]
    exact h
  · obtain rfl : said = [] := hnot.resolve_right hover
    cases h with
    | quiet stands ended hconnection silent hsaid =>
        exact (tells_finish stands hend).of_quiet ended hconnection

theorem tells_protocolError {message : JsString} {culprit : Option (Pending Limits)} (h : Stands client) :
    Tells may client (protocolError client message culprit) := by
  unfold protocolError
  cases culprit with
  | none => exact tells_finish h rfl
  | some pending =>
      refine (tells_rejectCall h).finish ?_ rfl
      cases pending with
      | attach connection =>
          refine .inr ?_
          simp only [rejectCall, Says.finish]
          split
          · next hover => exact hover
          · rfl
      | refresh promise => exact .inl rfl
      | call name promise => exact .inl rfl

theorem tells_attached {baseline : BaselineOf S L} {connection : Connection Limits} (h : Stands client)
    (hlive : client.ended = false) (hconnection : connection.isEnd = false)
    (hmay : baseline.state.epoch = baseline.lines.epoch → may baseline) :
    Tells may client (attached client baseline connection) := by
  unfold attached
  split
  · exact tells_protocolError h
  · next hepochs =>
      refine .attached ?_ hlive ?_ baseline (hmay (not_not.mp hepochs)) rfl rfl
      · exact ⟨hconnection.trans hlive.symm, h.attach⟩
      · exact hlive

theorem tells_replied {pending : Pending Limits} {limits : Limits} {value : Raw} (h : Stands client)
    (hlive : client.ended = false)
    (hattach : ∀ connection, pending = .attach connection → connection.isEnd = false)
    (hmay : ∀ connection baseline, pending = .attach connection → sdk.baseline limits value = .ok baseline →
      baseline.state.epoch = baseline.lines.epoch → may baseline) :
    Tells may client (replied sdk client limits pending value) := by
  cases pending with
  | attach connection =>
      unfold replied
      dsimp only
      split
      · exact tells_protocolError h
      · next baseline hread =>
          exact tells_attached h hlive (hattach connection rfl) (hmay connection baseline rfl hread)
  | refresh promise =>
      unfold replied
      dsimp only
      split
      · exact tells_protocolError h
      · unfold Client.refreshed
        split
        · exact .silent ⟨h.ended, h.attach⟩ rfl rfl
        · exact .silent ⟨h.ended, h.attach⟩ rfl rfl
  | call name promise =>
      unfold replied
      dsimp only
      split
      · exact tells_protocolError h
      · exact .silent ⟨h.ended, h.attach⟩ rfl rfl

theorem tells_failed {pending : Pending Limits} {error : Raw} (h : Stands client) :
    Tells may client (failed sdk client pending error) := by
  unfold failed
  split
  · exact tells_protocolError h
  · exact tells_rejectCall h

/-- A reply told to the call it answers, which waits no more. -/
theorem tells_answer {id : Nat}
    {reply : Client Data Limits S L V → Pending Limits → Change Data Limits S L V} (h : Stands client)
    (hreply : ∀ client' pending, Stands client' → client'.ended = client.ended →
      client.pending.get? id = some pending → Tells may client' (reply client' pending)) :
    Tells may client (answer client id reply) := by
  unfold answer
  split
  · exact .silent h rfl rfl
  · next pending hget => exact (hreply _ pending h.erase rfl hget).of_quiet rfl rfl

theorem tells_publish {name : EventName} {value : Raw} (h : Stands client) (hlive : client.ended = false) :
    Tells may client (publish sdk client name value) := by
  unfold publish
  dsimp only
  split
  · exact tells_protocolError h
  · cases name with
    | state =>
        dsimp only
        split
        · exact tells_protocolError h
        · unfold applyState
          split
          · exact tells_protocolError h
          · split
            · exact .silent h rfl rfl
            · exact .of_frame h rfl rfl rfl hlive (by simp [Said.kind, Shows])
    | lines =>
        dsimp only
        split
        · exact tells_protocolError h
        · unfold applyLines
          split
          · exact tells_protocolError h
          · split
            · exact tells_protocolError h
            · split
              · exact .silent h rfl rfl
              · exact .of_frame h rfl rfl rfl hlive (by simp [Said.kind, Shows])
    | log =>
        dsimp only
        split
        · exact tells_protocolError h
        · unfold applyLog
          split
          · exact tells_protocolError h
          · exact .of_frame h rfl rfl rfl hlive (by simp [Said.kind, Shows])

theorem Stands.set {id nextId : Nat} {pending : Pending Limits} {sent : List (Option Nat × Data)}
    (h : Stands client) (hattach : ∀ connection, pending = .attach connection → connection.isEnd = false) :
    Stands { client with nextId := nextId, pending := client.pending.set id pending, sent := sent } := by
  refine ⟨h.ended, fun {other connection} hget => ?_⟩
  change (client.pending.set id pending).get? other = _ at hget
  rw [OMap.get?_set] at hget
  split at hget
  · exact hattach connection (Option.some.inj hget)
  · exact h.attach hget

/-- A call handed to the port or not, the connection stays as it was. -/
theorem Stands.send (h : Stands client) (sdk : Sdk Data Input Raw Limits S L V) (name : JsString)
    (input : Input) (pending : Pending Limits)
    (hattach : ∀ connection, pending = .attach connection → connection.isEnd = false) :
    Stands (Client.send sdk client name input pending).2 ∧
      (Client.send sdk client name input pending).2.ended = client.ended ∧
      (Client.send sdk client name input pending).2.connection = client.connection := by
  unfold Client.send
  split
  · exact ⟨h, rfl, rfl⟩
  · dsimp only
    split
    · exact ⟨⟨h.ended, h.attach⟩, rfl, rfl⟩
    · exact ⟨h.set hattach, rfl, rfl⟩

/-- What is asked of a session leaves its connection as it was. -/
structure Asked (client client' : Client Data Limits S L V) : Prop where
  stands : Stands client'
  ended : client'.ended = client.ended
  connection : client'.connection = client.connection

theorem asked_dispatch {name : JsString} {input : Input} {answered : Nat → Pending Limits}
    (h : Stands client) (hattach : ∀ promise connection, answered promise ≠ .attach connection) :
    Asked client (client.dispatch sdk name input answered) := by
  unfold Client.dispatch
  have hhand : Stands { client with ledger := client.ledger.hand } := ⟨h.ended, h.attach⟩
  obtain ⟨hstands, hended, hconnection⟩ := hhand.send sdk name input (answered client.ledger.handed)
    fun connection heq => absurd heq (hattach _ _)
  dsimp only
  split
  · next refused client' hsend =>
      rw [hsend] at hstands hended hconnection
      exact ⟨⟨hstands.ended, hstands.attach⟩, hended, hconnection⟩
  · next client' hsend =>
      rw [hsend] at hstands hended hconnection
      exact ⟨hstands, hended, hconnection⟩

theorem asked_call {name : JsString} {input : Input} (h : Stands client) :
    Asked client (client.call sdk name input) := by
  unfold Client.call
  split
  · exact ⟨⟨h.ended, h.attach⟩, rfl, rfl⟩
  · split
    · exact ⟨⟨h.ended, h.attach⟩, rfl, rfl⟩
    · exact asked_dispatch h fun promise connection heq => by cases heq

theorem asked_refresh (h : Stands client) : Asked client (client.refresh sdk) := by
  unfold Client.refresh
  split
  · exact ⟨⟨h.ended, h.attach⟩, rfl, rfl⟩
  · exact asked_dispatch h fun promise connection heq => by cases heq

theorem asked_connected (h : Stands client) : Asked client client.connected := by
  unfold Client.connected
  split
  · exact ⟨⟨h.ended, h.attach⟩, rfl, rfl⟩
  · split
    · exact ⟨⟨h.ended, h.attach⟩, rfl, rfl⟩
    · exact ⟨⟨h.ended, h.attach⟩, rfl, rfl⟩

theorem tells_negotiate {data : Data} (h : Stands client) : Tells may client (negotiate sdk client data) := by
  unfold negotiate
  split
  · exact tells_protocolError h
  · exact tells_protocolError h
  · exact tells_finish h rfl
  · next api implementation limits _ =>
      split
      · exact tells_protocolError h
      · have hlimits : Stands { client with limits := some limits } := ⟨h.ended, h.attach⟩
        obtain ⟨hstands, hended, hconnection⟩ := hlimits.send sdk (lit "attach") sdk.noInput
          (.attach (.connected implementation limits)) fun connection heq => by cases heq; rfl
        split
        · next refused client' hsend =>
            rw [hsend] at hstands hended hconnection
            exact (tells_finish hstands rfl).of_quiet hended hconnection
        · next client' hsend =>
            rw [hsend] at hstands hended hconnection
            exact .silent hstands hended hconnection

theorem tells_receive {data : Data} (h : Stands client) :
    Tells (baselineOf sdk client data = some ·) client (receive sdk client data) := by
  unfold receive
  split
  · exact .silent h rfl rfl
  · next hlive =>
      have hlive : client.ended = false := Bool.eq_false_iff.mpr hlive
      split
      · exact tells_negotiate h
      · next limits hlimits =>
          split
          · exact tells_protocolError h
          · next id value hread =>
              refine tells_answer h fun client' pending h' hended hget =>
                tells_replied h' (hended.trans hlive) (fun connection heq => h.attach (heq ▸ hget)) ?_
              rintro connection baseline rfl hbaseline hepochs
              unfold baselineOf
              rw [hlimits, hread]
              dsimp only
              rw [hget, hbaseline, hlive]
              dsimp only
              change Option.filter _ (some baseline) = some baseline
              rw [Option.filter_some, if_pos (by simp [hepochs])]
          · exact tells_answer h fun client' pending h' hended hget => tells_failed h'
          · exact tells_publish h hlive
          · unfold faulted
            split
            · exact tells_protocolError h
            · exact tells_finish h rfl
          · exact tells_protocolError h

end Says

end Estoc.Daemon
