import Estoc.Daemon.Client
import Estoc.Lib.Reentry

/-!
# Who a session tells

A session with those who listen to it. What a session says is said at once, to the listeners there
were when it began to be said, one after another; each may call the session before the next is told,
and may end it, which says the end to all of them before the rest is told what it was being told.
So what is left to do is a stack (`Reentry`): things to say, listeners to tell, and what a listener
called back does. A listener's throw is raised out of band and is nothing here.

The changes are those of the session's own model, with what is said after them.
-/

set_option linter.unusedSectionVars false

namespace Estoc.Daemon

open Json (lit)
open Utf16 (JsString)
open Promises (Ledger)

/-- What a view subscribes to. -/
inductive Kind where
  | connection
  | state
  | lines
  | log
deriving DecidableEq

inductive Said (Limits S L : Type) where
  | connection (connection : Connection Limits)
  | state (state : StateOf S)
  | lines (lines : LinesStateOf L)
  | log (line : LogLine)
deriving DecidableEq

namespace Said

variable {Limits S L : Type}

def kind : Said Limits S L → Kind
  | .connection _ => .connection
  | .state _ => .state
  | .lines _ => .lines
  | .log _ => .log

end Said

/-- A session that is told so is no longer of use. -/
def Connection.isEnd {Limits : Type} : Connection Limits → Bool
  | .disconnected _ => true
  | .incompatible _ _ => true
  | _ => false

/-! ## What a session says -/

namespace Says

variable {Data Input Raw Limits S L V : Type} (sdk : Sdk Data Input Raw Limits S L V)
  (client : Client Data Limits S L V)

/-- A change, and what is said once it is made. -/
abbrev Change (Data Limits S L V : Type) := Client Data Limits S L V × List (Said Limits S L)

def finish (connection : Connection Limits) : Change Data Limits S L V :=
  if client.ended then (client, [])
  else (Client.lose { client with ended := true, connection := connection }, [.connection connection])

def close : Change Data Limits S L V := finish { client with closing := true } (.disconnected none)

def rejectCall (pending : Pending Limits) (error : CallError) : Change Data Limits S L V :=
  match pending with
  | .attach _ => finish client (.disconnected (some error))
  | .refresh promise => ({ client with ledger := client.ledger.settle promise (.rejected error) }, [])
  | .call _ promise => ({ client with ledger := client.ledger.settle promise (.rejected error) }, [])

def protocolError (message : JsString) (culprit : Option (Pending Limits)) : Change Data Limits S L V :=
  let error := clientError (lit "ProtocolError") message .none
  match culprit with
  | none => finish client (.disconnected (some error))
  | some pending =>
    let (client, said) := rejectCall client pending { error with effect := effectOf pending.name }
    -- The attachment refused has ended it by now, and nothing is said a second time.
    let (client, more) := finish client (.disconnected (some error))
    (client, said ++ more)

def attached (baseline : BaselineOf S L) (connection : Connection Limits) : Change Data Limits S L V :=
  if baseline.state.epoch ≠ baseline.lines.epoch then
    protocolError client (lit "a baseline whose state and lines are of different epochs") none
  else
    ({ client with
        state := some baseline.state
        lines := some baseline.lines
        connection := connection
        waiting := []
        ledger := client.ledger.settleAll (client.waiting.map fun promise => (promise, .done)) },
      [.connection connection, .state baseline.state, .lines baseline.lines])

def replied (limits : Limits) (pending : Pending Limits) (value : Raw) : Change Data Limits S L V :=
  let what := lit "a " ++ pending.name ++ lit " result the SDK cannot read"
  match pending with
  | .attach connection =>
    match sdk.baseline limits value with
    | .error reading => protocolError client (Client.unreadable what reading) (some pending)
    | .ok baseline => attached client baseline connection
  | .refresh promise =>
    match sdk.marker limits value with
    | .error reading => protocolError client (Client.unreadable what reading) (some pending)
    | .ok target => (client.refreshed promise target, [])
  | .call name promise =>
    match sdk.result limits name value with
    | .error reading => protocolError client (Client.unreadable what reading) (some pending)
    | .ok value => ({ client with ledger := client.ledger.settle promise (.answered value) }, [])

def failed (pending : Pending Limits) (error : Raw) : Change Data Limits S L V :=
  match sdk.apiError error with
  | .error reading =>
    protocolError client (Client.unreadable (lit "an error the SDK cannot read") reading) (some pending)
  | .ok error => rejectCall client pending ⟨error, .daemon⟩

def answer (id : Nat) (reply : Client Data Limits S L V → Pending Limits → Change Data Limits S L V) :
    Change Data Limits S L V :=
  match client.pending.get? id with
  | none => (client, [])
  | some pending => reply { client with pending := client.pending.erase id } pending

def applyState (current state : StateOf S) : Change Data Limits S L V :=
  if state.epoch = current.epoch ∧ state.revision < current.revision then
    protocolError client (lit "a state older than the one shown") none
  else if state.epoch = current.epoch ∧ state.revision = current.revision then (client, [])
  else
    let client := { client with state := some state }
    ({ client with
        barriers := client.barriers.filter fun barrier => (client.settled barrier).isNone
        ledger := client.ledger.settleAll (client.barriers.filterMap client.settled) },
      [.state state])

def applyLines (state : StateOf S) (lines : LinesStateOf L) : Change Data Limits S L V :=
  if lines.epoch ≠ state.epoch then
    protocolError client (lit "lines of another epoch than the state shown") none
  else if client.lines.any fun current =>
      lines.epoch = current.epoch ∧ lines.revision < current.revision then
    protocolError client (lit "lines older than the ones shown") none
  else if client.lines.any fun current =>
      lines.epoch = current.epoch ∧ lines.revision = current.revision then (client, [])
  else ({ client with lines := some lines }, [.lines lines])

def applyLog (state : StateOf S) (line : LogLine) : Change Data Limits S L V :=
  if line.epoch ≠ state.epoch then
    protocolError client (lit "a log line of another epoch than the state shown") none
  else (client, [.log line])

def publish (name : EventName) (value : Raw) : Change Data Limits S L V :=
  let what := lit "a " ++ name.text ++ lit " event the SDK cannot read"
  match client.state with
  | none => protocolError client (lit "a publication before the baseline") none
  | some current =>
    match name with
    | .state =>
      match sdk.state value with
      | .error reading => protocolError client (Client.unreadable what reading) none
      | .ok state => applyState client current state
    | .lines =>
      match sdk.lines value with
      | .error reading => protocolError client (Client.unreadable what reading) none
      | .ok lines => applyLines client current lines
    | .log =>
      match sdk.log value with
      | .error reading => protocolError client (Client.unreadable what reading) none
      | .ok line => applyLog client current line

def faulted (error : Raw) : Change Data Limits S L V :=
  match sdk.apiError error with
  | .error reading =>
    protocolError client (Client.unreadable (lit "a fault the SDK cannot read") reading) none
  | .ok error => finish client (.disconnected (some ⟨error, .daemon⟩))

def negotiate (data : Data) : Change Data Limits S L V :=
  match sdk.readBootstrap data with
  | none => protocolError client (lit "no welcome") none
  | some .hello => protocolError client (lit "no welcome") none
  | some (.incompatible supported message) => finish client (.incompatible supported message)
  | some (.welcome api implementation limits) =>
    if api ≠ sdk.API_VERSION then
      protocolError client (lit "the daemon selected API " ++ lit (toString api) ++
        lit ", which the view did not offer") none
    else
      match Client.send sdk { client with limits := some limits } (lit "attach") sdk.noInput
          (.attach (.connected implementation limits)) with
      | (some refused, client) => finish client (.disconnected (some refused))
      | (none, client) => (client, [])

def receive (data : Data) : Change Data Limits S L V :=
  if client.ended then (client, [])
  else
    match client.limits with
    | none => negotiate sdk client data
    | some limits =>
      match sdk.readFrame data with
      | none => protocolError client (lit "a frame the SDK cannot read") none
      | some (.result id value) =>
        answer client id fun client pending => replied sdk client limits pending value
      | some (.error id error) => answer client id fun client pending => failed sdk client pending error
      | some (.event name value) => publish sdk client name value
      | some (.fault error) => faulted sdk client error
      | some .call => protocolError client (lit "a call in the daemon's direction") none

/-- The baseline a frame attaches a session with. -/
def baselineOf (data : Data) : Option (BaselineOf S L) :=
  match client.limits, sdk.readFrame data with
  | some limits, some (.result id value) =>
    match client.pending.get? id with
    | some (.attach _) =>
      (sdk.baseline limits value).toOption.filter fun baseline =>
        !client.ended && baseline.state.epoch == baseline.lines.epoch
    | _ => none
  | _, _ => none

/-- The port says it closed. -/
def portCloses : Change Data Limits S L V :=
  finish client (.disconnected (if client.closing then none
    else some (clientError (lit "TransportDisconnected") (lit "the port closed") .none)))

/-- The port refused a frame. -/
def sendFails : Change Data Limits S L V :=
  finish client (.disconnected (some (clientError (lit "TransportDisconnected")
    (lit "the port refused a frame") .none)))

end Says

/-! ## Those who listen -/

namespace Notified

/-- What a view does with a session, and a listener called back; `F` is what listeners are told
apart by. -/
inductive Act (F Input : Type) where
  | call (name : JsString) (input : Input)
  | refresh
  | connected
  | close
  | on (kind : Kind) (listener : F)
  | off (kind : Kind) (listener : F)

inductive Event (F Data Input : Type) where
  | receives (data : Data)
  | portCloses
  | sendFails
  | acts (act : Act F Input)

/-- What is to be done at once. -/
inductive Due (F Input Limits S L : Type) where
  | emits (said : Said Limits S L)
  | tells (listener : F) (said : Said Limits S L)
  | does (act : Act F Input)

end Notified

open Notified (Act Event Due)

/-- One kind of notification, a set in the order of its listeners. -/
structure Listeners (F : Type) where
  registered : List F
  nodup : registered.Nodup

namespace Listeners

variable {F : Type} [DecidableEq F]

def add (listeners : Listeners F) (listener : F) : Listeners F :=
  if h : listener ∈ listeners.registered then listeners
  else ⟨listeners.registered ++ [listener], List.nodup_append'.mpr
    ⟨listeners.nodup, List.nodup_singleton _, List.disjoint_singleton.mpr h⟩⟩

def delete (listeners : Listeners F) (listener : F) : Listeners F :=
  ⟨listeners.registered.filter (· ≠ listener), listeners.nodup.filter _⟩

end Listeners

structure Notified (F Data Limits S L V : Type) where
  session : Client Data Limits S L V
  listeners : Kind → Listeners F
  /-- Who was listening to the connection when it opened, and still is. -/
  throughout : List F
  told : List (F × Said Limits S L)

namespace Notified

variable {F Data Input Raw Limits S L V : Type} [DecidableEq F]
  (sdk : Sdk Data Input Raw Limits S L V) (s : Notified F Data Limits S L V)

/-- A session on a port, hello said, with those who listen from the start. -/
def opened (listeners : Kind → Listeners F) : Notified F Data Limits S L V :=
  ⟨Client.opened sdk, listeners, (listeners .connection).registered, []⟩

def changed (change : Says.Change Data Limits S L V) :
    Notified F Data Limits S L V × List (Due F Input Limits S L) :=
  ({ s with session := change.1 }, change.2.map .emits)

def add (kind : Kind) (listener : F) : Notified F Data Limits S L V :=
  { s with listeners := fun other =>
      if other = kind then (s.listeners other).add listener else s.listeners other }

def delete (kind : Kind) (listener : F) : Notified F Data Limits S L V :=
  { s with
    listeners := fun other =>
      if other = kind then (s.listeners other).delete listener else s.listeners other
    throughout := if kind = .connection then s.throughout.filter (· ≠ listener) else s.throughout }

def act : Act F Input → Notified F Data Limits S L V × List (Due F Input Limits S L)
  | .call name input => ({ s with session := s.session.call sdk name input }, [])
  | .refresh => ({ s with session := s.session.refresh sdk }, [])
  | .connected => ({ s with session := s.session.connected }, [])
  | .close => s.changed (Says.close s.session)
  | .on kind listener => (s.add kind listener, [])
  | .off kind listener => (s.delete kind listener, [])

def takes : Event F Data Input → Notified F Data Limits S L V × List (Due F Input Limits S L)
  | .receives data => s.changed (Says.receive sdk s.session data)
  | .portCloses => s.changed (Says.portCloses s.session)
  | .sendFails => s.changed (Says.sendFails s.session)
  | .acts act => s.act sdk act

/-- The next thing to be done; a listener told does `acts`. -/
def does (acts : List (Act F Input)) :
    Due F Input Limits S L → Notified F Data Limits S L V × List (Due F Input Limits S L)
  | .emits said => (s, (s.listeners said.kind).registered.map fun listener => .tells listener said)
  | .tells listener said => ({ s with told := s.told ++ [(listener, said)] }, acts.map .does)
  | .does act => s.act sdk act

def machine : Reentry.Machine (Notified F Data Limits S L V) (Due F Input Limits S L)
    (Event F Data Input) (List (Act F Input)) where
  takes := takes sdk
  does s due acts := s.does sdk acts due

/-- The session after some moves, in the middle of an event or not. -/
def after (listeners : Kind → Listeners F)
    (moves : List (Reentry.Move (Event F Data Input) (List (Act F Input)))) :
    Reentry.Busy (Notified F Data Limits S L V) (Due F Input Limits S L) :=
  (machine sdk).run ⟨opened sdk listeners, []⟩ moves

end Notified

/-! ## The session is the session's own model -/

namespace Says

variable {Data Input Raw Limits S L V : Type} (sdk : Sdk Data Input Raw Limits S L V)
  (client : Client Data Limits S L V)

/-- Nobody listens. -/
def unheard : Heard Input := ⟨[], [], [], [], []⟩

theorem finish_fst (connection : Connection Limits) :
    (finish client connection).1 = client.finish sdk connection [] := by
  unfold finish Client.finish
  split
  · rfl
  · rfl

theorem rejectCall_fst (pending : Pending Limits) (error : CallError) :
    (rejectCall client pending error).1 = client.rejectCall sdk pending error [] := by
  cases pending with
  | attach connection => exact finish_fst sdk client _
  | refresh promise => rfl
  | call name promise => rfl

theorem protocolError_fst (message : JsString) (culprit : Option (Pending Limits)) :
    (protocolError client message culprit).1 = client.protocolError sdk message culprit [] := by
  cases culprit with
  | none => exact finish_fst sdk client _
  | some pending =>
      unfold protocolError Client.protocolError
      dsimp only
      rw [finish_fst sdk, rejectCall_fst sdk]

theorem attached_fst (baseline : BaselineOf S L) (connection : Connection Limits) :
    (attached client baseline connection).1 = client.attached sdk baseline connection unheard := by
  unfold attached Client.attached
  split
  · exact protocolError_fst sdk client _ _
  · rfl

theorem replied_fst (limits : Limits) (pending : Pending Limits) (value : Raw) :
    (replied sdk client limits pending value).1 = client.replied sdk limits pending value unheard := by
  cases pending with
  | attach connection =>
      unfold replied Client.replied
      dsimp only
      cases sdk.baseline limits value with
      | error reading => exact protocolError_fst sdk client _ _
      | ok value => exact attached_fst sdk client _ _
  | refresh promise =>
      unfold replied Client.replied
      dsimp only
      cases sdk.marker limits value with
      | error reading => exact protocolError_fst sdk client _ _
      | ok value => rfl
  | call name promise =>
      unfold replied Client.replied
      dsimp only
      cases sdk.result limits name value with
      | error reading => exact protocolError_fst sdk client _ _
      | ok value => rfl

theorem failed_fst (pending : Pending Limits) (error : Raw) :
    (failed sdk client pending error).1 = client.failed sdk pending error unheard := by
  unfold failed Client.failed
  cases sdk.apiError error with
  | error reading => exact protocolError_fst sdk client _ _
  | ok error => exact rejectCall_fst sdk client _ _

theorem applyState_fst (current state : StateOf S) :
    (applyState client current state).1 = client.applyState sdk current state unheard := by
  unfold applyState Client.applyState
  split
  · exact protocolError_fst sdk client _ _
  · split
    · rfl
    · rfl

theorem applyLines_fst (state : StateOf S) (lines : LinesStateOf L) :
    (applyLines client state lines).1 = client.applyLines sdk state lines unheard := by
  unfold applyLines Client.applyLines
  split
  · exact protocolError_fst sdk client _ _
  · split
    · exact protocolError_fst sdk client _ _
    · split
      · rfl
      · rfl

theorem applyLog_fst (state : StateOf S) (line : LogLine) :
    (applyLog client state line).1 = client.applyLog sdk state line unheard := by
  unfold applyLog Client.applyLog
  split
  · exact protocolError_fst sdk client _ _
  · rfl

theorem publish_fst (name : EventName) (value : Raw) :
    (publish sdk client name value).1 = client.publish sdk name value unheard := by
  unfold publish Client.publish
  dsimp only
  cases client.state with
  | none => exact protocolError_fst sdk client _ _
  | some current =>
      cases name with
      | state =>
          dsimp only
          cases sdk.state value with
          | error reading => exact protocolError_fst sdk client _ _
          | ok state => exact applyState_fst sdk client _ _
      | lines =>
          dsimp only
          cases sdk.lines value with
          | error reading => exact protocolError_fst sdk client _ _
          | ok lines => exact applyLines_fst sdk client _ _
      | log =>
          dsimp only
          cases sdk.log value with
          | error reading => exact protocolError_fst sdk client _ _
          | ok line => exact applyLog_fst sdk client _ _

theorem faulted_fst (error : Raw) : (faulted sdk client error).1 = client.faulted sdk error unheard := by
  unfold faulted Client.faulted
  cases sdk.apiError error with
  | error reading => exact protocolError_fst sdk client _ _
  | ok error => exact finish_fst sdk client _

theorem negotiate_fst (data : Data) :
    (negotiate sdk client data).1 = client.negotiate sdk data unheard := by
  unfold negotiate Client.negotiate
  cases sdk.readBootstrap data with
  | none => exact protocolError_fst sdk client _ _
  | some record =>
      cases record with
      | hello => exact protocolError_fst sdk client _ _
      | incompatible supported message => exact finish_fst sdk client _
      | welcome api implementation limits =>
          dsimp only
          split
          · exact protocolError_fst sdk client _ _
          · generalize Client.send sdk _ _ _ _ = sent
            obtain ⟨refused, client'⟩ := sent
            cases refused with
            | some refused => exact finish_fst sdk client' _
            | none => rfl

theorem answer_fst {reply : Client Data Limits S L V → Pending Limits → Change Data Limits S L V}
    {reply' : Client Data Limits S L V → Pending Limits → Client Data Limits S L V}
    (h : ∀ client pending, (reply client pending).1 = reply' client pending) (id : Nat) :
    (answer client id reply).1 = client.answer id reply' := by
  unfold answer Client.answer
  cases client.pending.get? id with
  | none => rfl
  | some pending => exact h _ _

theorem receive_fst (data : Data) :
    (receive sdk client data).1 = client.receive sdk data unheard := by
  unfold receive Client.receive
  split
  · rfl
  · cases client.limits with
    | none => exact negotiate_fst sdk client data
    | some limits =>
        dsimp only
        cases sdk.readFrame data with
        | none => exact protocolError_fst sdk client _ _
        | some frame =>
            cases frame with
            | result id value =>
                exact answer_fst client (fun client pending => replied_fst sdk client limits pending value) id
            | error id error =>
                exact answer_fst client (fun client pending => failed_fst sdk client pending error) id
            | event name value => exact publish_fst sdk client name value
            | fault error => exact faulted_fst sdk client error
            | call => exact protocolError_fst sdk client _ _

end Says

namespace Notified

variable {F Data Input Raw Limits S L V : Type} [DecidableEq F]
  {sdk : Sdk Data Input Raw Limits S L V} {s : Notified F Data Limits S L V}

/-- What a view does to a session is a turn of it, or none. -/
theorem act_session (sdk : Sdk Data Input Raw Limits S L V) (s : Notified F Data Limits S L V)
    (act : Act F Input) : ∃ turns : List (ClientTurn Data Input),
    (s.act sdk act).1.session = turns.foldl (Client.turn sdk) s.session := by
  cases act with
  | call name input => exact ⟨[.acts (.call name input)], rfl⟩
  | refresh => exact ⟨[.acts .refresh], rfl⟩
  | connected => exact ⟨[.acts .connected], rfl⟩
  | close => exact ⟨[.acts (.close [])], Says.finish_fst sdk _ _⟩
  | on kind listener => exact ⟨[], rfl⟩
  | off kind listener => exact ⟨[], rfl⟩

/-- With those who listen, a session goes through turns of its own model: what listeners do is
done between them. -/
theorem session_run (sdk : Sdk Data Input Raw Limits S L V) (listeners : Kind → Listeners F)
    (moves : List (Reentry.Move (Event F Data Input) (List (Act F Input)))) :
    ∃ turns, (after sdk listeners moves).state.session = Client.after sdk turns := by
  have hkeeps : (machine (F := F) sdk).Keeps (fun _ => True)
      fun s _ => ∃ turns, s.session = Client.after sdk turns := by
    have hact {s : Notified F Data Limits S L V} (act : Act F Input)
        (h : ∃ turns, s.session = Client.after sdk turns) :
        ∃ turns, (s.act sdk act).1.session = Client.after sdk turns := by
      obtain ⟨turns, heq⟩ := h
      obtain ⟨more, hmore⟩ := act_session sdk s act
      exact ⟨turns ++ more, by rw [hmore, heq, Client.after, Client.after, List.foldl_append]⟩
    have hturn {s : Notified F Data Limits S L V} {change : Says.Change Data Limits S L V}
        (turn : ClientTurn Data Input) (h : ∃ turns, s.session = Client.after sdk turns)
        (hchange : change.1 = Client.turn sdk s.session turn) :
        ∃ turns, change.1 = Client.after sdk turns := by
      obtain ⟨turns, heq⟩ := h
      exact ⟨turns ++ [turn], by
        rw [hchange, heq, Client.after, Client.after, List.foldl_append, List.foldl_cons, List.foldl_nil]⟩
    refine ⟨fun event _ h => ?_, fun {s due rest} acts _ h => ?_⟩
    · cases event with
      | receives data => exact hturn (.receives data Says.unheard) h (Says.receive_fst sdk _ data)
      | portCloses => exact hturn (.portCloses []) h (Says.finish_fst sdk _ _)
      | sendFails => exact hturn (.sendFails []) h (Says.finish_fst sdk _ _)
      | acts act => exact hact act h
    · cases due with
      | emits said => exact h
      | tells listener said => exact h
      | does act => exact hact act h
  exact hkeeps.run (Reentry.Machine.meets_all _ moves) ⟨[], rfl⟩

end Notified

end Estoc.Daemon
