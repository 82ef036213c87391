import Estoc.Daemon.Promised
import Estoc.Daemon.Reconnected

/-!
# A client ends once and carries nothing over

A client that is closed, or incompatible, is over when the call or the notification that ended it is
done with. From then on it is as it is: no listener is told anything, the connection stays, and no
timer, port or promise is left. That is so unless a port refused after the client stopped is told of
as a connection lost, or a listener closes the client while others are still to be told what it was
told.

How far the end has come is a phase. While the client lives, what is left to do under a listener
called back may tell someone only because that listener was not the last; once it is stopped what
is left to do is the end being told, with what that has still to do, over what is mute.
-/

set_option linter.unusedSectionVars false

namespace Estoc.Daemon

open Json (lit)
open Utf16 (JsString)

namespace Reconnecting

variable {F Data Input Raw Limits S L V : Type} [DecidableEq F] {sdk : Sdk Data Input Raw Limits S L V}
  {s s' : Reconnecting F Data Limits S L V} {item : Due F Input Limits S L}
  {due rest more : List (Due F Input Limits S L)} {i : Nat}

/-! ## What is claimed -/

abbrev Moves (F Data Input : Type) := List (Reentry.Move (Event F Data Input) (List (Notified.Act F Input)))

/-- What a view does in a move. -/
def asked (busy : Reentry.Busy (Reconnecting F Data Limits S L V) (Due F Input Limits S L)) :
    Reentry.Move (Event F Data Input) (List (Notified.Act F Input)) → Option (Notified.Act F Input)
  | .event (.acts act) => if busy.due.isEmpty then some act else none
  | .event _ => none
  | .goes _ =>
    match busy.due with
    | .does act :: _ => some act
    | _ => none

/-- What a call or a refresh is written from. -/
def written (sdk : Sdk Data Input Raw Limits S L V) : Notified.Act F Input → Option (JsString × Input)
  | .call name input => some (name, input)
  | .refresh => some (lit "refresh", sdk.noInput)
  | _ => none

/-- Why a frame is handed to a port: it is the hello of the session made there, its attachment, or
what a view asks of it while it is current. -/
inductive Reason (sdk : Sdk Data Input Raw Limits S L V)
    (busy : Reentry.Busy (Reconnecting F Data Limits S L V) (Due F Input Limits S L))
    (move : Reentry.Move (Event F Data Input) (List (Notified.Act F Input))) :
    Nat → Option Nat × Data → Prop
  | hello (opened : move = .event .opened) : Reason sdk busy move busy.state.ports.length (none, sdk.hello)
  | attach {port id : Nat} {data frame : Data} {limits : Limits}
      (received : move = .event (.receives port data))
      (call : sdk.writeCall limits id (lit "attach") sdk.noInput = .ok frame) :
      Reason sdk busy move port (some id, frame)
  | asks {act : Notified.Act F Input} {port id : Nat} {name : JsString} {input : Input} {frame : Data}
      {limits : Limits} (asks : asked busy move = some act) (parts : written sdk act = some (name, input))
      (current : busy.state.current = some port) (call : sdk.writeCall limits id name input = .ok frame) :
      Reason sdk busy move port (some id, frame)

/-- What was handed to a port. -/
def sent (s : Reconnecting F Data Limits S L V) (port : Nat) : List (Option Nat × Data) :=
  ((s.session port).map Client.sent).getD []

/-- What a move changes of what is shown is the current session's, and it hands a port one frame at
most, for a reason. -/
structure Carries (reason : Nat → Option Nat × Data → Prop) (s s' : Reconnecting F Data Limits S L V) :
    Prop where
  state : s'.state = s.state ∨
    ∃ i client, s.current = some i ∧ s.session i = some client ∧ s'.state = client.state
  lines : s'.lines = s.lines ∨
    ∃ i client, s.current = some i ∧ s.session i = some client ∧ s'.lines = client.lines
  sent : ∀ port, s'.sent port = s.sent port ∨
    ∃ entry, s'.sent port = s.sent port ++ [entry] ∧ reason port entry

/-- Nothing is left of a client that is over. -/
structure Left (s : Reconnecting F Data Limits S L V) : Prop where
  ports : ∀ port ∈ s.ports, closed port = true
  timers : s.timers = []
  settled : ∀ promise < s.ledger.handed, promise ∈ s.ledger.settled.map Prod.fst

/-- What is done next is not to close a client while someone is still to be told something, nor to
tell of a port refused when the client has stopped. -/
def Considerate (busy : Reentry.Busy (Reconnecting F Data Limits S L V) (Due F Input Limits S L)) : Prop :=
  match busy.due with
  | .does .close :: rest => busy.state.stopped = true ∨
      ∀ listener said source, .tells listener said source ∉ rest
  | .loses _ :: _ => busy.state.stopped = false
  | _ => True

structure EndsOnce (sdk : Sdk Data Input Raw Limits S L V) (moves : Moves F Data Input) : Prop where
  one : OneAtATime (after sdk moves).state
  shown : ∀ {listener said source rest}, (after sdk moves).due = .tells listener said source :: rest →
    (after sdk moves).state.FromCurrent source said
  carries : ∀ move, Carries (Reason sdk (after sdk moves) move) (after sdk moves).state
    ((machine sdk).step (after sdk moves) move).state
  ends : (after sdk moves).state.stopped = true → (after sdk moves).due = [] →
    (after sdk moves).state.finished = true
  left : (after sdk moves).state.finished = true → Left (after sdk moves).state
  rests : (after sdk moves).state.finished = true → ∀ more,
    (machine sdk).Meets Considerate (after sdk moves) more →
    (after sdk (moves ++ more)).state.finished = true ∧
      (after sdk (moves ++ more)).state.told = (after sdk moves).state.told ∧
      (after sdk (moves ++ more)).state.connection = (after sdk moves).state.connection

/-! ## What a move carries over -/

theorem session_of_ports (hports : s'.ports = s.ports) (j : Nat) : s'.session j = s.session j := by
  unfold session
  rw [hports]

theorem sent_of_ports (hports : s'.ports = s.ports) (port : Nat) : s'.sent port = s.sent port := by
  unfold sent
  rw [session_of_ports hports]

/-- A move that hands nothing to a port and shows nothing new. -/
theorem Carries.of_eq {reason : Nat → Option Nat × Data → Prop} (hports : s'.ports = s.ports)
    (hstate : s'.state = s.state) (hlines : s'.lines = s.lines) : Carries reason s s' :=
  ⟨.inl hstate, .inl hlines, fun port => .inl (sent_of_ports hports port)⟩

theorem sent_set {client : Client Data Limits S L V} (hclient : s.session i = some client)
    (client' : Client Data Limits S L V) (j : Nat) :
    sent { s with ports := s.ports.set i (some client') } j = if j = i then client'.sent else s.sent j := by
  unfold sent
  rw [session_set hclient]
  split
  · rfl
  · rfl

/-- What one session does. -/
theorem carries_atSession {reason : Nat → Option Nat × Data → Prop} {name : JsString} {input : Input}
    {change : Client Data Limits S L V → Says.Change Data Limits S L V}
    (hhanded : ∀ client, Says.Handed sdk name input client (change client).1)
    (hreason : ∀ limits id frame, sdk.writeCall limits id name input = .ok frame →
      reason i (some id, frame)) :
    Carries reason s (s.atSession i change : _ × List (Due F Input Limits S L)).1 := by
  unfold atSession
  split
  · exact .of_eq rfl rfl rfl
  · next client hclient =>
      refine ⟨.inl rfl, .inl rfl, fun port => ?_⟩
      rw [sent_set hclient]
      split
      · next hport =>
          have hsent : s.sent i = client.sent := by
            unfold sent
            rw [hclient]
            rfl
          rw [hport, hsent]
          rcases hhanded client with hsame | ⟨limits, id, frame, hwrite, hmore⟩
          · exact .inl hsame
          · exact .inr ⟨(some id, frame), hmore, hreason limits id frame hwrite⟩
      · exact .inl rfl

/-- What a session says of itself hands nothing to its port. -/
theorem carries_quietly {reason : Nat → Option Nat × Data → Prop}
    {change : Client Data Limits S L V → Says.Change Data Limits S L V}
    (hsent : ∀ client, (change client).1.sent = client.sent) :
    Carries reason s (s.atSession i change : _ × List (Due F Input Limits S L)).1 := by
  unfold atSession
  split
  · exact .of_eq rfl rfl rfl
  · next client hclient =>
      refine ⟨.inl rfl, .inl rfl, fun port => .inl ?_⟩
      rw [sent_set hclient]
      split
      · next hport =>
          rw [hport, hsent, sent, hclient]
          rfl
      · rfl

theorem sent_close {client : Client Data Limits S L V} : (Says.close client).1.sent = client.sent :=
  Says.sent_finish _

theorem carries_close {reason : Nat → Option Nat × Data → Prop} :
    Carries reason s (s.close : _ × List (Due F Input Limits S L)).1 := by
  by_cases hs : s.stopped = true
  · have hclose : (s.close : _ × List (Due F Input Limits S L)) = (s, []) := if_pos hs
    rw [hclose]
    exact .of_eq rfl rfl rfl
  · obtain ⟨ports, i, said, hclose, hports⟩ := close_cases (Bool.eq_false_iff.mpr hs)
      (rfl : (s.close : _ × List (Due F Input Limits S L)) = _)
    rw [hclose]
    refine ⟨.inl rfl, .inl rfl, fun port => .inl ?_⟩
    rcases hports with ⟨rfl, -⟩ | ⟨client, -, hclient, rfl⟩
    · exact sent_of_ports rfl port
    · refine (sent_set hclient (Says.close client).1 port).trans ?_
      split
      · next hport =>
          rw [hport, sent_close, sent, hclient]
          rfl
      · rfl

section Move

variable {busy : Reentry.Busy (Reconnecting F Data Limits S L V) (Due F Input Limits S L)}
  {move : Reentry.Move (Event F Data Input) (List (Notified.Act F Input))}

theorem carries_act {act : Notified.Act F Input} (hasked : asked busy move = some act) :
    Carries (Reason sdk busy move) busy.state (busy.state.act sdk act).1 := by
  have hasks {name : JsString} {input : Input}
      {change : Client Data Limits S L V → Client Data Limits S L V}
      (hwritten : written sdk act = some (name, input))
      (hhanded : ∀ client, Says.Handed sdk name input client (change client)) :
      Carries (Reason sdk busy move) busy.state
        (busy.state.asks change : _ × List (Due F Input Limits S L)).1 := by
    unfold Reconnecting.asks
    split
    · exact .of_eq rfl rfl rfl
    · next i hcurrent =>
        exact carries_atSession hhanded fun limits id frame hwrite => .asks hasked hwritten hcurrent hwrite
  cases act with
  | call name input => exact hasks rfl fun client => Says.leaves_call.handed
  | refresh => exact hasks rfl fun client => Says.leaves_refresh.handed
  | connected =>
      unfold Reconnecting.act Reconnecting.connected
      dsimp only
      split
      · exact .of_eq rfl rfl rfl
      · split
        · exact .of_eq rfl rfl rfl
        · exact .of_eq rfl rfl rfl
  | close => exact carries_close
  | on kind listener => exact .of_eq rfl rfl rfl
  | off kind listener => exact .of_eq rfl rfl rfl

theorem carries_takes {s : Reconnecting F Data Limits S L V} {event : Event F Data Input} :
    Carries (Reason sdk ⟨s, []⟩ (.event event)) s (s.takes sdk event).1 := by
  cases event with
  | opened =>
      unfold Reconnecting.takes
      dsimp only
      split
      · exact .of_eq rfl rfl rfl
      · unfold Reconnecting.gives
        have hsent (port : Option (Client Data Limits S L V)) (current : Option Nat) (j : Nat) :
            sent { s with openings := s.openings - 1, ports := s.ports ++ [port], current := current } j =
              if j = s.ports.length then (port.map Client.sent).getD [] else s.sent j := by
          unfold sent
          rw [show session { s with
            openings := s.openings - 1, ports := s.ports ++ [port], current := current } j = _ from
            session_append port j]
          split
          · rfl
          · rfl
        have hbefore : s.sent s.ports.length = [] := by
          unfold sent session
          rw [List.getElem?_eq_none (Nat.le_refl _)]
          rfl
        split
        · refine ⟨.inl rfl, .inl rfl, fun j => .inl ((hsent none s.current j).trans ?_)⟩
          split
          · next hj => rw [hj, hbefore]; rfl
          · rfl
        · refine ⟨.inl rfl, .inl rfl, fun j => ?_⟩
          have hj := hsent (some (Client.opened sdk)) (some s.ports.length) j
          split at hj
          · next heq =>
              refine .inr ⟨(none, sdk.hello), hj.trans ?_, heq ▸ .hello rfl⟩
              rw [heq, hbefore]
              rfl
          · exact .inl hj
  | refuses =>
      unfold Reconnecting.takes
      dsimp only
      split
      · exact .of_eq rfl rfl rfl
      · exact .of_eq rfl rfl rfl
  | fires timer =>
      unfold Reconnecting.takes
      dsimp only
      split
      · exact .of_eq rfl rfl rfl
      · exact .of_eq rfl rfl rfl
  | receives port data =>
      have hcarries : Carries
          (Reason sdk ⟨s, ([] : List (Due F Input Limits S L))⟩ (.event (.receives port data)))
          { s with baselines := s.baselines ++
            (((s.session port).bind fun client => Says.baselineOf sdk client data).map
              fun baseline => (port, baseline)).toList }
          (s.receives sdk port data : _ × List (Due F Input Limits S L)).1 :=
        carries_atSession (fun client => Says.handed_receive data)
          fun limits id frame hwrite => .attach rfl hwrite
      exact ⟨hcarries.state, hcarries.lines, hcarries.sent⟩
  | portCloses port => exact carries_quietly fun client => Says.sent_finish _
  | sendFails port => exact carries_quietly fun client => Says.sent_finish _
  | acts act => exact carries_act rfl

theorem carries_does {s : Reconnecting F Data Limits S L V} {acts : List (Notified.Act F Input)}
    (h : Alone s (item :: rest)) :
    Carries (Reason sdk ⟨s, item :: rest⟩ (.goes acts)) s (s.does sdk acts item).1 := by
  cases item with
  | does act => exact carries_act rfl
  | hears i said =>
      have hfits := h.fits _ List.mem_cons_self
      change Carries _ s (s.hears i said : _ × List (Due F Input Limits S L)).1
      unfold Reconnecting.hears
      split
      · exact .of_eq rfl rfl rfl
      next client hclient =>
      split
      · exact .of_eq rfl rfl rfl
      next hcurrent =>
      have hcurrent : s.current = some i := not_not.mp hcurrent
      obtain ⟨client', hclient', hhas⟩ := hfits hcurrent
      obtain rfl := Option.some.inj (hclient.symm.trans hclient')
      cases said with
      | state state =>
          exact ⟨.inr ⟨i, client, hcurrent, hclient, hhas.symm⟩, .inl rfl, fun port => .inl rfl⟩
      | lines lines =>
          exact ⟨.inl rfl, .inr ⟨i, client, hcurrent, hclient, hhas.symm⟩, fun port => .inl rfl⟩
      | log line => exact .of_eq rfl rfl rfl
      | connection connection =>
          cases connection with
          | connecting => exact .of_eq rfl rfl rfl
          | connected implementation limits =>
              exact ⟨.inr ⟨i, client, hcurrent, hclient, rfl⟩, .inr ⟨i, client, hcurrent, hclient, rfl⟩,
                fun port => .inl rfl⟩
          | incompatible supported message => exact .of_eq rfl rfl rfl
          | disconnected because => exact .of_eq rfl rfl rfl
  | schedules =>
      change Carries _ s s.schedule
      unfold Reconnecting.schedule
      split
      · exact .of_eq rfl rfl rfl
      · exact .of_eq rfl rfl rfl
  | _ => exact .of_eq rfl rfl rfl

theorem carries_step (h : Alone busy.state busy.due) :
    Carries (Reason sdk busy move) busy.state ((machine sdk).step busy move).state := by
  obtain ⟨s, due⟩ := busy
  cases move with
  | event event =>
      cases due with
      | nil => exact carries_takes
      | cons item rest => exact .of_eq rfl rfl rfl
  | goes acts =>
      cases due with
      | nil => exact .of_eq rfl rfl rfl
      | cons item rest => exact carries_does h

end Move

/-! ## How far the end has come -/

namespace Due

/-- Nobody is told anything by it once the client stopped, and the connection stays. -/
def mute : Due F Input Limits S L → Bool
  | .emits _ _ => false
  | .tells _ _ _ => false
  | .sets _ => false
  | .rejects => false
  | .returns => false
  | _ => true

/-- It is done before anything a listener does. -/
def first : Due F Input Limits S L → Bool
  | .emits _ _ => true
  | .loses _ => true
  | _ => false

/-- It is part of telling of the end. -/
def Ends : Due F Input Limits S L → Prop
  | .emits said _ => ∃ connection, said = .connection connection ∧ connection.isEnd = true
  | .tells _ said _ => ∃ connection, said = .connection connection ∧ connection.isEnd = true
  | .sets connection => connection.isEnd = true
  | .does _ => True
  | .hears _ _ => True
  | .rejects => True
  | _ => False

end Due

inductive Phase (s : Reconnecting F Data Limits S L V) (due : List (Due F Input Limits S L)) : Prop
  | live (stopped : s.stopped = false) (finished : s.finished = false)
      (later : ∀ item ∈ due.tail, item.first = false)
  | ending (stopped : s.stopped = true) (finished : s.finished = false)
      (upper lower : List (Due F Input Limits S L))
      (split : due = upper ++ .returns :: lower) (ends : ∀ item ∈ upper, item.Ends)
      (mute : ∀ item ∈ lower, item.mute = true) (settles : s.waiting = [] ∨ .rejects ∈ upper)
  | finished (stopped : s.stopped = true) (finished : s.finished = true)
      (mute : ∀ item ∈ due, item.mute = true) (waiting : s.waiting = [])

/-- What is told and the connection stay, once the client is over. -/
def Rests (s s' : Reconnecting F Data Limits S L V) : Prop :=
  s.finished = true → s'.finished = true ∧ s'.told = s.told ∧ s'.connection = s.connection

theorem Rests.of_live (h : s.finished = false) : Rests s s' := fun hover => by
  rw [h] at hover
  cases hover

/-- What a step leaves of a client that has stopped, where it tells nobody anything. -/
structure Still (s s' : Reconnecting F Data Limits S L V) : Prop where
  stopped : s'.stopped = s.stopped
  finished : s'.finished = s.finished
  told : s'.told = s.told
  connection : s'.connection = s.connection
  waiting : s'.waiting = s.waiting

theorem Still.rests (h : Still s s') : Rests s s' := fun hover =>
  ⟨h.finished.trans hover, h.told, h.connection⟩

theorem Still.refl (s : Reconnecting F Data Limits S L V) : Still s s := ⟨rfl, rfl, rfl, rfl, rfl⟩

theorem current_of_stopped (h : Alone s due) (hs : s.stopped = true) : s.current = none := by
  cases hcurrent : s.current with
  | none => rfl
  | some i =>
      have hlive := (h.core.current (by rw [hcurrent]; rfl)).1
      rw [hs] at hlive
      cases hlive

/-- A view does nothing more to a client that has stopped. -/
theorem act_stopped (h : Alone s due) (hs : s.stopped = true) (sdk : Sdk Data Input Raw Limits S L V)
    (act : Notified.Act F Input) : (s.act sdk act).2 = [] ∧ Still s (s.act sdk act).1 := by
  have hasks (change : Client Data Limits S L V → Client Data Limits S L V) :
      (s.asks change : _ × List (Due F Input Limits S L)).2 = [] ∧
        Still s (s.asks change : _ × List (Due F Input Limits S L)).1 := by
    unfold Reconnecting.asks
    rw [current_of_stopped h hs]
    exact ⟨rfl, rfl, rfl, rfl, rfl, rfl⟩
  cases act with
  | call name input => exact hasks _
  | refresh => exact hasks _
  | connected =>
      refine ⟨rfl, ?_⟩
      change Still s s.connected
      unfold Reconnecting.connected
      split
      · exact ⟨rfl, rfl, rfl, rfl, rfl⟩
      · exact ⟨rfl, rfl, rfl, rfl, rfl⟩
  | close =>
      have hclose : (s.close : _ × List (Due F Input Limits S L)) = (s, []) := if_pos hs
      change (s.close : _ × List (Due F Input Limits S L)).2 = [] ∧
        Still s (s.close : _ × List (Due F Input Limits S L)).1
      rw [hclose]
      exact ⟨rfl, .refl s⟩
  | on kind listener => exact ⟨rfl, rfl, rfl, rfl, rfl, rfl⟩
  | off kind listener => exact ⟨rfl, rfl, rfl, rfl, rfl, rfl⟩

theorem hears_stopped (h : Alone s due) (hs : s.stopped = true) (i : Nat) (said : Said Limits S L) :
    (s.hears i said : _ × List (Due F Input Limits S L)) = (s, []) := by
  unfold Reconnecting.hears
  split
  · rfl
  · rw [current_of_stopped h hs]
    rfl

/-- What is mute once the client stopped leaves nothing to do. -/
theorem does_mute (h : Alone s (item :: rest)) (hs : s.stopped = true) (hmute : item.mute = true)
    (hwaiting : s.waiting = []) (hloses : ∀ because, item ≠ .loses because)
    (sdk : Sdk Data Input Raw Limits S L V) (acts : List (Notified.Act F Input)) :
    (s.does sdk acts item).2 = [] ∧ Still s (s.does sdk acts item).1 := by
  cases item with
  | does act => exact act_stopped h hs sdk act
  | hears i said =>
      change (s.hears i said : _ × List (Due F Input Limits S L)).2 = [] ∧
        Still s (s.hears i said : _ × List (Due F Input Limits S L)).1
      rw [hears_stopped h hs]
      exact ⟨rfl, .refl s⟩
  | loses because => exact absurd rfl (hloses because)
  | resolves => exact ⟨rfl, rfl, rfl, rfl, rfl, hwaiting.symm⟩
  | schedules =>
      refine ⟨rfl, ?_⟩
      change Still s s.schedule
      unfold Reconnecting.schedule
      rw [if_pos hs]
      exact .refl s
  | opens => exact ⟨rfl, rfl, rfl, rfl, rfl, rfl⟩
  | emits said source => cases hmute
  | tells listener said source => cases hmute
  | sets connection => cases hmute
  | rejects => cases hmute
  | returns => cases hmute

/-- Whatever a view does but close the client, the client lives or not as before. -/
theorem act_lives {act : Notified.Act F Input} (hclose : act ≠ .close)
    (sdk : Sdk Data Input Raw Limits S L V) (s : Reconnecting F Data Limits S L V) :
    (s.act sdk act).2 = [] ∧ (s.act sdk act).1.stopped = s.stopped ∧
      (s.act sdk act).1.finished = s.finished := by
  have hasks (change : Client Data Limits S L V → Client Data Limits S L V) :
      (s.asks change : _ × List (Due F Input Limits S L)).2 = [] ∧
        (s.asks change : _ × List (Due F Input Limits S L)).1.stopped = s.stopped ∧
        (s.asks change : _ × List (Due F Input Limits S L)).1.finished = s.finished := by
    unfold Reconnecting.asks
    split
    · exact ⟨rfl, rfl, rfl⟩
    · unfold Reconnecting.atSession
      split
      · exact ⟨rfl, rfl, rfl⟩
      · exact ⟨rfl, rfl, rfl⟩
  cases act with
  | call name input => exact hasks _
  | refresh => exact hasks _
  | connected =>
      refine ⟨rfl, ?_⟩
      change s.connected.stopped = s.stopped ∧ s.connected.finished = s.finished
      unfold Reconnecting.connected
      split
      · exact ⟨rfl, rfl⟩
      · split
        · exact ⟨rfl, rfl⟩
        · exact ⟨rfl, rfl⟩
  | close => exact absurd rfl hclose
  | on kind listener => exact ⟨rfl, rfl, rfl⟩
  | off kind listener => exact ⟨rfl, rfl, rfl⟩

theorem later_append (hrest : ∀ item ∈ rest, item.first = false)
    (hmore : ∀ item ∈ more.tail, item.first = false) : ∀ item ∈ (more ++ rest).tail, item.first = false := by
  intro item hitem
  cases more with
  | nil => exact hrest item (List.mem_of_mem_tail hitem)
  | cons next more =>
      rcases List.mem_append.mp hitem with hitem | hitem
      · exact hmore item hitem
      · exact hrest item hitem

/-- A client that lives is closed, and what was left to do is mute. -/
theorem Phase.closes (h : Alone s (.does .close :: rest)) (hs : s.stopped = false)
    (hover : s.finished = false) (hrest : ∀ item ∈ rest, item.first = false)
    (htells : ∀ listener said source, .tells listener said source ∉ rest) :
    Phase (s.close : _ × List (Due F Input Limits S L)).1 (s.close.2 ++ rest) := by
  obtain ⟨ports, i, said, hclose, -⟩ := close_cases hs
    (rfl : (s.close : _ × List (Due F Input Limits S L)) = _)
  rw [hclose]
  refine .ending rfl hover (said.map (.hears i) ++ [.sets (.disconnected none), .rejects]) rest ?_
    (fun item hitem => ?_) (fun item hitem => ?_) (.inr ?_)
  · rw [List.append_assoc, List.append_assoc]
    rfl
  · rcases List.mem_append.mp hitem with hitem | hitem
    · obtain ⟨said, -, rfl⟩ := List.mem_map.mp hitem
      trivial
    · simp only [List.mem_cons, List.not_mem_nil, or_false] at hitem
      rcases hitem with rfl | rfl
      · rfl
      · trivial
  · -- While the client lives nothing of an end is left to do, and only what is first emits.
    have hfirst := hrest item hitem
    have hfits := h.fits item (List.mem_cons_of_mem _ hitem)
    have hnot (hstopped : s.stopped = true) : item.mute = true := by
      rw [hs] at hstopped
      cases hstopped
    cases item with
    | emits said source => cases hfirst
    | loses because => cases hfirst
    | tells listener said source => exact absurd hitem (htells listener said source)
    | sets connection => exact hnot hfits
    | rejects => exact hnot hfits
    | returns => exact hnot hfits
    | _ => rfl
  · exact List.mem_append_right _ (List.mem_cons_of_mem _ List.mem_cons_self)

/-- While the client lives, what is done next leaves it alive or ends it. -/
theorem Phase.does_live (h : Alone s (item :: rest)) (hs : s.stopped = false) (hover : s.finished = false)
    (hrest : ∀ item ∈ rest, item.first = false) (hmay : Considerate ⟨s, item :: rest⟩)
    (sdk : Sdk Data Input Raw Limits S L V) (acts : List (Notified.Act F Input)) :
    Phase (s.does sdk acts item).1 ((s.does sdk acts item).2 ++ rest) := by
  have hnot (hstopped : s.stopped = true) {P : Prop} : P := by
    rw [hs] at hstopped
    cases hstopped
  have hfits := h.fits item List.mem_cons_self
  cases item with
  | emits said source =>
      refine .live hs hover (later_append hrest fun item hitem => ?_)
      obtain ⟨listener, -, rfl⟩ := List.mem_map.mp (List.mem_of_mem_tail hitem)
      rfl
  | tells listener said source =>
      refine .live hs hover (later_append hrest fun item hitem => ?_)
      obtain ⟨act, -, rfl⟩ := List.mem_map.mp (List.mem_of_mem_tail hitem)
      rfl
  | does act =>
      by_cases hclose : act = .close
      · subst hclose
        exact closes h hs hover hrest (hmay.resolve_left (by rw [hs]; exact Bool.false_ne_true))
      · obtain ⟨hnone, hstopped, hover'⟩ := act_lives hclose sdk s
        change Phase (s.act sdk act).1 ((s.act sdk act).2 ++ rest)
        rw [hnone]
        exact .live (hstopped.trans hs) (hover'.trans hover)
          (later_append hrest fun item hitem => by cases hitem)
  | hears i said =>
      change Phase (s.hears i said : _ × List (Due F Input Limits S L)).1 ((s.hears i said).2 ++ rest)
      have hsame : Phase s ([] ++ rest) :=
        .live hs hover (later_append hrest fun item hitem => by cases hitem)
      have hone {s' : Reconnecting F Data Limits S L V} {item other : Due F Input Limits S L}
          (hs' : s'.stopped = s.stopped) (hover' : s'.finished = s.finished) (hother : other.first = false) :
          Phase s' ([item, other] ++ rest) := by
        refine .live (hs'.trans hs) (hover'.trans hover) (later_append hrest fun item hitem => ?_)
        rw [List.mem_singleton.mp hitem]
        exact hother
      have hemits {s' : Reconnecting F Data Limits S L V} {item : Due F Input Limits S L}
          (hs' : s'.stopped = s.stopped) (hover' : s'.finished = s.finished) : Phase s' ([item] ++ rest) :=
        .live (hs'.trans hs) (hover'.trans hover) (later_append hrest fun item hitem => by cases hitem)
      unfold Reconnecting.hears
      split
      · exact hsame
      split
      · exact hsame
      cases said with
      | state state => exact hemits rfl rfl
      | lines lines => exact hemits rfl rfl
      | log line => exact hemits rfl rfl
      | connection connection =>
          cases connection with
          | connecting => exact hemits rfl rfl
          | connected implementation limits => exact hone rfl rfl rfl
          | disconnected because => exact hone rfl rfl rfl
          | incompatible supported message =>
              refine .ending rfl hover
                [.emits (.connection (.incompatible supported message)) (some i), .rejects] rest rfl
                (fun item hitem => ?_) (fun item hitem => ?_)
                (.inr (List.mem_cons_of_mem _ List.mem_cons_self))
              · simp only [List.mem_cons, List.not_mem_nil, or_false] at hitem
                rcases hitem with rfl | rfl
                · exact ⟨_, rfl, rfl⟩
                · trivial
              · have hhears := (List.pairwise_cons.mp (h.layered hs)).1 item hitem rfl
                cases item with
                | hears j said => rfl
                | _ => cases hhears
  | sets connection => exact hnot hfits
  | loses because =>
      refine .live hs hover (later_append hrest fun item hitem => ?_)
      rw [List.mem_singleton.mp hitem]
      rfl
  | resolves => exact .live hs hover (later_append hrest fun item hitem => by cases hitem)
  | rejects => exact hnot hfits
  | schedules =>
      change Phase s.schedule ([] ++ rest)
      unfold Reconnecting.schedule
      split
      · exact .live hs hover (later_append hrest fun item hitem => by cases hitem)
      · exact .live hs hover (later_append hrest fun item hitem => by cases hitem)
  | opens => exact .live hs hover (later_append hrest fun item hitem => by cases hitem)
  | returns => exact hnot hfits

/-- While the end is told, what is done next is more of it. -/
theorem Phase.does_ending {upper lower : List (Due F Input Limits S L)} (h : Alone s (item :: rest))
    (hs : s.stopped = true) (hover : s.finished = false) (hdue : item :: rest = upper ++ .returns :: lower)
    (hends : ∀ item ∈ upper, item.Ends) (hmute : ∀ item ∈ lower, item.mute = true)
    (hsettles : s.waiting = [] ∨ .rejects ∈ upper) (sdk : Sdk Data Input Raw Limits S L V)
    (acts : List (Notified.Act F Input)) :
    Phase (s.does sdk acts item).1 ((s.does sdk acts item).2 ++ rest) := by
  cases upper with
  | nil =>
      obtain ⟨rfl, rfl⟩ := List.cons.inj hdue
      exact .finished hs rfl hmute (hsettles.resolve_right List.not_mem_nil)
  | cons next upper =>
      obtain ⟨rfl, rfl⟩ := List.cons.inj hdue
      obtain ⟨hend, hends⟩ := List.forall_mem_cons.mp hends
      have hmore {s' : Reconnecting F Data Limits S L V} {more : List (Due F Input Limits S L)}
          (hs' : s'.stopped = s.stopped) (hover' : s'.finished = s.finished)
          (hmore : ∀ item ∈ more, item.Ends) (hsettles : s'.waiting = [] ∨ .rejects ∈ upper) :
          Phase s' (more ++ (upper ++ .returns :: lower)) := by
        refine .ending (hs'.trans hs) (hover'.trans hover) (more ++ upper) lower
          (List.append_assoc _ _ _).symm (fun item hitem => ?_) hmute
          (hsettles.imp id fun hrejects => List.mem_append_right _ hrejects)
        exact (List.mem_append.mp hitem).elim (hmore item) (hends item)
      have hlast (hne : item ≠ .rejects) : s.waiting = [] ∨ .rejects ∈ upper :=
        hsettles.imp id fun hrejects => (List.mem_cons.mp hrejects).resolve_left fun heq => hne heq.symm
      have hstill {s' : Reconnecting F Data Limits S L V} (hstill : Still s s') (hne : item ≠ .rejects) :
          Phase s' ([] ++ (upper ++ .returns :: lower)) :=
        hmore hstill.stopped hstill.finished (fun _ hitem => by cases hitem)
          ((hlast hne).imp (fun hwaiting => hstill.waiting.trans hwaiting) id)
      cases item with
      | emits said source =>
          refine hmore rfl rfl (fun item hitem => ?_) (hlast fun heq => by cases heq)
          obtain ⟨listener, -, rfl⟩ := List.mem_map.mp hitem
          exact hend
      | tells listener said source =>
          refine hmore rfl rfl (fun item hitem => ?_) (hlast fun heq => by cases heq)
          obtain ⟨act, -, rfl⟩ := List.mem_map.mp hitem
          trivial
      | does act =>
          obtain ⟨hnone, hacts⟩ := act_stopped h hs sdk act
          change Phase (s.act sdk act).1 ((s.act sdk act).2 ++ _)
          rw [hnone]
          exact hstill hacts fun heq => by cases heq
      | hears i said =>
          change Phase (s.hears i said : _ × List (Due F Input Limits S L)).1 ((s.hears i said).2 ++ _)
          rw [hears_stopped h hs]
          exact hstill (.refl s) fun heq => by cases heq
      | sets connection =>
          refine hmore rfl rfl (fun item hitem => ?_) (hlast fun heq => by cases heq)
          rw [List.mem_singleton.mp hitem]
          exact ⟨connection, rfl, hend⟩
      | rejects => exact hmore rfl rfl (fun _ hitem => by cases hitem) (.inl rfl)
      | loses because => exact hend.elim
      | resolves => exact hend.elim
      | schedules => exact hend.elim
      | opens => exact hend.elim
      | returns => exact hend.elim

theorem Phase.does (h : Alone s (item :: rest)) (hphase : Phase s (item :: rest))
    (hmay : Considerate ⟨s, item :: rest⟩) (sdk : Sdk Data Input Raw Limits S L V)
    (acts : List (Notified.Act F Input)) :
    Phase (s.does sdk acts item).1 ((s.does sdk acts item).2 ++ rest) ∧ Rests s (s.does sdk acts item).1 := by
  cases hphase with
  | live stopped finished later => exact ⟨does_live h stopped finished later hmay sdk acts, .of_live finished⟩
  | ending stopped finished upper lower split ends mute settles =>
      exact ⟨does_ending h stopped finished split ends mute settles sdk acts, .of_live finished⟩
  | finished stopped finished mute waiting =>
      have hloses (because : Option CallError) : item ≠ .loses because := by
        rintro rfl
        rw [show s.stopped = false from hmay] at stopped
        cases stopped
      obtain ⟨hnone, hstill⟩ := does_mute h stopped (mute item List.mem_cons_self) waiting hloses sdk acts
      refine ⟨?_, hstill.rests⟩
      rw [hnone]
      exact .finished (hstill.stopped.trans stopped) (hstill.finished.trans finished)
        (fun item hitem => mute item (List.mem_cons_of_mem _ hitem)) (hstill.waiting.trans waiting)

/-- What happens when nothing is left to do does not end the client, and does nothing to one that is
over. -/
theorem Phase.event {due' : List (Due F Input Limits S L)}
    (hphase : Phase s ([] : List (Due F Input Limits S L)))
    (hs' : s'.stopped = s.stopped) (hover' : s'.finished = s.finished)
    (hlater : ∀ item ∈ due'.tail, item.first = false)
    (hstopped : s.stopped = true → Still s s' ∧ ∀ item ∈ due', item.mute = true) :
    Phase s' due' ∧ Rests s s' := by
  cases hphase with
  | live stopped finished _ =>
      exact ⟨.live (hs'.trans stopped) (hover'.trans finished) hlater, .of_live finished⟩
  | ending _ _ upper lower split =>
      cases List.append_ne_nil_of_right_ne_nil upper (List.cons_ne_nil _ _) split.symm
  | finished stopped finished mute waiting =>
      obtain ⟨hstill, hmute⟩ := hstopped stopped
      exact ⟨.finished (hstill.stopped.trans stopped) (hstill.finished.trans finished) hmute
        (hstill.waiting.trans waiting), hstill.rests⟩

/-- What a session says is not heard of a client that has stopped. -/
theorem Phase.says {change : Client Data Limits S L V → Says.Change Data Limits S L V}
    (hphase : Phase s ([] : List (Due F Input Limits S L))) (hs' : s'.stopped = s.stopped)
    (hstill : Still s s') :
    Phase (s'.atSession i change : _ × List (Due F Input Limits S L)).1
        (s'.atSession i change : _ × List (Due F Input Limits S L)).2 ∧
      Rests s (s'.atSession i change : _ × List (Due F Input Limits S L)).1 := by
  unfold Reconnecting.atSession
  split
  · exact hphase.event hs' hstill.finished (fun _ hitem => by cases hitem)
      fun _ => ⟨hstill, fun _ hitem => by cases hitem⟩
  · next client hclient =>
      refine hphase.event hs' hstill.finished (fun item hitem => ?_)
        fun _ => ⟨⟨hstill.stopped, hstill.finished, hstill.told, hstill.connection, hstill.waiting⟩,
          fun item hitem => ?_⟩
      · obtain ⟨said, -, rfl⟩ := List.mem_map.mp (List.mem_of_mem_tail hitem)
        rfl
      · obtain ⟨said, -, rfl⟩ := List.mem_map.mp hitem
        rfl

theorem Phase.before {act : Notified.Act F Input} (hphase : Phase s ([] : List (Due F Input Limits S L))) :
    Phase s [.does act] := by
  cases hphase with
  | live stopped finished _ => exact .live stopped finished fun _ hitem => by cases hitem
  | ending _ _ upper lower split =>
      cases List.append_ne_nil_of_right_ne_nil upper (List.cons_ne_nil _ _) split.symm
  | finished stopped finished mute waiting =>
      refine .finished stopped finished (fun item hitem => ?_) waiting
      rw [List.mem_singleton.mp hitem]
      rfl

theorem Phase.takes (h : Alone s ([] : List (Due F Input Limits S L)))
    (hphase : Phase s ([] : List (Due F Input Limits S L))) (sdk : Sdk Data Input Raw Limits S L V)
    (event : Event F Data Input) :
    Phase (s.takes sdk event).1 (s.takes sdk event).2 ∧ Rests s (s.takes sdk event).1 := by
  have hsame : Phase s ([] : List (Due F Input Limits S L)) ∧ Rests s s :=
    ⟨hphase, (Still.refl s).rests⟩
  have hnothing {P : Due F Input Limits S L → Prop} : ∀ item ∈ [], P item := fun _ hitem => by cases hitem
  cases event with
  | opened =>
      unfold Reconnecting.takes
      dsimp only
      split
      · exact hsame
      · unfold Reconnecting.gives
        split
        · exact hphase.event rfl rfl hnothing fun _ => ⟨⟨rfl, rfl, rfl, rfl, rfl⟩, hnothing⟩
        · exact hphase.event rfl rfl hnothing fun _ => ⟨⟨rfl, rfl, rfl, rfl, rfl⟩, hnothing⟩
  | refuses =>
      unfold Reconnecting.takes
      dsimp only
      split
      · exact hsame
      · refine hphase.event rfl rfl hnothing fun _ => ⟨⟨rfl, rfl, rfl, rfl, rfl⟩, fun item hitem => ?_⟩
        rw [List.mem_singleton.mp hitem]
        rfl
  | fires timer =>
      unfold Reconnecting.takes
      dsimp only
      split
      · exact hsame
      · next htimer =>
          refine hphase.event rfl rfl (fun item hitem => ?_) fun hs => ?_
          · rw [List.mem_singleton.mp hitem]
            rfl
          · rw [h.core.stopped hs] at htimer
            exact absurd List.not_mem_nil htimer
  | receives port data => exact hphase.says rfl ⟨rfl, rfl, rfl, rfl, rfl⟩
  | portCloses port => exact hphase.says rfl (.refl s)
  | sendFails port => exact hphase.says rfl (.refl s)
  | acts act =>
      have hmay : Considerate ⟨s, [.does act]⟩ := by
        cases act with
        | close => exact .inr fun listener said source htells => by cases htells
        | _ => trivial
      obtain ⟨hdoes, hrests⟩ := hphase.before.does (h.before act) hmay sdk []
      rw [List.append_nil] at hdoes
      exact ⟨hdoes, hrests⟩

/-! ## Every run -/

theorem phase_keeps (sdk : Sdk Data Input Raw Limits S L V) :
    (machine (F := F) sdk).Keeps Considerate fun s due => Alone s due ∧ Phase s due :=
  ⟨fun event _ h => ⟨h.1.takes sdk event, (h.2.takes h.1 sdk event).1⟩,
    fun acts hmay h => ⟨h.1.does sdk acts, (h.2.does h.1 hmay sdk acts).1⟩⟩

/-- What is told and the connection stay for good. -/
theorem over_keeps (sdk : Sdk Data Input Raw Limits S L V) (told : List (F × Said Limits S L))
    (connection : Connection Limits) :
    (machine (F := F) sdk).Keeps Considerate fun s due => Alone s due ∧ Phase s due ∧
      s.finished = true ∧ s.told = told ∧ s.connection = connection := by
  have hrests {s s' : Reconnecting F Data Limits S L V} (hrests : Rests s s')
      (h : s.finished = true ∧ s.told = told ∧ s.connection = connection) :
      s'.finished = true ∧ s'.told = told ∧ s'.connection = connection := by
    obtain ⟨hover, htold, hconnection⟩ := hrests h.1
    exact ⟨hover, htold.trans h.2.1, hconnection.trans h.2.2⟩
  refine ⟨fun event _ ⟨halone, hphase, h⟩ => ?_, fun acts hmay ⟨halone, hphase, h⟩ => ?_⟩
  · obtain ⟨hphase', hsame⟩ := hphase.takes halone sdk event
    exact ⟨halone.takes sdk event, hphase', hrests hsame h⟩
  · obtain ⟨hphase', hsame⟩ := hphase.does halone hmay sdk acts
    exact ⟨halone.does sdk acts, hphase', hrests hsame h⟩

theorem fromCurrent_of_isEnd {source : Option Nat} {connection : Connection Limits}
    (hend : connection.isEnd = true) : s.FromCurrent source (.connection connection) := by
  cases connection with
  | connected implementation limits => cases hend
  | _ => trivial

/-- Whoever is told something is told what the current session has, or the end. -/
theorem Phase.shown {listener : F} {said : Said Limits S L} {source : Option Nat}
    (hphase : Phase s (.tells listener said source :: rest))
    (h : Alone s (.tells listener said source :: rest)) :
    s.FromCurrent source said := by
  have hfits : s.stopped = true ∨ s.FromCurrent source said := h.fits _ List.mem_cons_self
  refine hfits.elim (fun hs => ?_) id
  cases hphase with
  | live stopped => rw [hs] at stopped; cases stopped
  | ending _ _ upper lower split ends =>
      cases upper with
      | nil => cases split
      | cons next upper =>
          obtain ⟨rfl, -⟩ := List.cons.inj split
          obtain ⟨connection, rfl, hend⟩ := ends _ List.mem_cons_self
          exact fromCurrent_of_isEnd hend
  | finished _ _ mute => cases mute _ List.mem_cons_self

theorem Phase.left (hphase : Phase s due) (h : Alone s due) (hover : s.finished = true) : Left s := by
  cases hphase with
  | live _ finished => rw [hover] at finished; cases finished
  | ending _ finished => rw [hover] at finished; cases finished
  | finished stopped _ _ waiting =>
      refine ⟨fun port hport => ?_, h.core.stopped stopped, fun promise hpromise => ?_⟩
      · cases port with
        | none => rfl
        | some client =>
            obtain ⟨i, hi⟩ := List.mem_iff_getElem?.mp hport
            have hclient : s.session i = some client := by rw [session, hi]; rfl
            cases hended : client.ended with
            | true => exact hended
            | false =>
                have hcurrent := h.core.live hclient hended
                rw [current_of_stopped h stopped] at hcurrent
                cases hcurrent
      · have hkeeps := h.core.keeps
        rw [waiting] at hkeeps
        exact hkeeps.settled_of_none hpromise

/-- Where no listener closes the client while others are still to be told what it is told, and no
port is refused after it stopped, a client ends once and carries nothing over. -/
theorem ends_once (sdk : Sdk Data Input Raw Limits S L V) (moves : Moves F Data Input)
    (hmeets : (machine sdk).Meets Considerate ⟨new, []⟩ moves) : EndsOnce sdk moves := by
  obtain ⟨halone, hphase⟩ : Alone (after sdk moves).state (after sdk moves).due ∧
      Phase (after sdk moves).state (after sdk moves).due :=
    (phase_keeps sdk).run hmeets ⟨alone_new, .live rfl rfl fun _ hitem => by cases hitem⟩
  refine ⟨halone.oneAtATime, fun {listener said source rest} hdue => ?_, fun move => carries_step halone,
    fun hs hdue => ?_, hphase.left halone, fun hover more hmore => ?_⟩
  · rw [hdue] at hphase halone
    exact hphase.shown halone
  · rw [hdue] at hphase
    cases hphase with
    | live stopped => rw [hs] at stopped; cases stopped
    | ending _ _ upper lower split =>
        cases List.append_ne_nil_of_right_ne_nil upper (List.cons_ne_nil _ _) split.symm
    | finished _ finished => exact finished
  · have hrun := (over_keeps sdk _ _).run hmore ⟨halone, hphase, hover, rfl, rfl⟩
    have happend : after sdk (moves ++ more) = (machine sdk).run (after sdk moves) more :=
      List.foldl_append
    rw [happend]
    exact hrun.2.2

section Example

open Client (plainSdk)

/-- A port is refused, the next is opened when the timer fires, and its session is attached; then the
view closes the client. -/
theorem ends_once_example :
    EndsOnce (F := Nat) plainSdk
      [.event .refuses, .goes [], .goes [], .goes [], .event (.fires 0), .goes [], .goes [],
        .event .opened, .event (.receives 0 none), .event (.receives 0 (some (.result 1 0))), .goes [],
        .goes [], .goes [], .goes [], .goes [], .goes [], .goes [], .event (.acts .close), .goes [],
        .goes [], .goes [], .goes [], .goes []] :=
  ends_once plainSdk _ ⟨trivial, rfl, trivial, trivial, trivial, trivial, trivial, trivial, trivial, trivial,
    trivial, trivial, trivial, trivial, trivial, trivial, trivial, trivial, trivial, trivial, trivial,
    trivial, trivial, trivial⟩

/-- The view closes the client while its port is being opened, and the port is refused after. -/
theorem changed_after_the_end :
    ¬ ∀ moves more : Moves Nat (Option (RawFrame Nat)) Unit, (after plainSdk moves).state.finished = true →
      (after plainSdk (moves ++ more)).state.connection = (after plainSdk moves).state.connection := by
  intro hclaim
  have hstays := hclaim [.event (.acts .close), .goes [], .goes [], .goes [], .goes []]
    [.event .refuses, .goes []] rfl
  change Connection.disconnected (some (clientError (lit "TransportDisconnected")
    (lit "no port could be opened") .none)) = .disconnected none at hstays
  cases hstays

end Example

end Reconnecting

end Estoc.Daemon
