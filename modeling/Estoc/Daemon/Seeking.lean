import Estoc.Daemon.EndsOnce

/-!
# A client does not give up

A client that is neither closed nor incompatible is never left with nothing to wait for. It has a
session, or a timer is set, or a port is being opened; where it has none of them, something left to
do brings one about. And the session it has is of use: one that ended is current only until the
client hears of the end, which is left to do.

With what holds of one session at a time this is exact: between two events one of the three is
there, and one only.
-/

set_option linter.unusedSectionVars false

namespace Estoc.Daemon

open Json (lit)
open Utf16 (JsString)

namespace Reconnecting

variable {F Data Input Raw Limits S L V : Type} [DecidableEq F] {sdk : Sdk Data Input Raw Limits S L V}
  {s s' : Reconnecting F Data Limits S L V} {client client' : Client Data Limits S L V}
  {item : Due F Input Limits S L} {due rest more : List (Due F Input Limits S L)} {i : Nat}

namespace Due

/-- The client is to hear that the session ended. -/
def tellsEnd (i : Nat) : Due F Input Limits S L → Bool
  | .hears j (.connection connection) => decide (j = i) && connection.isEnd
  | _ => false

end Due

/-- A client that is not stopped has a session, or seeks one. -/
structure Seeks (s : Reconnecting F Data Limits S L V) (due : List (Due F Input Limits S L)) : Prop where
  seeks : s.stopped = false →
    s.current.isSome = true ∨ 0 < s.timers.length + s.openings + due.countP Due.seeks
  ends : ∀ {i}, s.current = some i → ∃ client, s.session i = some client ∧
    (client.ended = true → due.any (Due.tellsEnd i) = true)

theorem seeks_new : Seeks (new : Reconnecting F Data Limits S L V) ([] : List (Due F Input Limits S L)) :=
  ⟨fun _ => .inr Nat.one_pos, fun h => by cases h⟩

theorem Seeks.of_stopped (hs : s.stopped = true) (hcurrent : s.current = none) : Seeks s due :=
  ⟨fun hlive => (by rw [hs] at hlive; cases hlive), fun hi => (by rw [hcurrent] at hi; cases hi)⟩

/-! ## What is done next -/

/-- What seeks no port and tells of no end leaves the rest as it is. -/
theorem Seeks.next (h : Seeks s (item :: rest)) (hseeks : item.seeks = false)
    (hend : ∀ i, s.current = some i → item.tellsEnd i = false)
    (hstopped : s'.stopped = s.stopped) (hcurrent : s'.current = s.current)
    (htimers : s'.timers = s.timers) (hopenings : s'.openings = s.openings)
    (hsessions : ∀ {i client}, s.session i = some client → ∃ client', s'.session i = some client' ∧
      client'.ended = client.ended) : Seeks s' (more ++ rest) := by
  refine ⟨fun hlive => ?_, fun {i} hi => ?_⟩
  · rw [hcurrent, htimers, hopenings, List.countP_append]
    refine (h.seeks (hstopped ▸ hlive)).imp_right fun hpos => ?_
    rw [List.countP_cons_of_neg (by rw [hseeks]; exact Bool.false_ne_true)] at hpos
    omega
  · rw [hcurrent] at hi
    obtain ⟨client, hclient, hends⟩ := h.ends hi
    obtain ⟨client', hclient', hended⟩ := hsessions hclient
    refine ⟨client', hclient', fun hover => ?_⟩
    have hany := hends (hended.symm.trans hover)
    rw [List.any_cons, hend i hi, Bool.false_or] at hany
    rw [List.any_append, hany, Bool.or_true]

/-- Nor does what has nothing come of it. -/
theorem Seeks.done (h : Seeks s (item :: rest)) (hseeks : item.seeks = false)
    (hend : ∀ i, s.current = some i → item.tellsEnd i = false)
    (hstopped : s'.stopped = s.stopped) (hcurrent : s'.current = s.current)
    (htimers : s'.timers = s.timers) (hopenings : s'.openings = s.openings)
    (hsessions : ∀ {i client}, s.session i = some client → ∃ client', s'.session i = some client' ∧
      client'.ended = client.ended) : Seeks s' rest := by
  have hnext : Seeks s' ([] ++ rest) := h.next hseeks hend hstopped hcurrent htimers hopenings hsessions
  exact hnext

theorem sessions_same (hports : s'.ports = s.ports) {i : Nat} {client : Client Data Limits S L V}
    (h : s.session i = some client) : ∃ client', s'.session i = some client' ∧ client'.ended = client.ended :=
  ⟨client, (session_of_ports hports i).trans h, rfl⟩

theorem Seeks.asks {act : Notified.Act F Input} {asked : Client Data Limits S L V → Client Data Limits S L V}
    (h : Seeks s (.does act :: rest)) (hended : ∀ {i client}, s.session i = some client →
      (asked client).ended = client.ended) :
    Seeks (s.asks asked : _ × List (Due F Input Limits S L)).1 ((s.asks asked).2 ++ rest) := by
  unfold Reconnecting.asks
  split
  · exact h.next rfl (fun _ _ => rfl) rfl rfl rfl rfl (sessions_same rfl)
  · next i _ =>
      unfold Reconnecting.atSession
      split
      · exact h.next rfl (fun _ _ => rfl) rfl rfl rfl rfl (sessions_same rfl)
      · next client hclient =>
          refine h.next rfl (fun _ _ => rfl) rfl rfl rfl rfl fun {j other} hother => ?_
          rw [session_set hclient]
          by_cases hji : j = i
          · rw [if_pos hji]
            rw [hji, hclient] at hother
            obtain rfl := Option.some.inj hother
            exact ⟨asked client, rfl, hended hclient⟩
          · rw [if_neg hji]
            exact ⟨other, hother, rfl⟩

theorem Seeks.act {act : Notified.Act F Input} (halone : Alone s (.does act :: rest))
    (h : Seeks s (.does act :: rest)) (sdk : Sdk Data Input Raw Limits S L V) :
    Seeks (s.act sdk act).1 ((s.act sdk act).2 ++ rest) := by
  cases act with
  | call name input =>
      exact h.asks fun hclient => (Says.asked_call (halone.core.stands hclient)).ended
  | refresh => exact h.asks fun hclient => (Says.asked_refresh (halone.core.stands hclient)).ended
  | connected =>
      change Seeks s.connected rest
      unfold Reconnecting.connected
      split
      · exact h.done rfl (fun _ _ => rfl) rfl rfl rfl rfl (sessions_same rfl)
      · split
        · exact h.done rfl (fun _ _ => rfl) rfl rfl rfl rfl (sessions_same rfl)
        · exact h.done rfl (fun _ _ => rfl) rfl rfl rfl rfl (sessions_same rfl)
  | close =>
      change Seeks (s.close : _ × List (Due F Input Limits S L)).1 (s.close.2 ++ rest)
      by_cases hs : s.stopped = true
      · have hclose : (s.close : _ × List (Due F Input Limits S L)) = (s, []) := if_pos hs
        rw [hclose]
        exact .of_stopped hs (current_of_stopped halone hs)
      · obtain ⟨ports, i, said, hclose, -⟩ := close_cases (Bool.eq_false_iff.mpr hs)
          (rfl : (s.close : _ × List (Due F Input Limits S L)) = _)
        rw [hclose]
        exact .of_stopped rfl rfl
  | on kind listener => exact h.next rfl (fun _ _ => rfl) rfl rfl rfl rfl (sessions_same rfl)
  | off kind listener => exact h.next rfl (fun _ _ => rfl) rfl rfl rfl rfl (sessions_same rfl)

/-- A connection lost has a timer set for the next. -/
theorem Seeks.lost (hcurrent : s'.current = none) (because : Option CallError) :
    Seeks (s'.lost because : _ × List (Due F Input Limits S L)).1 ((s'.lost because).2 ++ rest) := by
  change Seeks { s' with connection := .disconnected because }
    ([.emits (.connection (.disconnected because)) none, .schedules] ++ rest)
  refine ⟨fun _ => .inr ?_, fun hi => ?_⟩
  · have hcount : ([.emits (.connection (.disconnected because)) none, .schedules] ++ rest :
        List (Due F Input Limits S L)).countP Due.seeks = rest.countP Due.seeks + 1 := by
      rw [List.countP_append, Nat.add_comm]
      rfl
    rw [hcount]
    omega
  · rw [show _ = _ from hcurrent] at hi
    cases hi

theorem Seeks.hears {said : Said Limits S L} (h : Seeks s (.hears i said :: rest)) :
    Seeks (s.hears i said : _ × List (Due F Input Limits S L)).1 ((s.hears i said).2 ++ rest) := by
  have hdeaf {said : Said Limits S L} (hcurrent : s.current ≠ some i) (j : Nat)
      (hj : s.current = some j) : (.hears i said : Due F Input Limits S L).tellsEnd j = false := by
    cases said with
    | connection connection =>
        have hne : i ≠ j := fun heq => hcurrent (heq ▸ hj)
        simp [Due.tellsEnd, hne]
    | _ => rfl
  unfold Reconnecting.hears
  split
  · next hnone =>
      refine h.next rfl (hdeaf fun hcurrent => ?_) rfl rfl rfl rfl (sessions_same rfl)
      obtain ⟨client, hclient, -⟩ := h.ends hcurrent
      rw [hnone] at hclient
      cases hclient
  next client hclient =>
  split
  · next hcurrent => exact h.next rfl (hdeaf hcurrent) rfl rfl rfl rfl (sessions_same rfl)
  cases said with
  | state state => exact h.next rfl (fun _ _ => rfl) rfl rfl rfl rfl (sessions_same rfl)
  | lines lines => exact h.next rfl (fun _ _ => rfl) rfl rfl rfl rfl (sessions_same rfl)
  | log line => exact h.next rfl (fun _ _ => rfl) rfl rfl rfl rfl (sessions_same rfl)
  | connection connection =>
      have hopen (hend : connection.isEnd = false) (j : Nat) :
          (.hears i (.connection connection) : Due F Input Limits S L).tellsEnd j = false := by
        simp [Due.tellsEnd, hend]
      cases connection with
      | connecting => exact h.next rfl (fun j _ => hopen rfl j) rfl rfl rfl rfl (sessions_same rfl)
      | connected implementation limits =>
          exact h.next rfl (fun j _ => hopen rfl j) rfl rfl rfl rfl (sessions_same rfl)
      | incompatible supported message => exact .of_stopped rfl rfl
      | disconnected because => exact .lost rfl because

theorem Seeks.schedule (h : Seeks s (.schedules :: rest)) (hcurrent : s.stopped = true → s.current = none) :
    Seeks s.schedule rest := by
  unfold Reconnecting.schedule
  split
  · next hs => exact .of_stopped hs (hcurrent hs)
  · refine ⟨fun _ => .inr ?_, fun {i} hi => ?_⟩
    · dsimp only
      rw [List.length_append, List.length_singleton]
      omega
    · obtain ⟨client, hclient, hends⟩ := h.ends hi
      exact ⟨client, hclient, hends⟩

/-- What is done next keeps it, whatever the listener told does. -/
theorem Seeks.does (halone : Alone s (item :: rest)) (h : Seeks s (item :: rest))
    (sdk : Sdk Data Input Raw Limits S L V) (acts : List (Notified.Act F Input)) :
    Seeks (s.does sdk acts item).1 ((s.does sdk acts item).2 ++ rest) := by
  cases item with
  | does act => exact h.act halone sdk
  | hears session said => exact h.hears
  | loses because =>
      refine .lost ?_ because
      cases hcurrent : s.current with
      | none => rfl
      | some i =>
          have hnone := (halone.core.current (by rw [hcurrent]; rfl)).2
          rw [List.countP_cons_of_pos rfl] at hnone
          omega
  | schedules => exact h.schedule (current_of_stopped halone)
  | opens =>
      refine ⟨fun _ => .inr ?_, fun {i} hi => h.ends hi⟩
      change 0 < s.timers.length + (s.openings + 1) + rest.countP Due.seeks
      omega
  | emits said source => exact h.next rfl (fun _ _ => rfl) rfl rfl rfl rfl (sessions_same rfl)
  | tells listener said source => exact h.next rfl (fun _ _ => rfl) rfl rfl rfl rfl (sessions_same rfl)
  | sets connection => exact h.next rfl (fun _ _ => rfl) rfl rfl rfl rfl (sessions_same rfl)
  | resolves => exact h.done rfl (fun _ _ => rfl) rfl rfl rfl rfl (sessions_same rfl)
  | rejects => exact h.done rfl (fun _ _ => rfl) rfl rfl rfl rfl (sessions_same rfl)
  | returns => exact h.done rfl (fun _ _ => rfl) rfl rfl rfl rfl (sessions_same rfl)

/-! ## What happens when nothing is left to do -/

/-- A session that ends says so. -/
theorem ends_said {may : BaselineOf S L → Prop} {change : Says.Change Data Limits S L V}
    (htells : Says.Tells may client change) (hlive : client.ended = false)
    (hended : change.1.ended = true) :
    (change.2.map (.hears i) : List (Due F Input Limits S L)).any (Due.tellsEnd i) = true := by
  cases htells with
  | quiet _ ended => rw [ended, hlive] at hended; cases hended
  | attached _ _ ended => rw [ended] at hended; cases hended
  | ends stands _ ended =>
      rw [List.map_singleton, List.any_cons]
      simp [Due.tellsEnd, stands.ended, ended]

theorem Seeks.atSession {change : Client Data Limits S L V → Says.Change Data Limits S L V}
    (h : Seeks s ([] : List (Due F Input Limits S L)))
    (htells : ∀ {client}, s.session i = some client → ∃ may, Says.Tells may client (change client)) :
    Seeks (s.atSession i change : _ × List (Due F Input Limits S L)).1
      (s.atSession i change : _ × List (Due F Input Limits S L)).2 := by
  unfold Reconnecting.atSession
  split
  · exact h
  · next client hclient =>
      refine ⟨fun hlive => ?_, fun {j} hj => ?_⟩
      · refine (h.seeks hlive).imp_right fun hpos => ?_
        rw [seeking_hears]
        exact hpos
      · obtain ⟨other, hother, hends⟩ := h.ends hj
        rw [session_set hclient]
        by_cases hji : j = i
        · subst hji
          rw [if_pos rfl]
          obtain rfl := Option.some.inj (hclient.symm.trans hother)
          obtain ⟨may, htells⟩ := htells hclient
          refine ⟨_, rfl, fun hover => ends_said htells ?_ hover⟩
          cases hended : client.ended with
          | false => rfl
          | true => cases hends hended
        · rw [if_neg hji]
          refine ⟨other, hother, fun hover => ?_⟩
          cases hends hover

theorem Seeks.gives (halone : Alone s ([] : List (Due F Input Limits S L)))
    (sdk : Sdk Data Input Raw Limits S L V) :
    Seeks (Reconnecting.gives sdk { s with openings := s.openings - 1 })
      ([] : List (Due F Input Limits S L)) := by
  unfold Reconnecting.gives
  split
  · next hs =>
      have hcurrent : s.current = none := current_of_stopped halone hs
      exact .of_stopped hs hcurrent
  · refine ⟨fun _ => .inl rfl, fun {i} hi => ⟨Client.opened sdk, ?_, fun hended => by cases hended⟩⟩
    obtain rfl := Option.some.inj hi
    exact (session_append _ _).trans (if_pos rfl)

/-- An event keeps it. -/
theorem Seeks.takes (halone : Alone s ([] : List (Due F Input Limits S L)))
    (h : Seeks s ([] : List (Due F Input Limits S L))) (sdk : Sdk Data Input Raw Limits S L V)
    (event : Event F Data Input) : Seeks (s.takes sdk event).1 (s.takes sdk event).2 := by
  cases event with
  | opened =>
      unfold Reconnecting.takes
      dsimp only
      split
      · exact h
      · exact .gives halone sdk
  | refuses =>
      unfold Reconnecting.takes
      dsimp only
      split
      · exact h
      · refine ⟨fun _ => .inr ?_, fun {i} hi => ?_⟩
        · exact Nat.lt_add_left _ Nat.one_pos
        · obtain ⟨client, hclient, hends⟩ := h.ends hi
          exact ⟨client, hclient, fun hover => by cases hends hover⟩
  | fires timer =>
      unfold Reconnecting.takes
      dsimp only
      split
      · exact h
      · refine ⟨fun _ => .inr ?_, fun {i} hi => ?_⟩
        · exact Nat.lt_add_left _ Nat.one_pos
        · obtain ⟨client, hclient, hends⟩ := h.ends hi
          exact ⟨client, hclient, fun hover => by cases hends hover⟩
  | receives port data =>
      have hbase : Seeks { s with baselines := s.baselines ++
          (((s.session port).bind fun client => Says.baselineOf sdk client data).map
            fun baseline => (port, baseline)).toList } ([] : List (Due F Input Limits S L)) :=
        ⟨h.seeks, h.ends⟩
      exact hbase.atSession fun hclient => ⟨_, Says.tells_receive (halone.core.stands hclient)⟩
  | portCloses port =>
      exact h.atSession fun hclient => ⟨_, Says.tells_portCloses (halone.core.stands hclient)⟩
  | sendFails port =>
      exact h.atSession fun hclient => ⟨_, Says.tells_sendFails (halone.core.stands hclient)⟩
  | acts act =>
      have hbefore : Seeks s [(.does act : Due F Input Limits S L)] := by
        refine ⟨h.seeks, fun {i} hi => ?_⟩
        obtain ⟨client, hclient, hends⟩ := h.ends hi
        exact ⟨client, hclient, fun hover => by cases hends hover⟩
      have hacts := hbefore.act (halone.before act) sdk
      rw [List.append_nil] at hacts
      exact hacts

theorem seeks_keeps (sdk : Sdk Data Input Raw Limits S L V) :
    (machine (F := F) sdk).Keeps (fun _ => True) fun s due => Alone s due ∧ Seeks s due :=
  ⟨fun event _ h => ⟨h.1.takes sdk event, h.2.takes h.1 sdk event⟩,
    fun acts _ h => ⟨h.1.does sdk acts, h.2.does h.1 sdk acts⟩⟩

/-! ## What it has between two events -/

/-- What a client that goes on has: a session of use, a timer, or a port being opened. -/
inductive GoesOn (s : Reconnecting F Data Limits S L V) : Prop
  | session {i : Nat} {client : Client Data Limits S L V} (current : s.current = some i)
      (session : s.session i = some client) (live : client.ended = false) (timers : s.timers = [])
      (openings : s.openings = 0)
  | timer {timer : Nat} (current : s.current = none) (timers : s.timers = [timer])
      (set : s.timer = some timer) (openings : s.openings = 0)
  | opening (current : s.current = none) (timers : s.timers = []) (openings : s.openings = 1)

theorem goesOn_of_idle (halone : Alone s ([] : List (Due F Input Limits S L)))
    (h : Seeks s ([] : List (Due F Input Limits S L))) (hlive : s.stopped = false) : GoesOn s := by
  have hpending : s.timers.length + s.openings ≤ 1 := halone.core.pending
  cases hcurrent : s.current with
  | some i =>
      obtain ⟨client, hclient, hends⟩ := h.ends hcurrent
      obtain ⟨-, hnone⟩ := halone.core.current (by rw [hcurrent]; rfl)
      refine .session hcurrent hclient ?_ (List.length_eq_zero_iff.mp (by omega)) (by omega)
      cases hended : client.ended with
      | false => rfl
      | true => cases hends hended
  | none =>
      have hpos : 0 < s.timers.length + s.openings := by
        rcases h.seeks hlive with hsome | hpos
        · rw [hcurrent] at hsome
          cases hsome
        · exact hpos
      cases htimers : s.timers with
      | nil =>
          rw [htimers, List.length_nil] at hpending hpos
          exact .opening hcurrent htimers (by omega)
      | cons timer others =>
          rw [htimers, List.length_cons] at hpending
          have hothers : others = [] := List.length_eq_zero_iff.mp (by omega)
          refine .timer hcurrent (by rw [htimers, hothers]) ?_ (by omega)
          exact halone.core.timer timer (by rw [htimers]; exact List.mem_cons_self)

/-- In every run, whatever the listeners do: one session, timer or port being opened at most at any
moment, every move carries over only what is the current session's, and between two events a client
that was neither closed nor incompatible has one of the three. -/
theorem never_gives_up (sdk : Sdk Data Input Raw Limits S L V) (moves : Moves F Data Input) :
    OneAtATime (after sdk moves).state ∧
    (∀ move, Carries (Reason sdk (after sdk moves) move) (after sdk moves).state
      ((machine sdk).step (after sdk moves) move).state) ∧
    ((after sdk moves).due = [] → (after sdk moves).state.stopped = false →
      GoesOn (after sdk moves).state) := by
  obtain ⟨halone, hseeks⟩ : Alone (after sdk moves).state (after sdk moves).due ∧
      Seeks (after sdk moves).state (after sdk moves).due :=
    (seeks_keeps sdk).run (Reentry.Machine.meets_all _ _) ⟨alone_new, seeks_new⟩
  refine ⟨halone.oneAtATime, fun move => carries_step halone, fun hdue hlive => ?_⟩
  rw [hdue] at halone hseeks
  exact goesOn_of_idle halone hseeks hlive

end Reconnecting

end Estoc.Daemon
