import Estoc.Daemon.Handed
import Estoc.Daemon.Reconnecting
import Estoc.Daemon.Telling

/-!
# One session at a time

What holds of a client over its connections whatever its listeners do. A session that has not ended
is the current one, and there is a current session, a timer, or a port being opened, one at most of
the three: each gives way to the next in one step, or leaves to do what brings the next about. What
a session says is heard from it while it still has what it said, since nothing comes in before all
is said, and what is told of it is told of the session that is current unless the client is closed
in between.
-/

set_option linter.unusedSectionVars false

namespace Estoc.Daemon

open Json (lit)
open Utf16 (JsString)

namespace Reconnecting

variable {F Data Input Raw Limits S L V : Type} [DecidableEq F] {sdk : Sdk Data Input Raw Limits S L V}
  {s s' : Reconnecting F Data Limits S L V} {client client' : Client Data Limits S L V}
  {item : Due F Input Limits S L} {rest more : List (Due F Input Limits S L)} {i : Nat}

/-- One session at most is of use, the current one, and while there is one no other is sought. -/
structure OneAtATime (s : Reconnecting F Data Limits S L V) : Prop where
  live : ∀ {i client}, s.session i = some client → client.ended = false → s.current = some i
  pending : s.timers.length + s.openings ≤ 1
  alone : s.current.isSome = true → s.timers = [] ∧ s.openings = 0

/-- What is told is what the session that is current has, and a connection is told of when the
baseline it was attached with is shown. -/
def FromCurrent (s : Reconnecting F Data Limits S L V) (source : Option Nat) : Said Limits S L → Prop
  | .connection (.connected _ _) => ∃ i baseline, source = some i ∧ s.current = some i ∧
      s.baselines.getLast? = some (i, baseline) ∧ s.state = some baseline.state ∧
      s.lines = some baseline.lines
  | .connection _ => True
  | .state state => ∃ i client, source = some i ∧ s.current = some i ∧ s.session i = some client ∧
      client.state = some state ∧ s.state = some state
  | .lines lines => ∃ i client, source = some i ∧ s.current = some i ∧ s.session i = some client ∧
      client.lines = some lines ∧ s.lines = some lines
  | .log _ => ∃ i, source = some i ∧ s.current = some i

/-! ## What is left to do -/

namespace Due

def isHears : Due F Input Limits S L → Bool
  | .hears _ _ => true
  | _ => false

/-- Another port is sought by it. -/
def seeks : Due F Input Limits S L → Bool
  | .loses _ => true
  | .schedules => true
  | .opens => true
  | _ => false

end Due

/-- A session has what it said. -/
def Has (s : Reconnecting F Data Limits S L V) (i : Nat) (client : Client Data Limits S L V) :
    Said Limits S L → Prop
  | .connection connection => if connection.isEnd then client.ended = true else
      ∃ baseline, s.baselines.getLast? = some (i, baseline) ∧ client.state = some baseline.state ∧
        client.lines = some baseline.lines
  | .state state => client.state = some state
  | .lines lines => client.lines = some lines
  | .log _ => True

/-- What is left to do is right as things are. -/
def Fits (s : Reconnecting F Data Limits S L V) : Due F Input Limits S L → Prop
  | .emits said source => s.stopped = true ∨ s.FromCurrent source said
  | .tells _ said source => s.stopped = true ∨ s.FromCurrent source said
  | .hears i said => s.current = some i → ∃ client, s.session i = some client ∧ s.Has i client said
  | .sets _ => s.stopped = true
  | .rejects => s.stopped = true
  | .returns => s.stopped = true
  | _ => True

/-- What holds of a client, of whose things left to do as many seek another port. -/
structure Core (s : Reconnecting F Data Limits S L V) (seeking : Nat) : Prop where
  stands : ∀ {i client}, s.session i = some client → Says.Stands client
  live : ∀ {i client}, s.session i = some client → client.ended = false → s.current = some i
  current : s.current.isSome = true → s.stopped = false ∧ s.timers.length + s.openings + seeking = 0
  pending : s.timers.length + s.openings + seeking ≤ 1
  timer : ∀ timer ∈ s.timers, s.timer = some timer
  stopped : s.stopped = true → s.timers = []
  keeps : s.ledger.Keeps s.waiting

structure Alone (s : Reconnecting F Data Limits S L V) (due : List (Due F Input Limits S L)) : Prop where
  core : Core s (due.countP Due.seeks)
  /-- Nothing is left to do under what a session is saying, unless the client stopped. -/
  layered : s.stopped = false → due.Pairwise fun a b => a.isHears = true → b.isHears = true
  fits : ∀ item ∈ due, s.Fits item

theorem Alone.oneAtATime {due : List (Due F Input Limits S L)} (h : Alone s due) : OneAtATime s := by
  refine ⟨h.core.live, ?_, fun hcurrent => ?_⟩
  · have hpending := h.core.pending
    omega
  · have hnone := (h.core.current hcurrent).2
    exact ⟨List.length_eq_zero_iff.mp (by omega), by omega⟩

theorem session_new (i : Nat) : (new : Reconnecting F Data Limits S L V).session i = none := rfl

theorem alone_new :
    Alone (new : Reconnecting F Data Limits S L V) ([] : List (Due F Input Limits S L)) where
  core :=
    { stands := fun h => by rw [session_new] at h; cases h
      live := fun h => by rw [session_new] at h; cases h
      current := fun h => by cases h
      pending := Nat.le_refl _
      timer := fun _ h => by cases h
      stopped := fun h => by cases h
      keeps := Promises.Ledger.keeps_empty }
  layered _ := List.Pairwise.nil
  fits _ h := by cases h

theorem session_set (h : s.session i = some client) (client' : Client Data Limits S L V) (j : Nat) :
    session { s with ports := s.ports.set i (some client') } j =
      if j = i then some client' else s.session j := by
  have hlt : i < s.ports.length := by
    by_contra hge
    rw [session, List.getElem?_eq_none (Nat.not_lt.mp hge)] at h
    cases h
  unfold session
  dsimp only
  by_cases hji : j = i
  · rw [if_pos hji, hji, List.getElem?_set_self hlt]
    rfl
  · rw [if_neg hji, List.getElem?_set_ne fun heq => hji heq.symm]

theorem session_append (port : Option (Client Data Limits S L V)) (j : Nat) :
    session { s with ports := s.ports ++ [port] } j =
      if j = s.ports.length then port else s.session j := by
  unfold session
  dsimp only
  by_cases hlt : j < s.ports.length
  · rw [List.getElem?_append_left hlt, if_neg (Nat.ne_of_lt hlt)]
  · rw [List.getElem?_append_right (Nat.not_lt.mp hlt)]
    by_cases heq : j = s.ports.length
    · rw [if_pos heq, heq, Nat.sub_self]
      rfl
    · rw [if_neg heq, List.getElem?_eq_none (Nat.not_lt.mp hlt), List.getElem?_eq_none]
      rw [List.length_singleton]
      omega

/-! ## What is left to do stays right -/

/-- Nothing changed of what is left to do, or the client stopped. -/
inductive Like (s s' : Reconnecting F Data Limits S L V) : Prop
  | stopped (stopped : s'.stopped = true) (current : s'.current = none)
  | same (stopped : s'.stopped = s.stopped) (current : s'.current = s.current) (state : s'.state = s.state)
      (lines : s'.lines = s.lines) (baselines : s'.baselines = s.baselines)
      (sessions : ∀ {i client}, s.session i = some client → ∃ client', s'.session i = some client' ∧
        client'.state = client.state ∧ client'.lines = client.lines ∧
        (client.ended = true → client'.ended = true))

theorem FromCurrent.like {source : Option Nat} {said : Said Limits S L} (h : s.FromCurrent source said)
    (hlike : Like s s') : s'.stopped = true ∨ s'.FromCurrent source said := by
  cases hlike with
  | stopped hstopped _ => exact .inl hstopped
  | same hstopped hcurrent hstate hlines hbaselines hsessions =>
      refine .inr ?_
      cases said with
      | connection connection =>
          cases connection with
          | connected implementation limits =>
              obtain ⟨i, baseline, hsource, h⟩ := h
              refine ⟨i, baseline, hsource, ?_⟩
              rw [hcurrent, hbaselines, hstate, hlines]
              exact h
          | _ => trivial
      | state state =>
          obtain ⟨i, client, hsource, hi, hclient, hshown, hs⟩ := h
          obtain ⟨client', hclient', hstate', -, -⟩ := hsessions hclient
          exact ⟨i, client', hsource, hcurrent.trans hi, hclient', hstate'.trans hshown, hstate.trans hs⟩
      | lines lines =>
          obtain ⟨i, client, hsource, hi, hclient, hshown, hs⟩ := h
          obtain ⟨client', hclient', -, hlines', -⟩ := hsessions hclient
          exact ⟨i, client', hsource, hcurrent.trans hi, hclient', hlines'.trans hshown, hlines.trans hs⟩
      | log line =>
          obtain ⟨i, hsource, hi⟩ := h
          exact ⟨i, hsource, hcurrent.trans hi⟩

/-- A session has what it said as long as what it shows stays. -/
theorem Has.of_eq {said : Said Limits S L} (h : s.Has i client said) (hbaselines : s'.baselines = s.baselines)
    (hstate : client'.state = client.state) (hlines : client'.lines = client.lines)
    (hended : client.ended = true → client'.ended = true) : s'.Has i client' said := by
  cases said with
  | connection connection =>
      unfold Has at h ⊢
      dsimp only at h ⊢
      split at h
      · next hend =>
          rw [if_pos hend]
          exact hended h
      · next hend =>
          rw [if_neg hend, hbaselines, hstate, hlines]
          exact h
  | state state => exact hstate.trans h
  | lines lines => exact hlines.trans h
  | log line => trivial

theorem Fits.like (h : s.Fits item) (hlike : Like s s') : s'.Fits item := by
  have hstopped (hs : s.stopped = true) : s'.stopped = true := by
    cases hlike with
    | stopped hstopped _ => exact hstopped
    | same hstopped => exact hstopped.trans hs
  cases item with
  | emits said source => exact h.elim (fun h => .inl (hstopped h)) fun h => h.like hlike
  | tells listener said source => exact h.elim (fun h => .inl (hstopped h)) fun h => h.like hlike
  | hears j said =>
      intro hj
      cases hlike with
      | stopped _ hcurrent =>
          rw [hcurrent] at hj
          cases hj
      | same _ hcurrent _ _ hbaselines hsessions =>
          obtain ⟨client, hclient, hhas⟩ := h (hcurrent.symm.trans hj)
          obtain ⟨client', hclient', hstate, hlines, hended⟩ := hsessions hclient
          exact ⟨client', hclient', hhas.of_eq hbaselines hstate hlines hended⟩
  | sets connection => exact hstopped h
  | rejects => exact hstopped h
  | returns => exact hstopped h
  | _ => trivial

/-- What a session is still to say is right whatever the client shows. -/
theorem Fits.hears {said : Said Limits S L} (h : s.Fits (.hears i said : Due F Input Limits S L))
    (hcurrent : s'.current = none ∨ s'.current = s.current) (hports : s'.ports = s.ports)
    (hbaselines : s'.baselines = s.baselines) : s'.Fits (.hears i said : Due F Input Limits S L) := by
  intro hi
  rcases hcurrent with hcurrent | hcurrent
  · rw [hcurrent] at hi
    cases hi
  · obtain ⟨client, hclient, hhas⟩ := h (hcurrent.symm.trans hi)
    refine ⟨client, ?_, hhas.of_eq hbaselines rfl rfl id⟩
    unfold session at hclient ⊢
    rw [hports]
    exact hclient

/-- What is done next makes way for what it leaves to do. -/
theorem Alone.next (h : Alone s (item :: rest)) (hcore : Core s' ((more ++ rest).countP Due.seeks))
    (hstopped : s.stopped = true → s'.stopped = true)
    (hmore : s'.stopped = false → ∀ item ∈ more, item.isHears = false)
    (hfits : ∀ item ∈ more, s'.Fits item) (hrest : ∀ item ∈ rest, s.Fits item → s'.Fits item) :
    Alone s' (more ++ rest) := by
  refine ⟨hcore, fun hs' => ?_, fun item hitem => ?_⟩
  · have hs : s.stopped = false := by
      cases hs : s.stopped with
      | false => rfl
      | true => rw [hstopped hs] at hs'; cases hs'
    refine List.pairwise_append.mpr ⟨?_, (List.pairwise_cons.mp (h.layered hs)).2, fun a ha b _ hhears => ?_⟩
    · refine List.pairwise_of_forall_mem_list fun a ha b _ hhears => ?_
      rw [hmore hs' a ha] at hhears
      cases hhears
    · rw [hmore hs' a ha] at hhears
      cases hhears
  · rcases List.mem_append.mp hitem with hitem | hitem
    · exact hfits item hitem
    · exact hrest item hitem (h.fits item (List.mem_cons_of_mem _ hitem))

theorem Like.stops (h : Like s s') (hs : s.stopped = true) : s'.stopped = true := by
  cases h with
  | stopped hstopped _ => exact hstopped
  | same hstopped => exact hstopped.trans hs

theorem Core.mono {seeking seeking' : Nat} (h : Core s seeking) (hle : seeking' ≤ seeking) :
    Core s seeking' :=
  { h with
    current := fun hcurrent => by
      obtain ⟨hstopped, hnone⟩ := h.current hcurrent
      exact ⟨hstopped, by omega⟩
    pending := by have hpending := h.pending; omega }

theorem Alone.under (h : Alone s (item :: rest)) : Core s (rest.countP Due.seeks) :=
  h.core.mono (List.sublist_cons_self _ _).countP_le

/-- What is done next leaves nothing more to do. -/
theorem Alone.quiet (h : Alone s (item :: rest)) (hcore : Core s' (rest.countP Due.seeks))
    (hlike : Like s s') : Alone s' rest := by
  change Alone s' ([] ++ rest)
  exact h.next hcore hlike.stops (fun _ _ hitem => by cases hitem) (fun _ hitem => by cases hitem)
    fun _ _ hfits => hfits.like hlike

theorem seeking_append (hmore : ∀ item ∈ more, item.seeks = false) :
    (more ++ rest).countP Due.seeks = rest.countP Due.seeks := by
  rw [List.countP_append, List.countP_eq_zero.mpr fun item hitem => ?_, Nat.zero_add]
  rw [hmore item hitem]
  exact Bool.false_ne_true

/-- What is done next leaves something to do that is no session's and seeks no port. -/
theorem Alone.leaves (h : Alone s (item :: rest)) (hcore : Core s' (rest.countP Due.seeks))
    (hlike : Like s s')
    (hmore : ∀ item ∈ more, item.isHears = false ∧ item.seeks = false ∧ s'.Fits item) :
    Alone s' (more ++ rest) := by
  refine h.next ?_ hlike.stops (fun _ item hitem => (hmore item hitem).1)
    (fun item hitem => (hmore item hitem).2.2) fun _ _ hfits => hfits.like hlike
  rw [seeking_append fun item hitem => (hmore item hitem).2.1]
  exact hcore

/-- Between two events anything may be done. -/
theorem Alone.before (h : Alone s ([] : List (Due F Input Limits S L))) (act : Notified.Act F Input) :
    Alone s [.does act] where
  core := h.core
  layered _ := List.pairwise_singleton _ _
  fits item hitem := by
    rw [List.mem_singleton.mp hitem]
    trivial

/-! ## What a view does -/

theorem Core.atSession {seeking : Nat} (h : Core s seeking) (hclient : s.session i = some client)
    (hstands : Says.Stands client') (hended : client.ended = true → client'.ended = true) :
    Core { s with ports := s.ports.set i (some client') } seeking := by
  refine { h with stands := fun {j other} hother => ?_, live := fun {j other} hother hlive => ?_ }
  · rw [session_set hclient] at hother
    split at hother
    · rw [← Option.some.inj hother]
      exact hstands
    · exact h.stands hother
  · rw [session_set hclient] at hother
    split at hother
    · next hji =>
        rw [← Option.some.inj hother] at hlive
        rw [hji]
        refine h.live hclient ?_
        cases hover : client.ended with
        | false => rfl
        | true => rw [hended hover] at hlive; cases hlive
    · exact h.live hother hlive

theorem like_atSession (hclient : s.session i = some client) (hstate : client'.state = client.state)
    (hlines : client'.lines = client.lines) (hended : client.ended = true → client'.ended = true) :
    Like s { s with ports := s.ports.set i (some client') } := by
  refine .same rfl rfl rfl rfl rfl fun {j other} hother => ?_
  rw [session_set hclient]
  by_cases hji : j = i
  · rw [hji, hclient] at hother
    rw [if_pos hji, ← Option.some.inj hother]
    exact ⟨client', rfl, hstate, hlines, hended⟩
  · rw [if_neg hji]
    exact ⟨other, hother, rfl, rfl, id⟩

theorem like_of_ports (hstopped : s'.stopped = s.stopped) (hcurrent : s'.current = s.current)
    (hstate : s'.state = s.state) (hlines : s'.lines = s.lines) (hbaselines : s'.baselines = s.baselines)
    (hports : s'.ports = s.ports) : Like s s' := by
  refine .same hstopped hcurrent hstate hlines hbaselines fun {i client} hclient => ⟨client, ?_, rfl, rfl, id⟩
  unfold session at hclient ⊢
  rw [hports]
  exact hclient

theorem Alone.asks {asked : Client Data Limits S L V → Client Data Limits S L V}
    (h : Alone s (item :: rest))
    (hasked : ∀ {client}, Says.Stands client → Says.Asked client (asked client))
    (hstate : ∀ client, (asked client).state = client.state)
    (hlines : ∀ client, (asked client).lines = client.lines) :
    Alone (s.asks asked : _ × List (Due F Input Limits S L)).1 ((s.asks asked).2 ++ rest) := by
  unfold Reconnecting.asks
  split
  · exact h.quiet { h.under with keeps := h.under.keeps.handSettled }
      (like_of_ports rfl rfl rfl rfl rfl rfl)
  · next i _ =>
      unfold Reconnecting.atSession
      split
      · exact h.quiet h.under (like_of_ports rfl rfl rfl rfl rfl rfl)
      · next client hclient =>
          have hasked := hasked (h.core.stands hclient)
          have hended (hover : client.ended = true) : (asked client).ended = true :=
            hasked.ended.trans hover
          exact h.quiet (h.under.atSession hclient hasked.stands hended)
            (like_atSession hclient (hstate client) (hlines client) hended)

theorem Alone.connected (h : Alone s (item :: rest)) : Alone s.connected rest := by
  unfold Reconnecting.connected
  split
  · exact h.quiet { h.under with keeps := h.under.keeps.handSettled } (like_of_ports rfl rfl rfl rfl rfl rfl)
  · split
    · exact h.quiet { h.under with keeps := h.under.keeps.handSettled }
        (like_of_ports rfl rfl rfl rfl rfl rfl)
    · refine h.quiet { h.under with keeps := ?_ } (like_of_ports rfl rfl rfl rfl rfl rfl)
      exact h.under.keeps.hand.perm (List.perm_append_singleton _ _)

theorem Alone.settleWaiting {outcome : Outcome V} (h : Alone s (item :: rest)) :
    Alone (s.settleWaiting outcome) rest := by
  refine h.quiet { h.under with keeps := ?_ } (like_of_ports rfl rfl rfl rfl rfl rfl)
  change (s.ledger.settleAll (s.waiting.map fun promise => (promise, outcome))).Keeps []
  refine Promises.Ledger.Keeps.settleAll ?_
  rw [List.map_map, List.append_nil]
  change s.ledger.Keeps (s.waiting.map id)
  rw [List.map_id]
  exact h.under.keeps

theorem close_ended : (Says.close client).1.ended = true := by
  unfold Says.close Says.finish
  split
  · next hended => exact hended
  · rfl

/-- A client is closed with its session, where it has one. -/
theorem close_cases {change : Reconnecting F Data Limits S L V × List (Due F Input Limits S L)}
    (hs : s.stopped = false) (hchange : s.close = change) :
    ∃ ports i, ∃ said : List (Said Limits S L), change =
      ({ s with
          stopped := true
          timers := s.timers.filter fun timer => s.timer ≠ some timer
          current := none
          ports := ports },
        said.map (.hears i) ++ [.sets (.disconnected none), .rejects, .returns]) ∧
      ((ports = s.ports ∧ s.current.bind s.session = none) ∨
        ∃ client, s.current = some i ∧ s.session i = some client ∧
          ports = s.ports.set i (some (Says.close client).1)) := by
  rw [← hchange]
  unfold Reconnecting.close
  rw [if_neg (by rw [hs]; exact Bool.false_ne_true)]
  cases hcurrent : s.current with
  | none => exact ⟨s.ports, 0, [], rfl, .inl ⟨rfl, rfl⟩⟩
  | some i =>
      have hsession (current : Option Nat) (timers : List Nat) :
          session { s with stopped := true, timers := timers, current := current } i = s.session i := rfl
      dsimp only
      unfold Reconnecting.atSession
      rw [hsession]
      cases hclient : s.session i with
      | none => exact ⟨s.ports, i, [], rfl, .inl ⟨rfl, hclient⟩⟩
      | some client =>
          exact ⟨s.ports.set i (some (Says.close client).1), i, (Says.close client).2, rfl,
            .inr ⟨client, rfl, hclient, rfl⟩⟩

theorem Alone.close (h : Alone s (item :: rest)) :
    Alone (s.close : _ × List (Due F Input Limits S L)).1 (s.close.2 ++ rest) := by
  by_cases hs : s.stopped = true
  · have hclose : (s.close : _ × List (Due F Input Limits S L)) = (s, []) := if_pos hs
    rw [hclose]
    exact h.quiet h.under (like_of_ports rfl rfl rfl rfl rfl rfl)
  obtain ⟨ports, i, said, hclose, hports⟩ := close_cases (Bool.eq_false_iff.mpr hs)
    (rfl : (s.close : _ × List (Due F Input Limits S L)) = _)
  -- Every session has ended then: one that had not was the current one, and is closed.
  have hsessions {j : Nat} {client : Client Data Limits S L V}
      (hclient : session { s with ports := ports } j = some client) :
      Says.Stands client ∧ client.ended = true := by
    have hover (hclient : s.session j = some client) (hj : s.current ≠ some j) : client.ended = true := by
      cases hended : client.ended with
      | true => rfl
      | false => exact absurd (h.core.live hclient hended) hj
    rcases hports with ⟨rfl, hnone⟩ | ⟨current, hcurrent, hi, rfl⟩
    · refine ⟨h.core.stands hclient, hover hclient fun hj => ?_⟩
      rw [hj] at hnone
      cases hnone.symm.trans hclient
    · rw [session_set hi] at hclient
      split at hclient
      · rw [← Option.some.inj hclient]
        exact ⟨(Says.tells_close (h.core.stands hi)).stands, close_ended⟩
      · next hji =>
          refine ⟨h.core.stands hclient, hover hclient fun hj => hji ?_⟩
          exact Option.some.inj (hj.symm.trans hcurrent)
  have hcleared : (s.timers.filter fun timer => s.timer ≠ some timer) = [] := by
    refine List.filter_eq_nil_iff.mpr fun timer htimer hne => ?_
    exact of_decide_eq_true hne (h.core.timer timer htimer)
  have hcount : ((said.map (.hears i) ++ [.sets (.disconnected none), .rejects, .returns]) ++ rest :
      List (Due F Input Limits S L)).countP Due.seeks = rest.countP Due.seeks := by
    rw [List.append_assoc, seeking_append fun item hitem => ?_]
    · rfl
    · obtain ⟨said, -, rfl⟩ := List.mem_map.mp hitem
      rfl
  rw [hclose, hcleared]
  refine h.next ?_ (fun _ => rfl) (fun hs' => by cases hs') (fun item hitem => ?_)
    fun item _ hfits => hfits.like (.stopped rfl rfl)
  · rw [hcount]
    refine ⟨fun hclient => (hsessions hclient).1, fun hclient hlive => ?_,
      (fun hcurrent => by cases hcurrent), ?_, (fun timer htimer => by cases htimer), fun _ => rfl,
      h.core.keeps⟩
    · rw [(hsessions hclient).2] at hlive
      cases hlive
    · have hpending := h.under.pending
      dsimp only
      rw [List.length_nil]
      omega
  · rcases List.mem_append.mp hitem with hitem | hitem
    · obtain ⟨said, -, rfl⟩ := List.mem_map.mp hitem
      intro hcurrent
      cases hcurrent
    · simp only [List.mem_cons, List.not_mem_nil, or_false] at hitem
      rcases hitem with rfl | rfl | rfl
      · rfl
      · rfl
      · rfl

theorem Alone.act {act : Notified.Act F Input} (h : Alone s (.does act :: rest))
    (sdk : Sdk Data Input Raw Limits S L V) : Alone (s.act sdk act).1 ((s.act sdk act).2 ++ rest) := by
  cases act with
  | call name input =>
      have hleaves (client : Client Data Limits S L V) :
          Says.Leaves sdk name input client (client.call sdk name input) := Says.leaves_call
      exact h.asks (fun h => Says.asked_call h) (fun client => (hleaves client).state)
        fun client => (hleaves client).lines
  | refresh =>
      exact h.asks (fun h => Says.asked_refresh h) (fun _ => Says.leaves_refresh.state)
        fun _ => Says.leaves_refresh.lines
  | connected => exact h.connected
  | close => exact h.close
  | on kind listener => exact h.quiet { h.under with } (like_of_ports rfl rfl rfl rfl rfl rfl)
  | off kind listener => exact h.quiet { h.under with } (like_of_ports rfl rfl rfl rfl rfl rfl)

/-! ## What the sessions say, and the ports and the timer -/

/-- A session that has ended is current no more. -/
theorem Core.leave {seeking : Nat} (h : Core s seeking) (hcurrent : s.current = some i)
    (hclient : s.session i = some client) (hended : client.ended = true) :
    Core { s with current := none } 1 ∧ s.timers = [] := by
  have hnone := (h.current (by rw [hcurrent]; rfl)).2
  have htimers : s.timers = [] := List.length_eq_zero_iff.mp (by omega)
  refine ⟨{ h with
    live := fun {j other} hother hlive => ?_
    current := fun hcurrent => by cases hcurrent
    pending := ?_ }, htimers⟩
  · have hj := h.live hother hlive
    obtain rfl := Option.some.inj (hcurrent.symm.trans hj)
    obtain rfl := Option.some.inj (hclient.symm.trans hother)
    rw [hended] at hlive
    cases hlive
  · dsimp only
    omega

/-- Another connection is lost, or never was, and another is sought. -/
theorem Alone.lost (h : Alone s (item :: rest)) (hcore : Core s' (rest.countP Due.seeks + 1))
    (hstopped : s'.stopped = s.stopped) (hrest : ∀ item ∈ rest, s.Fits item → s'.Fits item)
    (because : Option CallError) :
    Alone (s'.lost because : _ × List (Due F Input Limits S L)).1 ((s'.lost because).2 ++ rest) := by
  have hcount : ([.emits (.connection (.disconnected because)) none, .schedules] ++ rest :
      List (Due F Input Limits S L)).countP Due.seeks = rest.countP Due.seeks + 1 := by
    rw [List.countP_append, Nat.add_comm]
    rfl
  change Alone { s' with connection := .disconnected because }
    ([.emits (.connection (.disconnected because)) none, .schedules] ++ rest)
  refine h.next ?_ (fun hs => hstopped.trans hs) (fun _ item hitem => ?_) (fun item hitem => ?_)
    fun item hitem hfits => (hrest item hitem hfits).like (like_of_ports rfl rfl rfl rfl rfl rfl)
  · rw [hcount]
    exact { hcore with }
  · simp only [List.mem_cons, List.not_mem_nil, or_false] at hitem
    rcases hitem with rfl | rfl
    · rfl
    · rfl
  · simp only [List.mem_cons, List.not_mem_nil, or_false] at hitem
    rcases hitem with rfl | rfl
    · exact .inr trivial
    · trivial

theorem Alone.hears {said : Said Limits S L} (h : Alone s (.hears i said :: rest)) :
    Alone (s.hears i said : _ × List (Due F Input Limits S L)).1 ((s.hears i said).2 ++ rest) := by
  unfold Reconnecting.hears
  split
  · exact h.quiet h.under (like_of_ports rfl rfl rfl rfl rfl rfl)
  next client hclient =>
  split
  · exact h.quiet h.under (like_of_ports rfl rfl rfl rfl rfl rfl)
  next hcurrent =>
  have hcurrent : s.current = some i := not_not.mp hcurrent
  obtain ⟨client', hclient', hhas⟩ := h.fits _ List.mem_cons_self hcurrent
  obtain rfl := Option.some.inj (hclient.symm.trans hclient')
  obtain ⟨hlive, hnone⟩ := h.under.current (by rw [hcurrent]; rfl)
  -- Only what that session is still to say is left, and that is right whatever the client shows.
  have hrest {s' : Reconnecting F Data Limits S L V} (hcurrent : s'.current = none ∨ s'.current = s.current)
      (hports : s'.ports = s.ports) (hbaselines : s'.baselines = s.baselines) :
      ∀ item ∈ rest, s.Fits item → s'.Fits item := by
    intro item hitem hfits
    have hhears := (List.pairwise_cons.mp (h.layered hlive)).1 item hitem rfl
    cases item with
    | hears j said => exact hfits.hears hcurrent hports hbaselines
    | _ => cases hhears
  have hpasses {s' : Reconnecting F Data Limits S L V} {more : List (Due F Input Limits S L)}
      (hcore : Core s' (rest.countP Due.seeks)) (hcurrent : s'.current = none ∨ s'.current = s.current)
      (hports : s'.ports = s.ports) (hbaselines : s'.baselines = s.baselines)
      (hmore : ∀ item ∈ more, item.isHears = false ∧ item.seeks = false ∧ s'.Fits item) :
      Alone s' (more ++ rest) := by
    refine h.next ?_ (fun hs => ?_) (fun _ item hitem => (hmore item hitem).1)
      (fun item hitem => (hmore item hitem).2.2) (hrest hcurrent hports hbaselines)
    · rw [seeking_append fun item hitem => (hmore item hitem).2.1]
      exact hcore
    · rw [hlive] at hs
      cases hs
  have hone {s' : Reconnecting F Data Limits S L V} {said : Said Limits S L} {source : Option Nat}
      (hshown : s'.FromCurrent source said) : ∀ item ∈ [(.emits said source : Due F Input Limits S L)],
      item.isHears = false ∧ item.seeks = false ∧ s'.Fits item := by
    intro item hitem
    rw [List.mem_singleton.mp hitem]
    exact ⟨rfl, rfl, .inr hshown⟩
  cases said with
  | state state =>
      exact hpasses { h.under with } (.inr rfl) rfl rfl
        (hone ⟨i, client, rfl, hcurrent, hclient, hhas, rfl⟩)
  | lines lines =>
      exact hpasses { h.under with } (.inr rfl) rfl rfl
        (hone ⟨i, client, rfl, hcurrent, hclient, hhas, rfl⟩)
  | log line => exact hpasses h.under (.inr rfl) rfl rfl (hone ⟨i, rfl, hcurrent⟩)
  | connection connection =>
      dsimp only
      cases connection with
      | connecting => exact hpasses { h.under with } (.inr rfl) rfl rfl (hone trivial)
      | connected implementation limits =>
          obtain ⟨baseline, hlast, hstate, hlines⟩ := hhas
          refine hpasses { h.under with } (.inr rfl) rfl rfl fun item hitem => ?_
          rcases List.mem_cons.mp hitem with rfl | hitem
          · exact ⟨rfl, rfl, .inr ⟨i, baseline, rfl, hcurrent, hlast, hstate, hlines⟩⟩
          · rw [List.mem_singleton.mp hitem]
            exact ⟨rfl, rfl, trivial⟩
      | incompatible supported message =>
          obtain ⟨hcore, htimers⟩ := h.under.leave hcurrent hclient hhas
          have hseek : rest.countP Due.seeks ≤ 1 := by omega
          change Alone { s with
              stopped := true
              current := none
              connection := .incompatible supported message }
            ([.emits (.connection (.incompatible supported message)) (some i), .rejects, .returns] ++ rest)
          refine hpasses { hcore.mono hseek with
            current := (fun hcurrent => by cases hcurrent)
            stopped := fun _ => htimers } (.inl rfl) rfl rfl fun item hitem => ?_
          simp only [List.mem_cons, List.not_mem_nil, or_false] at hitem
          rcases hitem with rfl | rfl | rfl
          · exact ⟨rfl, rfl, .inr trivial⟩
          · exact ⟨rfl, rfl, rfl⟩
          · exact ⟨rfl, rfl, rfl⟩
      | disconnected because =>
          obtain ⟨hcore, -⟩ := h.under.leave hcurrent hclient hhas
          have hcore : Core { s with current := none } (rest.countP Due.seeks + 1) := by
            have hseek : rest.countP Due.seeks = 0 := by omega
            rw [hseek]
            exact hcore
          exact h.lost hcore rfl (hrest (.inl rfl) rfl rfl) because

theorem Alone.schedule (h : Alone s (.schedules :: rest)) : Alone s.schedule rest := by
  unfold Reconnecting.schedule
  split
  · exact h.quiet h.under (like_of_ports rfl rfl rfl rfl rfl rfl)
  · next hlive =>
      have hcount : (.schedules :: rest : List (Due F Input Limits S L)).countP Due.seeks =
          rest.countP Due.seeks + 1 := List.countP_cons_of_pos rfl
      have hcore := h.core
      rw [hcount] at hcore
      have hpending := hcore.pending
      have htimers : s.timers = [] := List.length_eq_zero_iff.mp (by omega)
      refine h.quiet { h.under with
        current := fun hcurrent => ?_
        pending := ?_
        timer := fun timer htimer => ?_
        stopped := fun hs => absurd hs hlive } (like_of_ports rfl rfl rfl rfl rfl rfl)
      · have hnone := (hcore.current hcurrent).2
        omega
      · dsimp only
        rw [htimers, List.nil_append, List.length_singleton]
        omega
      · rw [htimers, List.nil_append, List.mem_singleton] at htimer
        rw [htimer]

/-- What is done next keeps it, whatever the listener told does. -/
theorem Alone.does (h : Alone s (item :: rest)) (sdk : Sdk Data Input Raw Limits S L V)
    (acts : List (Notified.Act F Input)) :
    Alone (s.does sdk acts item).1 ((s.does sdk acts item).2 ++ rest) := by
  cases item with
  | emits said source =>
      have hfits : s.Fits (.emits said source : Due F Input Limits S L) := h.fits _ List.mem_cons_self
      refine h.leaves h.under (like_of_ports rfl rfl rfl rfl rfl rfl) fun item hitem => ?_
      obtain ⟨listener, -, rfl⟩ := List.mem_map.mp hitem
      exact ⟨rfl, rfl, hfits⟩
  | tells listener said source =>
      refine h.leaves { h.under with } (like_of_ports rfl rfl rfl rfl rfl rfl) fun item hitem => ?_
      obtain ⟨act, -, rfl⟩ := List.mem_map.mp hitem
      exact ⟨rfl, rfl, trivial⟩
  | does act => exact h.act sdk
  | hears session said => exact h.hears
  | sets connection =>
      refine h.leaves { h.under with } (like_of_ports rfl rfl rfl rfl rfl rfl) fun item hitem => ?_
      rw [List.mem_singleton.mp hitem]
      exact ⟨rfl, rfl, .inl (h.fits _ List.mem_cons_self)⟩
  | loses because =>
      have hcount : (.loses because :: rest : List (Due F Input Limits S L)).countP Due.seeks =
          rest.countP Due.seeks + 1 := List.countP_cons_of_pos rfl
      exact h.lost (hcount ▸ h.core) rfl (fun _ _ hfits => hfits) because
  | resolves => exact h.settleWaiting
  | rejects => exact h.settleWaiting
  | schedules => exact h.schedule
  | opens =>
      have hcount : (.opens :: rest : List (Due F Input Limits S L)).countP Due.seeks =
          rest.countP Due.seeks + 1 := List.countP_cons_of_pos rfl
      have hcore := h.core
      rw [hcount] at hcore
      refine h.quiet { hcore with current := fun hcurrent => ?_, pending := ?_ }
        (like_of_ports rfl rfl rfl rfl rfl rfl)
      · have hnone := (hcore.current hcurrent).2
        omega
      · have hpending := hcore.pending
        change s.timers.length + (s.openings + 1) + rest.countP Due.seeks ≤ 1
        omega
  | returns => exact h.quiet { h.under with } (like_of_ports rfl rfl rfl rfl rfl rfl)

/-! ## What happens when nothing is left to do -/

theorem seeking_hears (said : List (Said Limits S L)) :
    (said.map (.hears i) : List (Due F Input Limits S L)).countP Due.seeks = 0 := by
  rw [List.countP_eq_zero]
  intro item hitem
  obtain ⟨said, -, rfl⟩ := List.mem_map.mp hitem
  exact Bool.false_ne_true

/-- What a session says is right when it has said it. -/
theorem Alone.says {may : BaselineOf S L → Prop} {change : Says.Change Data Limits S L V}
    (h : Alone s ([] : List (Due F Input Limits S L))) (hclient : s.session i = some client)
    (htells : Says.Tells may client change)
    (hmay : ∀ baseline, may baseline → s.baselines.getLast? = some (i, baseline)) :
    Alone { s with ports := s.ports.set i (some change.1) }
      (change.2.map (.hears i) : List (Due F Input Limits S L)) := by
  have hended (hover : client.ended = true) : change.1.ended = true := by
    cases htells with
    | quiet _ ended => exact ended.trans hover
    | attached _ live => rw [hover] at live; cases live
    | ends _ _ ended => exact ended
  have hset : session { s with ports := s.ports.set i (some change.1) } i = some change.1 := by
    rw [session_set hclient, if_pos rfl]
  refine ⟨?_, fun _ => ?_, fun item hitem => ?_⟩
  · rw [seeking_hears]
    exact h.core.atSession hclient htells.stands hended
  · refine List.pairwise_of_forall_mem_list fun a _ b hb _ => ?_
    obtain ⟨said, -, rfl⟩ := List.mem_map.mp hb
    rfl
  · obtain ⟨said, hsaid, rfl⟩ := List.mem_map.mp hitem
    refine fun _ => ⟨change.1, hset, ?_⟩
    cases htells with
    | quiet _ _ _ _ only =>
        obtain ⟨hkind, hshows⟩ := only said hsaid
        cases said with
        | connection connection => exact absurd rfl hkind
        | state state => exact hshows
        | lines lines => exact hshows
        | log line => trivial
    | @attached client' stands _ ended baseline given state lines =>
        simp only [List.mem_cons, List.not_mem_nil, or_false] at hsaid
        rcases hsaid with rfl | rfl | rfl
        · unfold Has
          dsimp only
          rw [stands.ended, ended, if_neg Bool.false_ne_true]
          exact ⟨baseline, hmay baseline given, state, lines⟩
        · exact state
        · exact lines
    | @ends client' stands _ ended =>
        rw [List.mem_singleton.mp hsaid]
        unfold Has
        dsimp only
        rw [stands.ended, ended, if_pos rfl]

theorem Alone.atSession {may : BaselineOf S L → Prop}
    {change : Client Data Limits S L V → Says.Change Data Limits S L V}
    (h : Alone s ([] : List (Due F Input Limits S L)))
    (htells : ∀ {client}, s.session i = some client → Says.Tells may client (change client))
    (hmay : ∀ baseline, may baseline → s.baselines.getLast? = some (i, baseline)) :
    Alone (s.atSession i change : _ × List (Due F Input Limits S L)).1
      (s.atSession i change : _ × List (Due F Input Limits S L)).2 := by
  unfold Reconnecting.atSession
  split
  · exact h
  · next client hclient => exact h.says hclient (htells hclient) hmay

theorem Alone.gives (h : Alone s ([] : List (Due F Input Limits S L))) (hopening : s.openings ≠ 0)
    (sdk : Sdk Data Input Raw Limits S L V) :
    Alone (Reconnecting.gives sdk { s with openings := s.openings - 1 })
      ([] : List (Due F Input Limits S L)) := by
  have hpending := h.core.pending
  have hcurrent : s.current = none := by
    cases hcurrent : s.current with
    | none => rfl
    | some i =>
        have hnone := (h.core.current (by rw [hcurrent]; rfl)).2
        omega
  have hover {j : Nat} {client : Client Data Limits S L V} (hclient : s.session j = some client) :
      client.ended = true := by
    cases hended : client.ended with
    | true => rfl
    | false =>
        have hj := h.core.live hclient hended
        rw [hcurrent] at hj
        cases hj
  have hsession (port : Option (Client Data Limits S L V)) (current : Option Nat) (j : Nat) :
      session { s with openings := s.openings - 1, ports := s.ports ++ [port], current := current } j =
        if j = s.ports.length then port else s.session j := session_append port j
  unfold Reconnecting.gives
  split
  · refine ⟨{ h.core with
      stands := fun {j client} hclient => ?_
      live := fun {j client} hclient hlive => ?_
      current := fun hsome => ?_
      pending := ?_ }, fun _ => List.Pairwise.nil, fun _ hitem => by cases hitem⟩
    · have hclient := (hsession none s.current j).symm.trans hclient
      split at hclient
      · cases hclient
      · exact h.core.stands hclient
    · have hclient := (hsession none s.current j).symm.trans hclient
      split at hclient
      · cases hclient
      · rw [hover hclient] at hlive
        cases hlive
    · change s.current.isSome = true at hsome
      rw [hcurrent] at hsome
      cases hsome
    · change s.timers.length + (s.openings - 1) + 0 ≤ 1
      change s.timers.length + s.openings + 0 ≤ 1 at hpending
      omega
  · next hlive =>
      refine ⟨{ h.core with
        stands := fun {j client} hclient => ?_
        live := fun {j client} hclient hlive => ?_
        current := fun _ => ⟨Bool.eq_false_iff.mpr hlive, ?_⟩
        pending := ?_ }, fun _ => List.Pairwise.nil, fun _ hitem => by cases hitem⟩
      · have hclient := (hsession _ (some s.ports.length) j).symm.trans hclient
        split at hclient
        · rw [← Option.some.inj hclient]
          exact Says.stands_opened
        · exact h.core.stands hclient
      · have hclient := (hsession _ (some s.ports.length) j).symm.trans hclient
        split at hclient
        · next hj => rw [hj]
        · rw [hover hclient] at hlive
          cases hlive
      · change s.timers.length + (s.openings - 1) + 0 = 0
        change s.timers.length + s.openings + 0 ≤ 1 at hpending
        omega
      · change s.timers.length + (s.openings - 1) + 0 ≤ 1
        change s.timers.length + s.openings + 0 ≤ 1 at hpending
        omega

/-- An event keeps it. -/
theorem Alone.takes (h : Alone s ([] : List (Due F Input Limits S L)))
    (sdk : Sdk Data Input Raw Limits S L V) (event : Event F Data Input) :
    Alone (s.takes sdk event).1 (s.takes sdk event).2 := by
  have hpending := h.core.pending
  cases event with
  | opened =>
      unfold Reconnecting.takes
      dsimp only
      split
      · exact h
      · next hopening => exact h.gives hopening sdk
  | refuses =>
      unfold Reconnecting.takes
      dsimp only
      split
      · exact h
      · next hopening =>
          refine ⟨{ h.core with current := fun hcurrent => ?_, pending := ?_ },
            fun _ => List.pairwise_singleton _ _, fun item hitem => ?_⟩
          · have hnone := (h.core.current hcurrent).2
            omega
          · change s.timers.length + (s.openings - 1) + 1 ≤ 1
            change s.timers.length + s.openings + 0 ≤ 1 at hpending
            omega
          · rw [List.mem_singleton.mp hitem]
            trivial
  | fires timer =>
      unfold Reconnecting.takes
      dsimp only
      split
      · exact h
      · next htimer =>
          have htimer : timer ∈ s.timers := not_not.mp htimer
          have hlength := List.length_erase_of_mem htimer
          have hpos := List.length_pos_of_mem htimer
          change Alone { s with timers := s.timers.erase timer, connection := .connecting }
            [.emits (.connection .connecting) none, .opens]
          change s.timers.length + s.openings + 0 ≤ 1 at hpending
          refine ⟨{ h.core with
            current := fun hcurrent => ?_
            pending := ?_
            timer := fun timer htimer => h.core.timer timer (List.mem_of_mem_erase htimer)
            stopped := fun hs => ?_ }, fun _ => ?_, fun item hitem => ?_⟩
          · have hnone := (h.core.current hcurrent).2
            omega
          · change (s.timers.erase timer).length + s.openings + 1 ≤ 1
            omega
          · change s.timers.erase timer = []
            rw [h.core.stopped hs]
            rfl
          · exact List.pairwise_pair.mpr fun hhears => by cases hhears
          · simp only [List.mem_cons, List.not_mem_nil, or_false] at hitem
            rcases hitem with rfl | rfl
            · exact .inr trivial
            · trivial
  | receives port data =>
      have hbase : Alone { s with baselines := s.baselines ++
          (((s.session port).bind fun client => Says.baselineOf sdk client data).map
            fun baseline => (port, baseline)).toList } ([] : List (Due F Input Limits S L)) :=
        ⟨{ h.core with }, h.layered, fun _ hitem => by cases hitem⟩
      have htells {client : Client Data Limits S L V} (hclient : s.session port = some client) :
          Says.Tells (fun baseline =>
            ((s.session port).bind fun client => Says.baselineOf sdk client data) = some baseline)
            client (Says.receive sdk client data) := by
        rw [hclient]
        exact Says.tells_receive (h.core.stands hclient)
      refine hbase.atSession htells fun baseline hbaseline => ?_
      dsimp only
      rw [hbaseline]
      exact List.getLast?_concat
  | portCloses port =>
      exact h.atSession (fun hclient => Says.tells_portCloses (h.core.stands hclient)) fun _ hno => hno.elim
  | sendFails port =>
      exact h.atSession (fun hclient => Says.tells_sendFails (h.core.stands hclient)) fun _ hno => hno.elim
  | acts act =>
      have hacts := (h.before act).act sdk
      rw [List.append_nil] at hacts
      exact hacts

end Reconnecting

end Estoc.Daemon
