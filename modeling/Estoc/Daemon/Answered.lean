import Estoc.Daemon.Serving
import Estoc.Lib.Outbox

/-!
# Every call served is answered once

The queue of a session served is an outbox: what waits is handed over from its front, logs may be
dropped, a state or lines give their place to a newer one of their epoch, and a result that cannot be
written is answered as a failure where it stood. Nothing else is done to it, but where the session
is closed or a publication of it cannot be written.

So each call read is either in the hands of its handler or has its one reply, handed over or waiting,
as long as the session is neither closed nor ending; and no call ever has two.
-/

set_option linter.unusedSectionVars false

namespace Estoc.Daemon.Serving

open Json (lit)
open Utf16 (JsString)
open Estoc.Wire (Raw readValue)
open Outbox (Box Steps Step tally)

/-! ## What is written -/

theorem writes_rawOf (error : ApiError) : (readValue none [] (rawOf error)).isOk = true := by
  obtain ⟨code, message, effect, messageId⟩ := error
  cases messageId with
  | none => rfl
  | some messageId => rfl

/-- The entries a session makes. -/
inductive Made : Entry → Prop
  | welcome : Made .welcome
  | incompatible : Made .incompatible
  | event (event : Event) : Made (.event event)
  | result (id : Nat) (value : Raw) (bytesAt : List JsString) (publication : Bool) :
      Made (.result id value bytesAt publication)
  | error (id : Nat) (error : ApiError) : Made (.error id error)
  | unwritten (id : Nat) : Made (.unwritten id)
  | fault (error : ApiError) : Made (.fault error)

namespace Made

variable {e : Entry}

theorem terminal (h : Made e) : e.terminal = e.write.isLast := by
  cases h <;> rfl

/-- Only what a host publishes, and results, may fail to be written. -/
theorem unwritable (h : Made e) (hwrites : e.write.writes = false) (hpublication : e.publication = false) :
    ∃ id value bytesAt, e = .result id value bytesAt false := by
  have hno (error : ApiError) (h : (readValue none [] (rawOf error)).isOk = false) : False := by
    rw [writes_rawOf] at h
    cases h
  cases h with
  | welcome => cases hwrites
  | incompatible => cases hwrites
  | event event => cases hpublication
  | result id value bytesAt publication =>
      obtain rfl : publication = false := hpublication
      exact ⟨id, value, bytesAt, rfl⟩
  | error id error => exact (hno error hwrites).elim
  | unwritten id => exact (hno unexpected hwrites).elim
  | fault error => exact (hno error hwrites).elim

theorem replaces {name : EventName} {epoch : JsString} (h : Made e)
    (hreplaces : e.replaces = some (name, epoch)) :
    ∃ value, name ≠ .log ∧ e = .event ⟨name, epoch, value⟩ := by
  cases h with
  | event event =>
      obtain ⟨name', epoch', value⟩ := event
      by_cases hlog : name' = .log
      · have hnone : (if name' = .log then none else some (name', epoch')) = some (name, epoch) := hreplaces
        rw [if_pos hlog] at hnone
        cases hnone
      · have hsome : (if name' = .log then none else some (name', epoch')) = some (name, epoch) := hreplaces
        rw [if_neg hlog] at hsome
        cases hsome
        exact ⟨value, hlog, rfl⟩
  | _ => cases hreplaces

end Made

/-- Is it a log event? -/
def isLog (e : Entry) : Bool :=
  match e.write with
  | .event event => event.name = .log
  | _ => false

theorem Made.droppable {e : Entry} (h : Made e) : e.droppable = isLog e := by
  cases h <;> rfl

/-- What is done to the queue of a session served. -/
def rules : Outbox.Rules Entry where
  fits e := e.write.writes = true
  droppable := isLog
  supersedes e old := ∃ name epoch value value', name ≠ .log ∧
    e = .event ⟨name, epoch, value⟩ ∧ old = .event ⟨name, epoch, value'⟩
  amends e old := ∃ id value bytesAt, old = .result id value bytesAt false ∧
    old.write.writes = false ∧ e = .unwritten id

theorem fits {e : Entry} (h : e.write.writes = true) : rules.fits e := h

/-- The call an entry replies to. -/
def replies (e : Entry) : Option Nat := e.write.replies

theorem rules_answers : rules.Answers replies where
  dropped {e} h := by
    change isLog e = true at h
    unfold isLog at h
    unfold replies Out.replies
    split at h
    · next event heq => rw [heq]
    · cases h
  superseded := by
    rintro e old ⟨name, epoch, value, value', -, rfl, rfl⟩
    exact ⟨rfl, rfl⟩
  amended := by
    rintro e old ⟨id, value, bytesAt, rfl, -, rfl⟩
    rfl

namespace Session

variable {Data : Type} {options : Options Data} {s s' s'' : Session} {entries more : List Entry}
  {entry : Entry} {queue : List Entry}

def box (s : Session) : Box Entry := ⟨s.queue, s.handed⟩

/-- Closed, or about to be. -/
def isOver (s : Session) : Bool := s.closed || s.ending

/-- A publication that waited could not be written, and what waited was let go. -/
def Cut (put : List Entry) (s s' : Session) : Prop :=
  s'.ending = true ∧ ∃ e ∈ s.queue ++ put, e.publication = true ∧ e.write.writes = false

/-! ## The queue -/

/-- What holds of a queue and of what was handed over, whatever is done next. -/
structure Sane (s : Session) : Prop where
  made : ∀ e ∈ s.queue ++ s.handed, Made e
  taking : ∀ {e}, s.writing = some e → e ∈ s.handed
  last : ∀ {front e back}, s.handed = front ++ e :: back → e.write.isLast = true →
    back = [] ∧ (s.closed = true ∨ s.writing = some e)
  one : s.closed = false → s.handed.length = s.taken + if s.writing.isSome then 1 else 0
  fits : ∀ e ∈ s.handed, e.write.writes = true

/-- A session that is ending has something to end with. -/
def Ends (s : Session) : Prop := s.ending = true → s.closed = false →
  ∃ e, e.write.isLast = true ∧ (e ∈ s.queue ∨ s.writing = some e)

/-- What waits, waits for the port, and what is owed is within the limit. -/
structure Pumped (options : Options Data) (s : Session) : Prop extends Sane s where
  ends : Ends s
  free : s.closed = false → s.writing = none → s.queue = []
  bound : s.isOver = false → (s.queue.filter fun e => !e.droppable).length ≤ limit options

/-- What some of a session's doings put in the queue, and what is done to it. -/
structure Moves (entries : List Entry) (s s' : Session) : Prop where
  steps : ∃ put, Steps rules (s'.closed = true ∨ Cut put s s') put s.box s'.box ∧
    (∀ id, tally replies id put ≤ tally replies id entries) ∧ (s'.isOver = false → put = entries)
  closed : s.closed = true → s'.closed = true
  ending : s.ending = true → s'.ending = true

/-- Doings that leave the calls as they were. -/
structure Goes (entries : List Entry) (s s' : Session) : Prop extends Moves entries s s' where
  calls : s'.calls = s.calls
  inFlight : s'.inFlight = s.inFlight
  running : s'.running = s.running

theorem over_eq_false : s.isOver = false ↔ s.closed = false ∧ s.ending = false := Bool.or_eq_false_iff

theorem Moves.refl : Moves [] s s where
  steps := ⟨[], .refl _, fun _ => Nat.le_refl _, fun _ => rfl⟩
  closed h := h
  ending h := h

theorem Moves.over (h : Moves entries s s') (hover : s'.isOver = false) : s.isOver = false := by
  obtain ⟨hclosed, hending⟩ := over_eq_false.mp hover
  refine over_eq_false.mpr ⟨?_, ?_⟩
  · exact Bool.eq_false_iff.mpr fun hc => absurd (h.closed hc) (by rw [hclosed]; exact Bool.false_ne_true)
  · exact Bool.eq_false_iff.mpr fun he => absurd (h.ending he) (by rw [hending]; exact Bool.false_ne_true)

theorem Moves.trans (h : Moves entries s s') (h' : Moves more s' s'') : Moves (entries ++ more) s s'' := by
  obtain ⟨put, hsteps, htally, heq⟩ := h.steps
  obtain ⟨put', hsteps', htally', heq'⟩ := h'.steps
  refine ⟨⟨put ++ put', ?_, ?_, ?_⟩, fun hc => h'.closed (h.closed hc), fun he => h'.ending (h.ending he)⟩
  · refine (hsteps.mono ?_).trans (hsteps'.mono ?_)
    · rintro (hclosed | ⟨hending, e, he, hcut⟩)
      · exact .inl (h'.closed hclosed)
      · refine .inr ⟨h'.ending hending, e, ?_, hcut⟩
        rw [← List.append_assoc]
        exact List.mem_append_left _ he
    · rintro (hclosed | ⟨hending, e, he, hpublication, hwrites⟩)
      · exact .inl hclosed
      · refine .inr ⟨hending, e, ?_, hpublication, hwrites⟩
        rcases List.mem_append.mp he with he | he
        · rcases hsteps.origin he with hin | hput | ⟨old, id, value, bytesAt, -, -, rfl⟩
          · exact List.mem_append_left _ hin
          · exact List.mem_append_right _ (List.mem_append_left _ hput)
          · cases hpublication
        · exact List.mem_append_right _ (List.mem_append_right _ he)
  · intro id
    rw [Outbox.tally_append, Outbox.tally_append]
    exact Nat.add_le_add (htally id) (htally' id)
  · intro hover
    rw [heq (h'.over hover), heq' hover]

theorem Goes.refl : Goes [] s s := ⟨.refl, rfl, rfl, rfl⟩

theorem Goes.trans (h : Goes entries s s') (h' : Goes more s' s'') : Goes (entries ++ more) s s'' :=
  ⟨h.toMoves.trans h'.toMoves, h'.calls.trans h.calls, h'.inFlight.trans h.inFlight,
    h'.running.trans h.running⟩

theorem sane_finish (h : Sane s) : Sane s.finish := by
  unfold finish
  split
  · exact h
  · refine ⟨fun e he => h.made e (List.mem_append_right _ he), h.taking, fun hhanded hlast => ?_,
      fun hopen => (nomatch hopen), h.fits⟩
    exact ⟨(h.last hhanded hlast).1, .inl rfl⟩

theorem closed_finish : s.finish.closed = true := by
  unfold finish
  split
  · next hclosed => exact hclosed
  · rfl

theorem goes_finish : Goes [] s s.finish := by
  unfold finish
  split
  · exact .refl
  · exact ⟨⟨⟨[], (Step.clear (.inl rfl)).single, fun _ => Nat.le_refl _, fun hover => (nomatch hover)⟩,
      fun _ => rfl, fun he => he⟩, rfl, rfl, rfl⟩

theorem Pumped.of_closed (h : Sane s) (hclosed : s.closed = true) : Pumped options s := by
  refine ⟨h, fun _ hopen => ?_, fun hopen => ?_, fun hover => ?_⟩
  · rw [hclosed] at hopen
    cases hopen
  · rw [hclosed] at hopen
    cases hopen
  · rw [(over_eq_false.mp hover).1] at hclosed
    cases hclosed

theorem pumped_finish (h : Sane s) : Pumped options s.finish := .of_closed (sane_finish h) closed_finish

/-- An entry taken off the front is handed over, when the port is free. -/
theorem sane_send (h : Sane s) (hopen : s.closed = false) (hfree : s.writing = none) (hmade : Made entry)
    (hwrites : entry.write.writes = true) : Sane (s.send entry) := by
  refine ⟨fun e he => ?_, fun htaking => ?_, fun {front e back} hhanded hlast => ?_, fun _ => ?_,
    fun e he => ?_⟩
  · change e ∈ s.queue ++ (s.handed ++ [entry]) at he
    rw [← List.append_assoc] at he
    rcases List.mem_append.mp he with he | he
    · exact h.made e he
    · rw [List.mem_singleton.mp he]
      exact hmade
  · cases htaking
    exact List.mem_append_right _ (List.mem_singleton_self _)
  · change s.handed ++ [entry] = front ++ e :: back at hhanded
    rcases List.eq_nil_or_concat back with rfl | ⟨more, final, rfl⟩
    · obtain ⟨-, heq⟩ := List.append_inj' hhanded rfl
      cases heq
      exact ⟨rfl, .inr rfl⟩
    · rw [List.concat_eq_append, ← List.cons_append, ← List.append_assoc] at hhanded
      obtain ⟨hfront, -⟩ := List.append_inj' hhanded rfl
      obtain ⟨-, hclosed | hwriting⟩ := h.last hfront hlast
      · rw [hopen] at hclosed
        cases hclosed
      · rw [hfree] at hwriting
        cases hwriting
  · have hone := h.one hopen
    rw [hfree] at hone
    change (s.handed ++ [entry]).length = s.taken + 1
    rw [List.length_append, hone]
    rfl
  · rcases List.mem_append.mp he with he | he
    · exact h.fits e he
    · rw [List.mem_singleton.mp he]
      exact hwrites

/-- Sane whatever waits, of what was made. -/
theorem Sane.requeue (h : Sane s) (hmade : ∀ e ∈ queue, Made e) : Sane { s with queue := queue } := by
  refine ⟨fun e he => ?_, h.taking, h.last, h.one, h.fits⟩
  rcases List.mem_append.mp he with he | he
  · exact hmade e he
  · exact h.made e (List.mem_append_right _ he)

theorem Sane.end (h : Sane s) : Sane { s with ending := true } :=
  ⟨h.made, h.taking, h.last, h.one, h.fits⟩

/-- A pump makes the most of a free port: what waits afterwards waits for it. -/
structure Pumps (s s' : Session) : Prop where
  sane : Sane s'
  ends : Ends s'
  free : s'.closed = false → s'.writing = none → s'.queue = []
  goes : Goes [] s s'
  rest : s'.isOver = false → s'.queue <:+ s.queue

/-- An entry that cannot be written ends the session or is answered as a failure. -/
theorem pumps_unwritable {next : Entry} (h : Sane s) (hopen : s.closed = false) (hfree : s.writing = none)
    (hends : Ends { s with queue := next :: queue }) (hqueue : s.queue = next :: queue)
    (hwrites : next.write.writes = false) : Pumps s (unwritable { s with queue := queue } next) := by
  have hmade : ∀ e ∈ next :: queue, Made e := fun e he => h.made e (List.mem_append_left _ (hqueue ▸ he))
  have hbox : s.box = ⟨next :: queue, s.handed⟩ := by rw [box, hqueue]
  unfold unwritable
  split
  · next hpublication =>
      have hfault : (Entry.fault unpublishable).write.writes = true := writes_rawOf unpublishable
      rw [sendOrClose, if_pos hfault]
      have hcut : Cut [.fault unpublishable] s
          (send { s with queue := [], ending := true } (.fault unpublishable)) := by
        refine ⟨rfl, next, ?_, hpublication, hwrites⟩
        rw [hqueue]
        exact List.mem_append_left _ (List.mem_cons_self ..)
      refine ⟨?_, ?_, ?_, ⟨⟨⟨[.fault unpublishable], ?_, ?_, ?_⟩, ?_, ?_⟩, rfl, rfl, rfl⟩, ?_⟩
      · have hnone : ∀ e ∈ ([] : List Entry), Made e := fun e he => nomatch he
        exact sane_send (h.requeue hnone).end hopen hfree (.fault _) hfault
      · exact fun _ _ => ⟨_, rfl, .inr rfl⟩
      · exact fun _ hwriting => (nomatch hwriting)
      · rw [hbox]
        exact .step (.clear (.inr hcut))
          (.step (.put (Entry.fault unpublishable)) (.step (.hand (fits hfault)) (.refl _)))
      · exact fun id => Nat.le_of_eq rfl
      · exact fun hover => Bool.noConfusion (over_eq_false.mp hover).2
      · exact fun hclosed => hclosed
      · exact fun _ => rfl
      · exact fun hover => Bool.noConfusion (over_eq_false.mp hover).2
  · next hpublication =>
      obtain ⟨id, value, bytesAt, rfl⟩ := (hmade next (List.mem_cons_self ..)).unwritable hwrites
        (Bool.eq_false_iff.mpr hpublication)
      have hamended : (Entry.unwritten id).write.writes = true := writes_rawOf unexpected
      change Pumps s (sendOrClose { s with queue := queue } (.unwritten id))
      rw [sendOrClose, if_pos hamended]
      refine ⟨?_, fun hending hclosed => ?_, ?_,
        ⟨⟨⟨[], ?_, ?_, fun _ => rfl⟩, ?_, ?_⟩, rfl, rfl, rfl⟩, ?_⟩
      · exact sane_send (h.requeue fun e he => hmade e (List.mem_cons_of_mem _ he)) hopen hfree
          (.unwritten id) hamended
      · obtain ⟨e, hlast, hin | hwriting⟩ := hends hending hclosed
        · rcases List.mem_cons.mp hin with rfl | hin
          · cases hlast
          · exact ⟨e, hlast, .inl hin⟩
        · rw [hfree] at hwriting
          cases hwriting
      · exact fun _ hwriting => (nomatch hwriting)
      · rw [hbox]
        have hamends : rules.amends (.unwritten id) (.result id value bytesAt false) :=
          ⟨id, value, bytesAt, rfl, hwrites, rfl⟩
        exact .step (.amend hamends) (.step (.hand (fits hamended)) (.refl _))
      · exact fun id => Nat.le_refl _
      · exact fun hclosed => hclosed
      · exact fun hending => hending
      · rw [hqueue]
        exact fun _ => List.suffix_cons _ _

theorem pumps_pump (h : Sane s) (hends : Ends s) : Pumps s s.pump := by
  unfold pump
  split
  · next hbusy =>
      refine ⟨h, hends, fun hopen hwriting => ?_, .refl, fun _ => List.suffix_rfl⟩
      rw [hopen, hwriting] at hbusy
      cases hbusy
  · next hbusy =>
      obtain ⟨hfree, hopen⟩ := Bool.or_eq_false_iff.mp (Bool.eq_false_iff.mpr hbusy)
      have hfree : s.writing = none := Option.not_isSome_iff_eq_none.mp (Bool.eq_false_iff.mp hfree)
      split
      · next hnil => exact ⟨h, hends, fun _ _ => hnil, .refl, fun _ => List.suffix_rfl⟩
      · next next queue hqueue =>
          dsimp only
          split
          · next hwrites =>
              have hmade : ∀ e ∈ next :: queue, Made e :=
                fun e he => h.made e (List.mem_append_left _ (hqueue ▸ he))
              refine ⟨?_, fun hending hclosed => ?_, ?_,
                ⟨⟨⟨[], ?_, ?_, fun _ => rfl⟩, ?_, ?_⟩, rfl, rfl, rfl⟩, ?_⟩
              · exact sane_send (h.requeue fun e he => hmade e (List.mem_cons_of_mem _ he)) hopen hfree
                  (hmade next (List.mem_cons_self ..)) hwrites
              · obtain ⟨e, hlast, hin | hwriting⟩ := hends hending hclosed
                · rw [hqueue] at hin
                  rcases List.mem_cons.mp hin with rfl | hin
                  · exact ⟨_, hlast, .inr rfl⟩
                  · exact ⟨e, hlast, .inl hin⟩
                · rw [hfree] at hwriting
                  cases hwriting
              · exact fun _ hwriting => (nomatch hwriting)
              · rw [box, hqueue]
                exact (Step.hand hwrites).single
              · exact fun id => Nat.le_refl _
              · exact fun hclosed => hclosed
              · exact fun hending => hending
              · rw [hqueue]
                exact fun _ => List.suffix_cons _ _
          · next hwrites =>
              refine pumps_unwritable h hopen hfree ?_ hqueue (Bool.eq_false_iff.mpr hwrites)
              rw [← hqueue]
              exact hends

/-! ## What is queued -/

theorem Pumps.pumped (h : Pumps s s')
    (hbound : (s.queue.filter fun e => !e.droppable).length ≤ limit options) : Pumped options s' := by
  refine ⟨h.sane, h.ends, h.free, fun hover => ?_⟩
  exact ((h.rest hover).sublist.filter _).length_le.trans hbound

/-- An entry takes the place of an older event of its kind and epoch, or the last place. -/
theorem step_place {isOver : Prop} {handed : List Entry} (hmade : Made entry) (hqueue : ∀ e ∈ queue, Made e) :
    Step rules isOver [entry] ⟨queue, handed⟩ ⟨place entry queue, handed⟩ := by
  have hplace : place entry queue = queue ++ [entry] ∨
      ∃ front old back, queue = front ++ old :: back ∧ place entry queue = front ++ entry :: back ∧
        entry.replaces.isSome ∧ old.replaces = entry.replaces := by
    clear hqueue
    induction queue with
    | nil => exact .inl rfl
    | cons queued queue ih =>
        unfold place
        split
        · next hold => exact .inr ⟨[], queued, queue, rfl, rfl, hold⟩
        · rcases ih with ih | ⟨front, old, back, rfl, ih, hold⟩
          · exact .inl (by rw [ih, List.cons_append])
          · exact .inr ⟨queued :: front, old, back, rfl, by rw [ih, List.cons_append], hold⟩
  rcases hplace with heq | ⟨front, old, back, hfront, heq, hsome, hold⟩
  · rw [heq]
    exact .put entry
  · obtain ⟨⟨name, epoch⟩, hreplaces⟩ := Option.isSome_iff_exists.mp hsome
    rw [hreplaces] at hold
    obtain ⟨value, hname, rfl⟩ := hmade.replaces hreplaces
    have hin : old ∈ queue := hfront ▸ List.mem_append_right _ (List.mem_cons_self ..)
    obtain ⟨value', -, rfl⟩ := (hqueue old hin).replaces hold
    rw [heq, hfront]
    exact .supersede ⟨name, epoch, value, value', hname, rfl, rfl⟩

theorem made_place (hmade : Made entry) (hqueue : ∀ e ∈ queue, Made e) : ∀ e ∈ place entry queue, Made e := by
  intro e he
  have hsteps : Steps rules False [entry] ⟨queue, []⟩ ⟨place entry queue, []⟩ :=
    (step_place hmade hqueue).single
  rcases hsteps.origin he with hin | hin | ⟨old, id, -, -, -, -, rfl⟩
  · exact hqueue e hin
  · rw [List.mem_singleton.mp hin]
    exact hmade
  · exact .unwritten id

/-- What an entry put in the queue of a session comes to. -/
structure Puts (options : Options Data) (entries : List Entry) (s s' : Session) : Prop where
  pumped : Pumped options s'
  goes : Goes entries s s'

theorem puts_enqueue (h : Pumped options s) (hmade : Made entry) :
    Puts options [entry] s (s.enqueue options entry) := by
  unfold enqueue
  split
  · next hover =>
      have hmoves : Moves [entry] s s :=
        ⟨⟨[], .refl _, fun _ => Nat.zero_le _, fun hnot => Bool.noConfusion (hover.symm.trans hnot)⟩,
          fun hc => hc, fun he => he⟩
      exact ⟨h, hmoves, rfl, rfl, rfl⟩
  · next hover =>
      obtain ⟨hopen, hgoing⟩ := over_eq_false.mp (Bool.eq_false_iff.mpr hover)
      have hqueue : ∀ e ∈ s.queue, Made e := fun e he => h.made e (List.mem_append_left _ he)
      have hplaced := made_place hmade hqueue
      have hends {queue : List Entry} : Ends { s with queue := queue } := by
        intro hending
        exact Bool.noConfusion (hgoing.symm.trans hending)
      have hgoes {queue : List Entry}
          (hsteps : Steps rules False [entry] s.box ⟨queue, s.handed⟩) :
          Goes [entry] s { s with queue := queue } :=
        ⟨⟨⟨[entry], hsteps.mono False.elim, fun _ => Nat.le_refl _, fun _ => rfl⟩,
          fun hc => hc, fun he => he⟩, rfl, rfl, rfl⟩
      have hpump {queue : List Entry} (hqueue : ∀ e ∈ queue, Made e)
          (hsteps : Steps rules False [entry] s.box ⟨queue, s.handed⟩)
          (hbound : (queue.filter fun e => !e.droppable).length ≤ limit options) :
          Puts options [entry] s (pump { s with queue := queue }) := by
        have hpumps := pumps_pump (h.requeue hqueue) hends
        exact ⟨hpumps.pumped hbound, (hgoes hsteps).trans hpumps.goes⟩
      have hstep : Steps rules False [entry] s.box ⟨place entry s.queue, s.handed⟩ :=
        (step_place hmade hqueue).single
      dsimp only
      split
      · have hfilter : ((place entry s.queue).filter fun e => !e.droppable) =
            (place entry s.queue).filter fun e => !rules.droppable e :=
          List.filter_congr fun e he => by rw [(hplaced e he).droppable]; rfl
        split
        · exact ⟨pumped_finish (h.requeue hplaced), (hgoes hstep).trans goes_finish⟩
        · next hlimit =>
            refine hpump (fun e he => hplaced e (List.mem_filter.mp he).1) ?_ ?_
            · rw [hfilter]
              exact hstep.trans Step.drop.single
            · rw [List.filter_filter]
              simp only [Bool.and_self]
              exact Nat.not_lt.mp hlimit
      · next hlimit =>
          exact hpump hplaced hstep ((List.length_filter_le _ _).trans (Nat.not_lt.mp hlimit))

theorem puts_endWith (h : Pumped options s) (hmade : Made entry) (hlast : entry.write.isLast = true) :
    Puts options [entry] s (s.endWith entry) := by
  have hqueue : ∀ e ∈ s.queue ++ [entry], Made e := by
    intro e he
    rcases List.mem_append.mp he with he | he
    · exact h.made e (List.mem_append_left _ he)
    · rw [List.mem_singleton.mp he]
      exact hmade
  have hends : Ends { s with ending := true, queue := s.queue ++ [entry] } := fun _ _ =>
    ⟨entry, hlast, .inl (List.mem_append_right _ (List.mem_singleton_self _))⟩
  have hpumps := pumps_pump (h.requeue hqueue).end hends
  have hgoes : Goes [entry] s { s with ending := true, queue := s.queue ++ [entry] } :=
    ⟨⟨⟨[entry], (Step.put entry).single, fun _ => Nat.le_refl _, fun _ => rfl⟩, fun hc => hc, fun _ => rfl⟩,
      rfl, rfl, rfl⟩
  refine ⟨⟨hpumps.sane, hpumps.ends, hpumps.free, fun hover => ?_⟩, hgoes.trans hpumps.goes⟩
  have hending := hpumps.goes.ending rfl
  exact Bool.noConfusion ((over_eq_false.mp hover).2.symm.trans hending)

/-- Entries that answer no call. -/
def Mute (entries : List Entry) : Prop := ∀ id, tally replies id entries = 0

theorem mute_nil : Mute [] := fun _ => rfl

theorem Mute.append (h : Mute entries) (h' : Mute more) : Mute (entries ++ more) := fun id => by
  rw [Outbox.tally_append, h id, h' id]

theorem mute_singleton (h : replies entry = none) : Mute [entry] :=
  Outbox.tally_singleton_of_none h

/-- What a host does, or a port that closes, answers no call. -/
theorem puts_fault {error : ApiError} (h : Pumped options s) :
    ∃ entries, Mute entries ∧ Puts options entries s (s.fault error) := by
  unfold fault
  split
  · exact ⟨[], mute_nil, h, .refl⟩
  · exact ⟨_, mute_singleton rfl, puts_endWith h (.fault error) rfl⟩

theorem puts_close (h : Pumped options s) : Puts options [] s s.close :=
  ⟨pumped_finish h.toSane, goes_finish⟩

theorem puts_act (act : Act) (h : Pumped options s) :
    ∃ entries, Mute entries ∧ Puts options entries s (s.act options act) := by
  cases act with
  | event event =>
      change ∃ entries, Mute entries ∧ Puts options entries s (s.event options event)
      unfold Session.event
      split
      · exact ⟨_, mute_singleton rfl, puts_enqueue h (.event event)⟩
      · exact ⟨[], mute_nil, h, .refl⟩
  | fault error => exact puts_fault h
  | close => exact ⟨[], mute_nil, puts_close h⟩

theorem puts_acts (h : Pumped options s) (acts : List Act) :
    ∃ entries, Mute entries ∧ Puts options entries s (acts.foldl (Session.act options) s) := by
  induction acts generalizing s with
  | nil => exact ⟨[], mute_nil, h, .refl⟩
  | cons act acts ih =>
      obtain ⟨entries, hmute, hpumped, hgoes⟩ := puts_act act h
      obtain ⟨more, hmore, hpumped', hgoes'⟩ := ih hpumped
      exact ⟨entries ++ more, hmute.append hmore, hpumped', hgoes.trans hgoes'⟩

/-! ## The calls -/

/-- The accounts of the calls read. Those `owed` are with neither their handler nor the queue. -/
structure Accounts (s : Session) (owed : List Nat) : Prop where
  flying : s.inFlight.Perm (owed ++ s.running.map Prod.fst)
  nodup : s.inFlight.Nodup
  atMost : ∀ id, s.box.tally replies id + s.inFlight.count id ≤ s.calls.count id
  exact : s.isOver = false → ∀ id, s.box.tally replies id + s.inFlight.count id = s.calls.count id

theorem Moves.tally (h : Moves entries s s') (id : Nat) :
    s'.box.tally replies id ≤ s.box.tally replies id + tally replies id entries ∧
      (s'.isOver = false → s'.box.tally replies id = s.box.tally replies id + tally replies id entries) := by
  obtain ⟨put, hsteps, htally, heq⟩ := h.steps
  obtain ⟨hle, hexact⟩ := hsteps.tally rules_answers id
  refine ⟨hle.trans (Nat.add_le_add_left (htally id) _), fun hover => ?_⟩
  rw [← heq hover]
  refine hexact ?_
  obtain ⟨hclosed, hending⟩ := over_eq_false.mp hover
  rintro (hc | ⟨he, -⟩)
  · exact Bool.noConfusion (hclosed.symm.trans hc)
  · exact Bool.noConfusion (hending.symm.trans he)

theorem Accounts.goes {owed : List Nat} (h : Accounts s owed) (hgoes : Goes entries s s')
    (hmute : Mute entries) : Accounts s' owed := by
  refine ⟨?_, hgoes.inFlight ▸ h.nodup, fun id => ?_, fun hover id => ?_⟩
  · rw [hgoes.inFlight, hgoes.running]
    exact h.flying
  · have hle := (hgoes.tally id).1
    rw [hmute id] at hle
    rw [hgoes.inFlight, hgoes.calls]
    exact (Nat.add_le_add_right hle _).trans (h.atMost id)
  · have heq := (hgoes.tally id).2 hover
    rw [hmute id] at heq
    rw [hgoes.inFlight, hgoes.calls, heq]
    exact h.exact (hgoes.over hover) id

theorem Pumped.congr (h : Pumped options s) (hbox : s'.box = s.box) (hwriting : s'.writing = s.writing)
    (hclosed : s'.closed = s.closed) (hending : s'.ending = s.ending) (htaken : s'.taken = s.taken) :
    Pumped options s' := by
  obtain ⟨hqueue, hhanded⟩ : s'.queue = s.queue ∧ s'.handed = s.handed := Box.mk.inj hbox
  have hover : s'.isOver = s.isOver := by rw [isOver, isOver, hclosed, hending]
  refine ⟨⟨?_, ?_, ?_, ?_, ?_⟩, ?_, ?_, ?_⟩
  · rw [hqueue, hhanded]
    exact h.made
  · rw [hwriting, hhanded]
    exact h.taking
  · rw [hwriting, hhanded, hclosed]
    exact h.last
  · rw [hwriting, hhanded, hclosed, htaken]
    exact h.one
  · rw [hhanded]
    exact h.fits
  · rw [Ends, hqueue, hwriting, hclosed, hending]
    exact h.ends
  · rw [hqueue, hwriting, hclosed]
    exact h.free
  · rw [hqueue, hover]
    exact h.bound

theorem Moves.congr_left {t : Session} (h : Moves entries t s') (hbox : t.box = s.box)
    (hclosed : t.closed = s.closed) (hending : t.ending = s.ending) : Moves entries s s' := by
  obtain ⟨put, hsteps, htally, heq⟩ := h.steps
  have hqueue : t.queue = s.queue := (Box.mk.inj hbox).1
  refine ⟨⟨put, ?_, htally, heq⟩, hclosed ▸ h.closed, hending ▸ h.ending⟩
  rw [← hbox]
  refine hsteps.mono ?_
  rintro (hclosed | ⟨hending, hcut⟩)
  · exact .inl hclosed
  · exact .inr ⟨hending, hqueue ▸ hcut⟩

/-- What a turn, or a part of one, keeps. -/
structure Keeps (options : Options Data) (owed : List Nat) (s s' : Session) : Prop where
  pumped : Pumped options s'
  accounts : Accounts s' owed
  moves : ∃ entries, Moves entries s s'

theorem Puts.keeps {owed : List Nat} (h : Puts options entries s s') (hmute : Mute entries)
    (haccounts : Accounts s owed) : Keeps options owed s s' :=
  ⟨h.pumped, haccounts.goes h.goes hmute, entries, h.goes.toMoves⟩

/-- The reply of a call that is owed one. -/
theorem keeps_reply {id : Nat} (h : Pumped options s) (haccounts : Accounts s [id]) (hmade : Made entry)
    (hreplies : replies entry = some id) : Keeps options [] s (s.reply options id entry) := by
  have hsettled : Pumped options { s with inFlight := s.inFlight.erase id } := h.congr rfl rfl rfl rfl rfl
  obtain ⟨hpumped, hgoes⟩ := puts_enqueue hsettled hmade
  have hin : id ∈ s.inFlight := haccounts.flying.symm.subset (List.mem_cons_self ..)
  have hcount (other : Nat) : (s.inFlight.erase id).count other + tally replies other [entry] =
      s.inFlight.count other := by
    rw [List.count_erase, tally, List.countP_singleton]
    by_cases heq : id = other
    · subst heq
      have hpos := List.count_pos_iff.mpr hin
      simp only [hreplies, decide_true, if_true, beq_self_eq_true]
      omega
    · have hne : ¬ some id = some other := fun h => heq (Option.some.inj h)
      simp only [hreplies, hne, decide_false, Bool.false_eq_true, if_false, beq_iff_eq, heq]
      omega
  refine ⟨hpumped, ⟨?_, ?_, fun other => ?_, fun hover other => ?_⟩,
    [entry], hgoes.toMoves.congr_left rfl rfl rfl⟩
  · rw [Session.reply, hgoes.inFlight, hgoes.running]
    have hperm := haccounts.flying.erase id
    rw [List.singleton_append, List.erase_cons_head] at hperm
    exact hperm
  · rw [Session.reply, hgoes.inFlight]
    exact haccounts.nodup.erase id
  · have hle := (hgoes.tally other).1
    have hatMost := haccounts.atMost other
    have hadd := hcount other
    rw [Session.reply, hgoes.inFlight, hgoes.calls]
    change _ ≤ s.box.tally replies other + _ at hle
    change _ + (s.inFlight.erase id).count other ≤ s.calls.count other
    omega
  · have heq := (hgoes.tally other).2 hover
    have hexact := haccounts.exact (hgoes.over hover) other
    have hadd := hcount other
    rw [Session.reply, hgoes.inFlight, hgoes.calls]
    change _ = s.box.tally replies other + _ at heq
    change _ + (s.inFlight.erase id).count other = s.calls.count other
    omega

theorem keeps_attach {id : Nat} {attaching : Attaching} (h : Pumped options s) (haccounts : Accounts s [id]) :
    Keeps options [] s (s.attach options id attaching) := by
  obtain ⟨entries, hmute, hpumped, hgoes⟩ := puts_acts h attaching.acts
  have haccounts := haccounts.goes hgoes hmute
  unfold attach
  dsimp only
  split
  · obtain ⟨hpumped', haccounts', more, hmoves⟩ :=
      keeps_reply hpumped haccounts (.error id couldNotAttach) rfl
    exact ⟨hpumped', haccounts', _, hgoes.toMoves.trans hmoves⟩
  · next baseline _ =>
      generalize attaching.acts.foldl (Session.act options) s = t at hpumped haccounts hgoes
      have hattached : Pumped options { t with attached := true } := hpumped.congr rfl rfl rfl rfl rfl
      have haccounts : Accounts { t with attached := true } [id] :=
        ⟨haccounts.flying, haccounts.nodup, haccounts.atMost, haccounts.exact⟩
      obtain ⟨hpumped', haccounts', more, hmoves⟩ :=
        keeps_reply hattached haccounts (.result id baseline [] true) rfl
      exact ⟨hpumped', haccounts', _, hgoes.toMoves.trans (hmoves.congr_left rfl rfl rfl)⟩

theorem keeps_serve {call : Call} (attaching : Attaching) (h : Pumped options s)
    (haccounts : Accounts s [call.id]) : Keeps options [] s (s.serve options call attaching) := by
  have hrefuse (code message : JsString) : Keeps options [] s (s.refuse options call.id code message) :=
    keeps_reply h haccounts (.error call.id _) rfl
  unfold serve
  split
  · exact hrefuse _ _
  · split
    · exact hrefuse _ _
    · split
      · exact hrefuse _ _
      · split
        · exact hrefuse _ _
        · split
          · exact keeps_attach h haccounts
          · refine ⟨h.congr rfl rfl rfl rfl rfl, ?_, [], Moves.refl.congr_left rfl rfl rfl⟩
            refine ⟨?_, haccounts.nodup, haccounts.atMost, haccounts.exact⟩
            rw [List.map_append]
            exact haccounts.flying.trans List.perm_append_comm

theorem Accounts.running {id : Nat} {method : JsString} (h : Accounts s [])
    (hrunning : s.running.lookup id = some method) :
    Accounts { s with running := s.running.filter fun handler => handler.1 ≠ id } [id] := by
  refine ⟨h.flying.trans ?_, h.nodup, h.atMost, h.exact⟩
  have hnodup : (s.running.map Prod.fst).Nodup := h.flying.nodup_iff.mp h.nodup
  change (s.running.map Prod.fst).Perm
    (id :: (s.running.filter fun handler => handler.1 ≠ id).map Prod.fst)
  generalize s.running = running at hrunning hnodup
  clear h
  induction running with
  | nil => cases hrunning
  | cons handler running ih =>
      obtain ⟨other, method'⟩ := handler
      obtain ⟨hnot, hnodup⟩ := List.nodup_cons.mp hnodup
      by_cases heq : id = other
      · subst heq
        have hall : running.filter (fun handler => decide (handler.1 ≠ id)) = running :=
          List.filter_eq_self.mpr fun handler hin => decide_eq_true fun heq =>
            hnot (List.mem_map.mpr ⟨handler, hin, heq⟩)
        rw [List.filter_cons_of_neg (by simp), hall]
        exact .refl _
      · have hlookup : running.lookup id = some method := by
          rw [List.lookup_cons, beq_eq_false_iff_ne.mpr heq] at hrunning
          exact hrunning
        have hkept : ((other, method') :: running).filter (fun handler => decide (handler.1 ≠ id)) =
            (other, method') :: running.filter fun handler => decide (handler.1 ≠ id) :=
          List.filter_cons_of_pos (decide_eq_true (Ne.symm heq))
        rw [hkept]
        exact ((ih hlookup hnodup).cons other).trans (.swap id other _)

theorem keeps_settles {id : Nat} {settled : Settled} (h : Pumped options s) (haccounts : Accounts s []) :
    Keeps options [] s (s.settles options id settled) := by
  unfold settles
  split
  · exact ⟨h, haccounts, [], .refl⟩
  · next method hrunning =>
      have hback : Pumped options { s with running := s.running.filter fun handler => handler.1 ≠ id } :=
        h.congr rfl rfl rfl rfl rfl
      have howed := haccounts.running hrunning
      have hreply {entry : Entry} (hmade : Made entry) (hreplies : replies entry = some id) :
          Keeps options [] s (reply options
            { s with running := s.running.filter fun handler => handler.1 ≠ id } id entry) := by
        obtain ⟨hpumped, haccounts, entries, hmoves⟩ := keeps_reply hback howed hmade hreplies
        exact ⟨hpumped, haccounts, entries, hmoves.congr_left rfl rfl rfl⟩
      cases settled with
      | resolves value => exact hreply (.result id value _ false) rfl
      | refuses error => exact hreply (.error id error) rfl
      | throws => exact hreply (.error id unexpected) rfl

theorem keeps_negotiate {data : Data} (h : Pumped options s) (haccounts : Accounts s []) :
    Keeps options [] s (s.negotiate options data) := by
  unfold negotiate
  split
  · exact (puts_close h).keeps mute_nil haccounts
  · next apis _ =>
      have hnegotiated : Pumped options { s with negotiated := true } := h.congr rfl rfl rfl rfl rfl
      have haccounts : Accounts { s with negotiated := true } [] :=
        ⟨haccounts.flying, haccounts.nodup, haccounts.atMost, haccounts.exact⟩
      dsimp only
      split
      · obtain ⟨hpumped, haccounts, entries, hmoves⟩ :=
          (puts_endWith hnegotiated .incompatible rfl).keeps (mute_singleton rfl) haccounts
        exact ⟨hpumped, haccounts, entries, hmoves.congr_left rfl rfl rfl⟩
      · obtain ⟨hpumped, haccounts, entries, hmoves⟩ :=
          (puts_enqueue hnegotiated .welcome).keeps (mute_singleton rfl) haccounts
        exact ⟨hpumped, haccounts, entries, hmoves.congr_left rfl rfl rfl⟩

theorem keeps_receive {data : Data} {attaching : Attaching} (h : Pumped options s)
    (haccounts : Accounts s []) : Keeps options [] s (s.receive options data attaching) := by
  unfold receive
  split
  · exact ⟨h, haccounts, [], .refl⟩
  · split
    · exact keeps_negotiate h haccounts
    · split
      · obtain ⟨entries, hmute, hputs⟩ := puts_fault h
        exact hputs.keeps hmute haccounts
      · split
        · exact (puts_close h).keeps mute_nil haccounts
        · next call _ =>
            split
            · exact (puts_close h).keeps mute_nil haccounts
            · next hnot =>
                have hread : Pumped options
                    { s with inFlight := call.id :: s.inFlight, calls := s.calls ++ [call.id] } :=
                  h.congr rfl rfl rfl rfl rfl
                have hcount (id : Nat) : (call.id :: s.inFlight).count id + s.calls.count id =
                    s.inFlight.count id + (s.calls ++ [call.id]).count id := by
                  rw [List.count_append, List.count_cons, List.count_singleton]
                  omega
                have howed : Accounts { s with
                    inFlight := call.id :: s.inFlight, calls := s.calls ++ [call.id] } [call.id] := by
                  refine ⟨haccounts.flying.cons call.id, List.nodup_cons.mpr ⟨hnot, haccounts.nodup⟩,
                    fun id => ?_, fun hover id => ?_⟩
                  · have hatMost := haccounts.atMost id
                    have hadd := hcount id
                    change s.box.tally replies id + (call.id :: s.inFlight).count id ≤
                      (s.calls ++ [call.id]).count id
                    omega
                  · have hexact := haccounts.exact hover id
                    have hadd := hcount id
                    change s.box.tally replies id + (call.id :: s.inFlight).count id =
                      (s.calls ++ [call.id]).count id
                    omega
                obtain ⟨hpumped, haccounts, entries, hmoves⟩ := keeps_serve attaching hread howed
                exact ⟨hpumped, haccounts, entries, hmoves.congr_left rfl rfl rfl⟩

/-! ## The port -/

theorem keeps_sent (h : Pumped options s) (haccounts : Accounts s []) : Keeps options [] s s.sent := by
  unfold sent
  split
  · exact ⟨h, haccounts, [], .refl⟩
  · next entry hwriting =>
      have hmade : Made entry := h.made entry (List.mem_append_right _ (h.taking hwriting))
      -- Nothing was handed after this one, so that it is the last where there is one.
      have hlast {front : List Entry} {e : Entry} {back : List Entry}
          (hhanded : s.handed = front ++ e :: back) (he : e.write.isLast = true)
          (hopen : s.closed = false) : e = entry := by
        obtain ⟨-, hclosed | hsame⟩ := h.last hhanded he
        · exact Bool.noConfusion (hopen.symm.trans hclosed)
        · exact Option.some.inj (hsame.symm.trans hwriting)
      have haccounts : Accounts { s with writing := none, taken := s.taken + 1 } [] :=
        ⟨haccounts.flying, haccounts.nodup, haccounts.atMost, haccounts.exact⟩
      dsimp only
      split
      · next hterminal =>
          have hclosed : Pumped options (close { s with writing := none, taken := s.taken + 1 }) := by
            refine .of_closed ?_ closed_finish
            unfold close finish
            split
            · next hclosed =>
                exact ⟨h.made, fun hnone => (nomatch hnone),
                  fun hhanded he => ⟨(h.last hhanded he).1, .inl hclosed⟩,
                  fun hopen => Bool.noConfusion (hopen.symm.trans hclosed), h.fits⟩
            · exact ⟨fun e he => h.made e (List.mem_append_right _ he), fun hnone => (nomatch hnone),
                fun hhanded he => ⟨(h.last hhanded he).1, .inl rfl⟩, fun hopen => (nomatch hopen), h.fits⟩
          exact ⟨hclosed, haccounts.goes goes_finish mute_nil, [], goes_finish.toMoves.congr_left rfl rfl rfl⟩
      · next hterminal =>
          have hnot : ¬ entry.write.isLast = true := hmade.terminal ▸ hterminal
          have hsane : Sane { s with writing := none, taken := s.taken + 1 } := by
            refine ⟨h.made, fun hnone => (nomatch hnone), fun {front e back} hhanded he => ?_,
              fun hopen => ?_, h.fits⟩
            · refine ⟨(h.last hhanded he).1, .inl ?_⟩
              by_contra hopen
              have heq := hlast hhanded he (Bool.eq_false_iff.mpr hopen)
              exact hnot (heq ▸ he)
            · have hone := h.one hopen
              rw [hwriting] at hone
              exact hone
          have hends : Ends { s with writing := none, taken := s.taken + 1 } := by
            intro hending hopen
            obtain ⟨e, he, hin | hsame⟩ := h.ends hending hopen
            · exact ⟨e, he, .inl hin⟩
            · rw [hwriting] at hsame
              cases hsame
              exact absurd he hnot
          have hpumps := pumps_pump hsane hends
          refine ⟨⟨hpumps.sane, hpumps.ends, hpumps.free, fun hover => ?_⟩,
            haccounts.goes hpumps.goes mute_nil, [], hpumps.goes.toMoves.congr_left rfl rfl rfl⟩
          exact ((hpumps.rest hover).sublist.filter _).length_le.trans (h.bound (hpumps.goes.over hover))

theorem keeps_turn (turn : Turn Data) (h : Pumped options s) (haccounts : Accounts s []) :
    Keeps options [] s (s.turn options turn) := by
  cases turn with
  | receives data attaching => exact keeps_receive h haccounts
  | settles id settled => exact keeps_settles h haccounts
  | acts act =>
      obtain ⟨entries, hmute, hputs⟩ := puts_act act h
      exact hputs.keeps hmute haccounts
  | sent => exact keeps_sent h haccounts
  | sendFails =>
      change Keeps options [] s s.sendFails
      unfold sendFails
      split
      · exact ⟨h, haccounts, [], .refl⟩
      · exact (puts_close h).keeps mute_nil haccounts
  | portCloses => exact (puts_close h).keeps mute_nil haccounts
  | timesOut =>
      change Keeps options [] s (if s.negotiated then s else s.close)
      split
      · exact ⟨h, haccounts, [], .refl⟩
      · exact (puts_close h).keeps mute_nil haccounts

/-! ## Every run -/

theorem pumped_new : Pumped options new := by
  have hnil {front back : List Entry} {e : Entry} (h : ([] : List Entry) = front ++ e :: back) : False :=
    List.append_ne_nil_of_right_ne_nil front (List.cons_ne_nil e back) h.symm
  exact ⟨⟨fun e he => (nomatch he), fun hnone => (nomatch hnone), fun hhanded => (hnil hhanded).elim,
    fun _ => rfl, fun e he => (nomatch he)⟩, fun hending => (nomatch hending), fun _ _ => rfl,
    fun _ => Nat.zero_le _⟩

theorem kept_after (options : Options Data) (turns : List (Turn Data)) :
    Pumped options (after options turns) ∧ Accounts (after options turns) [] := by
  have hrun (s : Session) (h : Pumped options s) (haccounts : Accounts s []) :
      Pumped options (turns.foldl (Session.turn options) s) ∧
        Accounts (turns.foldl (Session.turn options) s) [] := by
    induction turns generalizing s with
    | nil => exact ⟨h, haccounts⟩
    | cons turn turns ih =>
        obtain ⟨hpumped, haccounts, -⟩ := keeps_turn turn h haccounts
        exact ih _ hpumped haccounts
  exact hrun new pumped_new ⟨.refl _, List.nodup_nil, fun id => Nat.le_refl _, fun _ id => rfl⟩

end Session

end Estoc.Daemon.Serving
