import Estoc.EventStore.StoresAgree

/-!
# Chained changes

A reader that asks each time for what came after its last page, while others write. What
it has read is what was accepted when it last asked, in that order; each accepted event
has the next position, and what is refused or held already has none.
-/

set_option linter.unusedSectionVars false

namespace Estoc.EventStore

open Json (lit)
open Utf16 (JsString)

/-- Someone writes, or the reader asks for its next page. -/
inductive Turn where
  | write (write : Write)
  | read

/-- From the last of some pages on. -/
def afterPages : (pages : Nat) → Since
  | 0 => .start
  | k + 1 => .page k

/-- The events of a page. -/
def Answer.page : Answer → List Event
  | .events read => read
  | _ => []

def request (filter : Option Filter) (pages : Nat) : Turn → Request
  | .write write => .write write
  | .read => .changes filter (afterPages pages)

/-- A turn, and what the reader reads in it. -/
def turn {σ : Type} (answer : Client σ → Request → Answer × Client σ) (filter : Option Filter)
    (client : Client σ) (turn : Turn) : List Event × Client σ :=
  let (answer, client) := answer client (request filter client.tokens.length turn)
  (answer.page, client)

def LogClient.turn (P : Packages) (author : JsString) (filter : Option Filter) (client : LogClient)
    (turn : Turn) : List Event × LogClient :=
  let (answer, client) := client.answer P author (request filter client.places.length turn)
  (answer.page, client)

variable {P : Packages} {author : JsString} {filter : Option Filter}

theorem turn_follows {σ : Type} {answer : Client σ → Request → Answer × Client σ}
    {R : Client σ → LogClient → Prop} {generation : JsString}
    (h : Machine.Follows answer (LogClient.answer P author) R fun request => ¬ request.Names generation)
    (hlength : ∀ {client log}, R client log → client.tokens.length = log.places.length) :
    Machine.Follows (turn answer filter) (LogClient.turn P author filter) R fun _ => True where
  answers := by
    intro client log i hR _
    have hmay : ¬ (request filter log.places.length i).Names generation := by
      cases i with
      | write write => exact id
      | read => cases log.places.length <;> exact id
    rw [turn, hlength hR, LogClient.turn]
    exact congrArg Answer.page (h.answers hR hmay)
  keeps := by
    intro client log i hR _
    have hmay : ¬ (request filter log.places.length i).Names generation := by
      cases i with
      | write write => exact id
      | read => cases log.places.length <;> exact id
    rw [turn, hlength hR]
    exact h.keeps hR hmay

/-! ## A reader of the log -/

namespace LogClient

/-- The position the last page reached. -/
def reached (client : LogClient) : Nat := client.places.getLast?.getD 0

/-- What was read is what was accepted when the last page was. -/
structure Caught (P : Packages) (filter : Option Filter) (client : LogClient) (seen : List Event) :
    Prop where
  good : client.log.Good P
  reached : client.reached ≤ client.log.length
  seen : seen = (client.log.events.take client.reached).filter (matchesFilter · filter)

theorem place_afterPages (client : LogClient) :
    (afterPages client.places.length).place client.places = .ok client.reached := by
  obtain ⟨log, places⟩ := client
  cases places with
  | nil => rfl
  | cons place places =>
      rw [reached, List.getLast?_eq_getElem?]
      rfl

/-- No event matches a filter that is refused. -/
theorem filter_refused {log : Log} (hgood : log.Good P) {e : JsError} (hcheck : checkFilter filter = .error e) :
    log.events.filter (matchesFilter · filter) = [] := by
  rw [List.filter_eq_nil_iff]
  intro event hevent hmatches
  obtain ⟨held, hheld, rfl⟩ := List.mem_map.mp hevent
  cases filter with
  | none => cases hcheck
  | some f =>
      cases hcid : f.cid with
      | none =>
          rw [checkFilter, Option.bind_some, hcid] at hcheck
          cases hcheck
      | some cid =>
          have hraw : isEventCid held.event.cid = true := (hgood.accepted held hheld).rawCid
          have hagrees : held.event.cid = cid := by
            simp only [matchesFilter, Option.all_some, Bool.and_eq_true, agrees, hcid] at hmatches
            exact (beq_iff_eq.mp hmatches.1.1.1).symm
          rw [checkFilter, Option.bind_some, hcid, ← hagrees] at hcheck
          simp only [hraw] at hcheck
          cases hcheck

theorem page_write (author : JsString) (log : Log) (write : Write) :
    (log.write P author write).1.page = [] := by
  cases write with
  | appendAll drafts now =>
      rw [Log.write]
      cases log.appendAll P author drafts now <;> rfl
  | ingest source =>
      rw [Log.write]
      cases log.ingest P author source <;> rfl

theorem turn_read (author : JsString) (client : LogClient) : client.turn P author filter .read =
    match checkFilter filter with
    | .ok _ => (client.log.after filter client.reached,
        { client with places := client.places ++ [client.log.length] })
    | .error _ => ([], client) := by
  rw [LogClient.turn, request, LogClient.answer, LogClient.page, place_afterPages]
  cases checkFilter filter <;> rfl

theorem reached_page (client : LogClient) (place : Nat) :
    reached { client with places := client.places ++ [place] } = place := by
  rw [reached, List.getLast?_append]
  rfl

/-- What a turn reads comes after what was read before. -/
theorem Caught.turn {client : LogClient} {seen : List Event} (h : client.Caught P filter seen)
    (author : JsString) (turn : Turn) :
    (client.turn P author filter turn).2.Caught P filter (seen ++ (client.turn P author filter turn).1) := by
  have hreached := h.reached
  cases turn with
  | write write =>
      obtain ⟨hgood, more, hmore, _⟩ := Log.good_write h.good author write
      have hpage : (client.turn P author filter (.write write)).1 = [] := page_write author _ write
      have hlog : (client.turn P author filter (.write write)).2 = ⟨client.log ++ more, client.places⟩ :=
        congrArg (LogClient.mk · client.places) hmore
      rw [hmore] at hgood
      rw [hpage, hlog, List.append_nil]
      refine ⟨hgood, hreached.trans (by simp), ?_⟩
      have htake : (Log.events (client.log ++ more)).take client.reached =
          client.log.events.take client.reached := by
        rw [Log.events, List.map_append, List.take_append_of_le_length (by simpa using hreached)]
        rfl
      exact h.seen.trans (congrArg _ htake.symm)
  | read =>
      rw [turn_read]
      cases checkFilter filter with
      | error e =>
          rw [List.append_nil]
          exact h
      | ok u =>
          have hevents : client.log.length = client.log.events.length := (List.length_map _).symm
          refine ⟨h.good, ?_, ?_⟩
          · rw [reached_page]
          · rw [reached_page, h.seen, Log.after, ← List.filter_append, List.take_append_drop, hevents,
              List.take_length]

/-- A read leaves the log, and all of it that matches has been read then. -/
theorem Caught.read {client : LogClient} {seen : List Event} (h : client.Caught P filter seen)
    (author : JsString) : (client.turn P author filter .read).2.log = client.log ∧
      seen ++ (client.turn P author filter .read).1 =
        client.log.events.filter (matchesFilter · filter) := by
  rw [turn_read]
  cases hcheck : checkFilter filter with
  | error e =>
      refine ⟨rfl, ?_⟩
      have hnone := filter_refused h.good hcheck
      have hseen := h.seen
      rw [List.append_nil, hnone, hseen]
      refine List.eq_nil_of_subset_nil ?_
      rw [← hnone]
      exact ((List.take_sublist _ _).filter _).subset
  | ok u =>
      refine ⟨rfl, ?_⟩
      rw [h.seen, Log.after, ← List.filter_append, List.take_append_drop]

theorem caught_start : LogClient.Caught P filter ⟨[], []⟩ [] := ⟨Log.good_nil, le_rfl, rfl⟩

/-- What was read by a run of turns. -/
theorem caught_run (author : JsString) (turns : List Turn) :
    (Machine.run (LogClient.turn P author filter) ⟨[], []⟩ turns).2.Caught P filter
      (Machine.run (LogClient.turn P author filter) ⟨[], []⟩ turns).1.flatten := by
  have hcaught := Machine.run_collects (I := LogClient.Caught P filter)
    (fun _ _ i h => Caught.turn h author i) turns caught_start
  rwa [List.nil_append] at hcaught

/-- A reader that asks again has then read all that matches. -/
theorem caught_read (author : JsString) (turns : List Turn) :
    (Machine.run (LogClient.turn P author filter) ⟨[], []⟩ (turns ++ [.read])).1.flatten =
      (Machine.run (LogClient.turn P author filter) ⟨[], []⟩ (turns ++ [.read])).2.log.events.filter
        (matchesFilter · filter) := by
  have hcaught := @caught_run P filter author turns
  rw [Machine.run_append]
  generalize Machine.run (LogClient.turn P author filter) ⟨[], []⟩ turns = before at hcaught
  obtain ⟨hlog, hread⟩ := hcaught.read author
  rw [Machine.run_singleton, hlog, List.flatten_append, List.flatten_singleton, hread]

/-- Writes put nothing out to the reader. -/
theorem run_writes (author : JsString) (client : LogClient) (writes : List Write) :
    (Machine.run (LogClient.turn P author filter) client (writes.map .write)).1.flatten = [] := by
  induction writes generalizing client with
  | nil => rfl
  | cons write writes ih =>
      have hpage : (client.turn P author filter (.write write)).1 = [] := page_write author _ write
      show (client.turn P author filter (.write write)).1 ++ _ = []
      rw [hpage, List.nil_append]
      exact ih _

end LogClient

/-! ## Both stores -/

/-- The event of a row, if it is not damaged. -/
def SqliteEventStore.eventOf (P : Packages) (row : EventRow) : Option Event :=
  match decodeEventRow P row true with
  | .event event => some event
  | .damage _ => none

/-- The positions of a store over SQLite. -/
def SqliteEventStore.positions (store : SqliteEventStore) : List Nat :=
  store.tables.positions.map PositionRow.acceptedSeq

/-- Its events in the order of their positions, each found under the CID that its position has. -/
def SqliteEventStore.accepted (P : Packages) (store : SqliteEventStore) : List Event :=
  (Cmp.sortBy (fun a b => compare a.acceptedSeq b.acceptedSeq) store.tables.positions).flatMap fun position =>
    (store.tables.events.filter (·.cid == position.cid)).filterMap (eventOf P)

/-- A reader that chains its tokens has at any moment read, each once and in order, what
was accepted and matches when it last asked; and a write takes a place in the order for
each event it adds, and for no other. -/
structure LosesNothing {σ : Type} (answer : Client σ → Request → Answer × Client σ)
    (write : σ → Write → Answer × σ) (accepted : σ → List Event) (filter : Option Filter)
    (start : Client σ) : Prop where
  reads : ∀ (turns : List Turn) (writes : List Write),
    let read := Machine.run (turn answer filter) start (turns ++ [.read])
    let later := Machine.run (turn answer filter) read.2 (writes.map .write)
    (read.1 ++ later.1).flatten = (accepted read.2.store).filter (matchesFilter · filter)
  once : ∀ turns : List Turn,
    ((accepted (Machine.run (turn answer filter) start turns).2.store).map Event.cid).Nodup
  adds : ∀ (turns : List Turn) (w : Write),
    let store := (Machine.run (turn answer filter) start turns).2.store
    ∃ more, accepted (write store w).2 = accepted store ++ more ∧ (write store w).1.Adds more

/-- A store that follows the log loses nothing. -/
theorem losesNothing_of_follows {σ : Type} {answer : Client σ → Request → Answer × Client σ}
    {write : σ → Write → Answer × σ} {accepted : σ → List Event} {start : Client σ}
    {R : Client σ → LogClient → Prop} {generation : JsString}
    (h : Machine.Follows answer (LogClient.answer P author) R fun request => ¬ request.Names generation)
    (hlength : ∀ {client log}, R client log → client.tokens.length = log.places.length)
    (haccepted : ∀ {client log}, R client log → accepted client.store = log.log.events)
    (hgood : ∀ {client log}, R client log → log.log.Good P)
    (hwrite : ∀ client w, (answer client (.write w)).1 = (write client.store w).1 ∧
      (answer client (.write w)).2.store = (write client.store w).2)
    (hstart : R start ⟨[], []⟩) : LosesNothing answer write accepted filter start where
  reads := by
    intro turns writes read later
    have hturns : Machine.Follows (turn answer filter) (LogClient.turn P author filter) R fun _ => True :=
      turn_follows h hlength
    obtain ⟨hread, hR⟩ := hturns.run hstart fun (i : Turn) (_ : i ∈ turns ++ [.read]) => trivial
    obtain ⟨hlater, _⟩ := hturns.run hR fun (i : Turn) (_ : i ∈ writes.map .write) => trivial
    rw [List.flatten_append, hlater, LogClient.run_writes, List.append_nil, hread, haccepted hR,
      LogClient.caught_read]
  once := by
    intro turns
    obtain ⟨_, hR⟩ := (@turn_follows P author filter σ answer R generation h hlength).run hstart
      fun (i : Turn) (_ : i ∈ turns) => trivial
    rw [haccepted hR, Log.events, List.map_map]
    exact (hgood hR).once
  adds := by
    intro turns w store
    obtain ⟨_, hR⟩ := (@turn_follows P author filter σ answer R generation h hlength).run hstart
      fun (i : Turn) (_ : i ∈ turns) => trivial
    have hanswer := h.answers hR (i := .write w) id
    have hafter := haccepted (h.keeps hR (i := .write w) id)
    rw [(hwrite _ w).1] at hanswer
    rw [(hwrite _ w).2] at hafter
    obtain ⟨_, more, hmore, hadds⟩ := Log.good_write (hgood hR) author w
    refine ⟨more.events, ?_, ?_⟩
    · rw [hafter, haccepted hR]
      show Log.events (Log.write P author _ w).2 = _
      rw [hmore, Log.events, List.map_append]
      rfl
    · rw [hanswer]
      exact hadds

/-- In a store that holds a log, a position leads to its event. -/
theorem SqliteEventStore.accepted_eq {store : SqliteEventStore} {log : Log} (h : store.Holds log)
    (hgood : log.Good P) : store.accepted P = log.events := by
  have hsorted : ((numbered log).map positionRow).Pairwise fun a b =>
      (compare a.acceptedSeq b.acceptedSeq).isLE := by
    rw [List.pairwise_map]
    exact pairwise_numbered.imp fun hlt => Nat.isLE_compare.mpr (Nat.le_of_lt hlt)
  have hevent : ∀ p ∈ numbered log, (((numbered log).map row).filter
      (·.cid == (positionRow p).cid)).filterMap (eventOf P) =
      if (fun _ => true) p = true then [p.1.event] else [] := by
    intro p hp
    have hdecode := (accepted_numbered hgood p hp).decodeEventRow p.2 true
    rw [positionRow, rows_of_position hgood hp, List.filterMap_cons, eventOf, row, hdecode]
    rfl
  rw [accepted, h.positions, h.events, Cmp.sortBy_of_sorted hsorted, List.flatMap_map,
    flatMap_filter hevent, List.filter_true, events_numbered]

/-- The positions are those from 1 on, one for each event. -/
theorem SqliteEventStore.positions_eq {store : SqliteEventStore} {log : Log} (h : store.Holds log) :
    store.positions = List.range' 1 log.length := by
  rw [positions, h.positions, List.map_map, numbered, ← List.zipIdx_map_snd]
  rfl

/-- For every interleaving of writes with a reader that chains its tokens, over either store,
nothing is lost and nothing repeated; over SQLite the positions are those from 1 to the
number of accepted events. -/
theorem changes_lose_nothing (P : Packages) (author generation : JsString) (filter : Option Filter) :
    LosesNothing (MemoryEventStore.answer P) (MemoryEventStore.write P) MemoryEventStore.accepted filter
      (.start (.new author generation)) ∧
    LosesNothing (SqliteEventStore.answer P) (SqliteEventStore.write P) (SqliteEventStore.accepted P)
      filter (.start (.new author generation)) ∧
    ∀ turns : List Turn,
      let store := (Machine.run (turn (SqliteEventStore.answer P) filter)
        (.start (.new author generation)) turns).2.store
      store.positions = List.range' 1 (store.accepted P).length := by
  have hmemory : MemoryEventStore.Follows P author generation (.start (.new author generation)) ⟨[], []⟩ :=
    ⟨MemoryEventStore.holds_new author generation, Log.good_nil, rfl, rfl, .nil⟩
  have hsqlite : SqliteEventStore.Follows P author generation (.start (.new author generation)) ⟨[], []⟩ :=
    ⟨SqliteEventStore.holds_new author generation, Log.good_nil, rfl, rfl, rfl,
      fun _ h => (by cases h)⟩
  have hlength {client : Client SqliteEventStore} {log : LogClient}
      (hR : SqliteEventStore.Follows P author generation client log) :
      client.tokens.length = log.places.length := by
    rw [hR.tokens, List.length_map]
  have hfollows := SqliteEventStore.follows_log P author generation
  refine ⟨?_, ?_, fun turns => ?_⟩
  · exact losesNothing_of_follows (MemoryEventStore.follows_log P author generation)
      (fun hR => hR.tokens.length_eq) (fun hR => hR.holds.accepted) (fun hR => hR.good)
      (fun _ _ => ⟨rfl, rfl⟩) hmemory
  · exact losesNothing_of_follows hfollows hlength
      (fun hR => SqliteEventStore.accepted_eq hR.holds hR.good) (fun hR => hR.good)
      (fun _ _ => ⟨rfl, rfl⟩) hsqlite
  · obtain ⟨_, hR⟩ := (@turn_follows P author filter _ _ _ generation hfollows hlength).run hsqlite
      fun (i : Turn) (_ : i ∈ turns) => trivial
    show SqliteEventStore.positions _ = List.range' 1 (SqliteEventStore.accepted P _).length
    rw [SqliteEventStore.positions_eq hR.holds, SqliteEventStore.accepted_eq hR.holds hR.good, Log.events,
      List.length_map]

end Estoc.EventStore
