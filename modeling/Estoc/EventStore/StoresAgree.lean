import Estoc.Lib.Machine
import Estoc.EventStore.Client

/-!
# The stores agree

Both stores follow the log, so that a sequence of calls has the same answers from both and
leaves both with the same events. A token stands for a position: the store in memory also
checks the event accepted last before it, which a later write does not change.
-/

set_option linter.unusedSectionVars false

namespace Estoc.EventStore

open Json (lit)
open Utf16 (JsString)

/-- A log, and the positions that the pages given reached. -/
structure LogClient where
  log : Log
  places : List Nat

/-- Why a text that no store gave out is refused. -/
def unknown : ChangeToken → StoreError
  | .malformed => .badToken (lit "not a token of this store")
  | _ => .badToken (lit "not a token of this store generation")

def Since.place (places : List Nat) : Since → Except StoreError Nat
  | .start => .ok 0
  | .page k => .ok (places[k]?.getD 0)
  | .text token => .error (unknown token)

def ChangeToken.Names (generation : JsString) : ChangeToken → Prop
  | .object named _ _ => named = some generation
  | _ => False

/-- A request with a text that names a generation. -/
def Request.Names (generation : JsString) : Request → Prop
  | .changes _ (.text token) => token.Names generation
  | _ => False

/-- A page of the log. -/
def LogClient.page (client : LogClient) (filter : Option Filter) (since : Since) :
    Except StoreError (List Event) := do
  thrown (checkFilter filter)
  let place ← since.place client.places
  .ok (client.log.after filter place)

def LogClient.answer (P : Packages) (author : JsString) (client : LogClient) :
    Request → Answer × LogClient
  | .write write =>
    let (answer, log) := client.log.write P author write
    (answer, { client with log })
  | .scan filter => (.of .events (client.log.scan filter), client)
  | .changes filter since =>
    match client.page filter since with
    | .ok events => (.events events, { client with places := client.places ++ [client.log.length] })
    | .error e => (.refused e, client)

variable {P : Packages} {author generation : JsString}

theorem forall₂_getElem? {α β : Type} {R : α → β → Prop} {as : List α} {bs : List β}
    (h : List.Forall₂ R as bs) (k : Nat) :
    as[k]? = none ∧ bs[k]? = none ∨ ∃ a b, as[k]? = some a ∧ bs[k]? = some b ∧ R a b := by
  induction h generalizing k with
  | nil => exact .inl ⟨rfl, rfl⟩
  | @cons a b as bs hab _ ih =>
      cases k with
      | zero => exact .inr ⟨a, b, rfl, rfl, hab⟩
      | succ k => exact ih k

/-! ## The store in memory -/

namespace MemoryEventStore

/-- The token of a page that the store gave when the log reached a position. -/
def Gave (store : MemoryEventStore) (log : Log) (token : ChangeToken) (place : Nat) : Prop :=
  ∃ (earlier : MemoryEventStore) (before more : Log), earlier.Holds before ∧ log = before ++ more ∧
    earlier.generation = store.generation ∧ token = earlier.token before.length ∧
    place = before.length

structure Follows (P : Packages) (author generation : JsString) (client : Client MemoryEventStore)
    (log : LogClient) : Prop where
  holds : client.store.Holds log.log
  good : log.log.Good P
  author_eq : client.store.author = author
  generation_eq : client.store.generation = generation
  tokens : List.Forall₂ (Gave client.store log.log) client.tokens log.places

variable {client : Client MemoryEventStore} {log : LogClient}

theorem place_gave {store : MemoryEventStore} {log : Log} (h : store.Holds log) {token : ChangeToken}
    {place : Nat} (hgave : store.Gave log token place) : store.place token = .ok place := by
  obtain ⟨earlier, before, more, hearlier, rfl, hgeneration, rfl, rfl⟩ := hgave
  exact place_token hearlier h hgeneration

theorem place_unknown {store : MemoryEventStore} {token : ChangeToken}
    (h : ¬ token.Names store.generation) :
    store.place token = .error (unknown token) := by
  cases token with
  | malformed => rfl
  | notObject => rfl
  | object named seq last => exact if_pos h

theorem changes_page (h : Follows P author generation client log) {filter : Option Filter}
    {since : Since} (hmay : ¬ Request.Names generation (.changes filter since)) :
    client.store.changes filter (since.token client.tokens) =
      (log.page filter since).map fun events => (client.store.token log.log.length, events) := by
  have hpage {asked : Option ChangeToken} {lower : Nat}
      (hlower : asked = none ∧ lower = 0 ∨ ∃ token, asked = some token ∧ client.store.place token = .ok lower)
      (hplace : since.place log.places = .ok lower) :
      client.store.changes filter asked =
        (log.page filter since).map fun events => (client.store.token log.log.length, events) := by
    rw [changes_eq h.holds hlower, LogClient.page, hplace]
    cases checkFilter filter <;> rfl
  cases since with
  | start => exact hpage (.inl ⟨rfl, rfl⟩) rfl
  | page k =>
      rcases forall₂_getElem? h.tokens k with ⟨htoken, hplace⟩ | ⟨token, place, htoken, hplace, hgave⟩
      · refine hpage (.inl ⟨htoken, rfl⟩) ?_
        rw [Since.place, hplace]
        rfl
      · refine hpage (.inr ⟨token, htoken, place_gave h.holds hgave⟩) ?_
        rw [Since.place, hplace]
        rfl
  | text token =>
      have hplace := @place_unknown client.store token (by rw [h.generation_eq]; exact hmay)
      rw [Since.token, changes, LogClient.page, Since.place]
      simp only [hplace]
      cases checkFilter filter <;> rfl

/-- A page given is given again where the log has grown. -/
theorem Gave.grown {store store' : MemoryEventStore} {log more : Log} {token : ChangeToken} {place : Nat}
    (h : store.Gave log token place) (hgeneration : store'.generation = store.generation) :
    store'.Gave (log ++ more) token place := by
  obtain ⟨earlier, before, since, hearlier, rfl, hsame, htoken, hplace⟩ := h
  exact ⟨earlier, before, since ++ more, hearlier, List.append_assoc _ _ _,
    hsame.trans hgeneration.symm, htoken, hplace⟩

theorem follows_log (P : Packages) (author generation : JsString) :
    Machine.Follows (answer P) (LogClient.answer P author) (Follows P author generation)
      (fun request => ¬ request.Names generation) where
  answers := by
    intro client log request h hmay
    cases request with
    | write write =>
        have hanswer := (write_wrote h.holds h.good write).1.answer
        rw [h.author_eq] at hanswer
        exact hanswer
    | scan filter => exact congrArg (Answer.of .events) (scan_eq h.holds filter)
    | changes filter since =>
        rw [answer, changes_page h hmay, LogClient.answer]
        cases log.page filter since <;> rfl
  keeps := by
    intro client log request h hmay
    cases request with
    | write write =>
        obtain ⟨hwrote, hauthor, hgeneration⟩ := write_wrote h.holds h.good write
        rw [h.author_eq] at hwrote
        obtain ⟨hgood, more, hmore, _⟩ := Log.good_write h.good author write
        refine ⟨hwrote.holds, hgood, hauthor.trans h.author_eq, hgeneration.trans h.generation_eq, ?_⟩
        rw [LogClient.answer]
        simp only [hmore]
        exact h.tokens.imp fun _ _ hgave => hgave.grown hgeneration
    | scan filter => exact h
    | changes filter since =>
        rw [answer, changes_page h hmay, LogClient.answer]
        cases log.page filter since with
        | error e => exact h
        | ok events =>
            refine ⟨h.holds, h.good, h.author_eq, h.generation_eq, ?_⟩
            refine List.rel_append h.tokens (.cons ?_ .nil)
            exact ⟨client.store, log.log, [], h.holds, (List.append_nil _).symm, rfl, rfl, rfl⟩

end MemoryEventStore

namespace SqliteEventStore

structure Follows (P : Packages) (author generation : JsString) (client : Client SqliteEventStore)
    (log : LogClient) : Prop where
  holds : client.store.Holds log.log
  good : log.log.Good P
  author_eq : client.store.author = author
  generation_eq : client.store.generation = generation
  tokens : client.tokens = log.places.map (token generation)
  places : ∀ place ∈ log.places, place ≤ log.log.length

variable {client : Client SqliteEventStore} {log : LogClient}

theorem from_unknown {token : ChangeToken} {upper : Nat} (h : ¬ token.Names generation) :
    from_ generation upper (some token) = .error (unknown token) := by
  cases token with
  | malformed => rfl
  | notObject => rfl
  | object named seq last => exact if_pos h

/-- Where the store takes up is where the log does. -/
theorem from_place (h : Follows P author generation client log) {filter : Option Filter} {since : Since}
    (hmay : ¬ Request.Names generation (.changes filter since)) :
    from_ client.store.generation log.log.length (since.token client.tokens) =
      since.place log.places := by
  cases since with
  | start => rfl
  | page k =>
      rw [Since.token, h.tokens, List.getElem?_map, Since.place]
      cases hk : log.places[k]? with
      | none => rfl
      | some place =>
          rw [h.generation_eq]
          exact from_token (h.places place (List.mem_of_getElem? hk))
  | text token =>
      rw [h.generation_eq]
      exact from_unknown hmay

theorem changes_page (h : Follows P author generation client log) {filter : Option Filter}
    {since : Since} (hmay : ¬ Request.Names generation (.changes filter since)) :
    changes P filter (since.token client.tokens) client.store =
      ((log.page filter since).map fun events => (token generation log.log.length, events),
        client.store) := by
  have hfrom := from_place h hmay
  cases hplace : since.place log.places with
  | ok lower =>
      rw [hplace] at hfrom
      rw [changes_run h.holds h.good hfrom, LogClient.page, hplace, h.generation_eq]
      cases checkFilter filter <;> rfl
  | error e =>
      rw [hplace] at hfrom
      rw [LogClient.page, hplace]
      cases hcheck : checkFilter filter with
      | error e => rw [changes, hcheck]; rfl
      | ok u => exact changes_refused h.holds hcheck hfrom

theorem follows_log (P : Packages) (author generation : JsString) :
    Machine.Follows (answer P) (LogClient.answer P author) (Follows P author generation)
      (fun request => ¬ request.Names generation) where
  answers := by
    intro client log request h hmay
    cases request with
    | write write =>
        have hanswer := (write_wrote h.holds h.good write).1.answer
        rw [h.author_eq] at hanswer
        exact hanswer
    | scan filter =>
        rw [answer, scan_run h.holds h.good]
        rfl
    | changes filter since =>
        rw [answer, changes_page h hmay, LogClient.answer]
        cases log.page filter since <;> rfl
  keeps := by
    intro client log request h hmay
    cases request with
    | write write =>
        obtain ⟨hwrote, hauthor, hgeneration⟩ := write_wrote h.holds h.good write
        rw [h.author_eq] at hwrote
        obtain ⟨hgood, more, hmore, _⟩ := Log.good_write h.good author write
        refine ⟨hwrote.holds, hgood, hauthor.trans h.author_eq, hgeneration.trans h.generation_eq,
          h.tokens, fun place hplace => ?_⟩
        have hle := h.places place hplace
        rw [LogClient.answer]
        simp only [hmore, List.length_append]
        omega
    | scan filter =>
        rw [answer, scan_run h.holds h.good]
        exact h
    | changes filter since =>
        rw [answer, changes_page h hmay, LogClient.answer]
        cases log.page filter since with
        | error e => exact h
        | ok events =>
            refine ⟨h.holds, h.good, h.author_eq, h.generation_eq, ?_, ?_⟩
            · show client.tokens ++ [token generation log.log.length] = _
              rw [h.tokens, List.map_append]
              rfl
            · exact List.forall_mem_append.mpr ⟨h.places, List.forall_mem_singleton.mpr le_rfl⟩

end SqliteEventStore

/-! ## Both stores -/

/-- Both stores hold the same events, in the order they were accepted, and read alike. -/
structure Agree (P : Packages) (memory : MemoryEventStore) (sqlite : SqliteEventStore) : Prop where
  accepted : sqlite.tables.events.map (fun row => decodeEventRow P row true) =
    memory.accepted.map DecodedEventRow.event
  scan : ∀ filter, (SqliteEventStore.scan P filter sqlite).1 = memory.scan filter
  tally : sqlite.tally = memory.tally

theorem agree_of_holds {memory : MemoryEventStore} {sqlite : SqliteEventStore} {log : Log}
    (hgood : log.Good P) (hmemory : memory.Holds log) (hsqlite : sqlite.Holds log) :
    Agree P memory sqlite where
  accepted := by
    rw [hsqlite.events, hmemory.accepted, List.map_map, ← SqliteEventStore.events_numbered, List.map_map]
    refine List.map_congr_left fun p hp => ?_
    exact (SqliteEventStore.accepted_numbered hgood p hp).decodeEventRow p.2 true
  scan filter := by
    rw [SqliteEventStore.scan_run hsqlite hgood, MemoryEventStore.scan_eq hmemory]
  tally := by
    rw [SqliteEventStore.tally_eq hsqlite, MemoryEventStore.tally_eq hmemory]

/-- A store that nothing was called on yet. -/
def Client.start {σ : Type} (store : σ) : Client σ := ⟨store, []⟩

/-- Any requests, none with a text that names a generation of the two stores, have the same
answers from both and leave both in agreement. -/
theorem sqlite_refines_memory (P : Packages) (author memory sqlite : JsString) (requests : List Request)
    (hmay : ∀ request ∈ requests, ¬ request.Names memory ∧ ¬ request.Names sqlite) :
    let inMemory := Machine.run (MemoryEventStore.answer P) (.start (.new author memory)) requests
    let overSqlite := Machine.run (SqliteEventStore.answer P) (.start (.new author sqlite)) requests
    overSqlite.1 = inMemory.1 ∧ Agree P inMemory.2.store overSqlite.2.store := by
  have hmemory := (MemoryEventStore.follows_log P author memory).run
    (s := .start (.new author memory)) (t := ⟨[], []⟩)
    ⟨MemoryEventStore.holds_new author memory, Log.good_nil, rfl, rfl, .nil⟩
    fun request hrequest => (hmay request hrequest).1
  have hsqlite := (SqliteEventStore.follows_log P author sqlite).run
    (s := .start (.new author sqlite)) (t := ⟨[], []⟩)
    ⟨SqliteEventStore.holds_new author sqlite, Log.good_nil, rfl, rfl, rfl, fun _ h => (by cases h)⟩
    fun request hrequest => (hmay request hrequest).2
  refine ⟨hsqlite.1.trans hmemory.1.symm, ?_⟩
  exact agree_of_holds hmemory.2.good hmemory.2.holds hsqlite.2.holds

/-- A note is appended and read, and an input that is no event leaves nothing to read after it. -/
theorem sqlite_refines_memory_example :
    let requests : List Request := [.write (.appendAll [exampleDraft] (some 0)),
      .changes none .start, .write (.ingest ⟨[.undefined], none⟩), .changes none (.page 0)]
    let inMemory := Machine.run (MemoryEventStore.answer examplePackages)
      (.start (.new exampleAuthor (lit "memory"))) requests
    let overSqlite := Machine.run (SqliteEventStore.answer examplePackages)
      (.start (.new exampleAuthor (lit "sqlite"))) requests
    overSqlite.1 = inMemory.1 ∧ Agree examplePackages inMemory.2.store overSqlite.2.store := by
  refine sqlite_refines_memory examplePackages exampleAuthor (lit "memory") (lit "sqlite") _ ?_
  simp [Request.Names]

end Estoc.EventStore
