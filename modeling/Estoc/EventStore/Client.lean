import Estoc.EventStore.MemoryLog
import Estoc.EventStore.SqliteLog

/-!
# Calls on a store

The calls a client makes, and what both stores and the log answer to them. A token is
a store's own, so that a client that has the same pages of two stores asks each for what
came after a page by the token of that page.
-/

set_option linter.unusedSectionVars false

namespace Estoc.EventStore

open Json (lit)
open Utf16 (JsString)

/-- A write, with what the clock reads for it. -/
inductive Write where
  | appendAll (drafts : List JsValue) (now : Option Rat)
  | ingest (source : Source)

/-- Where changes are asked from: the start, the token of an earlier page, or some text. -/
inductive Since where
  | start
  | page (k : Nat)
  | text (token : ChangeToken)

inductive Request where
  | write (write : Write)
  | scan (filter : Option Filter)
  | changes (filter : Option Filter) (since : Since)

inductive Answer where
  | refused (error : StoreError)
  | appended (events : List Event)
  | ingested (outcome : Ingested)
  | events (events : List Event)

/-- The events that a call with this answer added. -/
def Answer.Adds (added : List Event) : Answer → Prop
  | .refused _ => added = []
  | .appended out => ∀ event ∈ added, event ∈ out
  | .ingested outcome => added.length = outcome.added
  | .events _ => added = []

def Answer.of {α : Type} (answer : α → Answer) : Except StoreError α → Answer
  | .ok a => answer a
  | .error e => .refused e

/-- A call that throws has changed nothing. -/
def settle {α σ : Type} (answer : α → Answer) (s : σ) : Except StoreError (α × σ) → Answer × σ
  | .ok (a, s) => (answer a, s)
  | .error e => (.refused e, s)

/-- A store, and the tokens of the pages it gave. -/
structure Client (σ : Type) where
  store : σ
  tokens : List ChangeToken

def Since.token (tokens : List ChangeToken) : Since → Option ChangeToken
  | .start => none
  | .page k => tokens[k]?
  | .text token => some token

/-- A page, and its token kept. -/
def Client.page {σ : Type} (client : Client σ) :
    Except StoreError (ChangeToken × List Event) → Answer × Client σ
  | .ok (token, events) => (.events events, { client with tokens := client.tokens ++ [token] })
  | .error e => (.refused e, client)

section
variable (P : Packages)

namespace MemoryEventStore

def write (store : MemoryEventStore) : Write → Answer × MemoryEventStore
  | .appendAll drafts now => settle .appended store (store.appendAll P drafts now)
  | .ingest source => settle .ingested store (store.ingest P source)

def answer (client : Client MemoryEventStore) : Request → Answer × Client MemoryEventStore
  | .write write =>
    let (answer, store) := client.store.write P write
    (answer, { client with store })
  | .scan filter => (.of .events (client.store.scan filter), client)
  | .changes filter since => client.page (client.store.changes filter (since.token client.tokens))

end MemoryEventStore

namespace SqliteEventStore

def write (store : SqliteEventStore) : Write → Answer × SqliteEventStore
  | .appendAll drafts now =>
    let (result, store) := appendAll P drafts now store
    (.of .appended result, store)
  | .ingest source =>
    let (result, store) := ingest P source store
    (.of .ingested result, store)

def answer (client : Client SqliteEventStore) : Request → Answer × Client SqliteEventStore
  | .write write =>
    let (answer, store) := client.store.write P write
    (answer, { client with store })
  | .scan filter =>
    let (result, store) := scan P filter client.store
    (.of .events result, { client with store })
  | .changes filter since =>
    let (result, store) := changes P filter (since.token client.tokens) client.store
    { client with store }.page result

end SqliteEventStore

namespace Log

def write (author : JsString) (log : Log) : Write → Answer × Log
  | .appendAll drafts now => settle .appended log (log.appendAll P author drafts now)
  | .ingest source => settle .ingested log (log.ingest P author source)

end Log

end

/-! ## Writes -/

variable {P : Packages} {log : Log}

namespace Log

/-- What is staged anew is among the events given back. -/
theorem mem_stage {log incoming staged : Log} {held : Held} (h : held ∈ (stage log incoming staged).2) :
    held ∈ staged ∨ held.event ∈ (stage log incoming staged).1 := by
  induction incoming generalizing staged with
  | nil => exact .inl h
  | cons incoming rest ih =>
      rw [stage] at h ⊢
      cases hfind : Log.find (log ++ staged) incoming.cid with
      | some have_ =>
          rw [hfind] at h
          exact (ih h).imp_right (List.mem_cons_of_mem _)
      | none =>
          rw [hfind] at h
          rcases ih h with hstaged | hout
          · rcases List.mem_append.mp hstaged with hstaged | hnew
            · exact .inl hstaged
            · rw [List.mem_singleton.mp hnew]
              exact .inr List.mem_cons_self
          · exact .inr (List.mem_cons_of_mem _ hout)

/-- What a write leaves: the log, with what it added at its end. -/
theorem good_write (h : log.Good P) (author : JsString) (write : Write) :
    (log.write P author write).2.Good P ∧ ∃ more, (log.write P author write).2 = log ++ more ∧
      (log.write P author write).1.Adds more.events := by
  have hrefused (e : StoreError) : log.Good P ∧ ∃ more, log = log ++ more ∧ (Answer.refused e).Adds more.events :=
    ⟨h, [], (List.append_nil log).symm, rfl⟩
  cases write with
  | appendAll drafts now =>
      rw [Log.write, Log.appendAll]
      cases validateDrafts P drafts with
      | error e => exact hrefused e
      | ok clean =>
          rw [Checked.ok_bind]
          split
          · exact ⟨h, [], (List.append_nil log).symm, fun _ hevent => (by cases hevent)⟩
          cases sampleAt now with
          | error e => exact hrefused (.js e)
          | ok at_ =>
              simp only [thrown, Checked.ok_bind]
              cases hincoming : clean.mapM fun draft => heldOf P draft at_ author with
              | error e => exact hrefused (.js e)
              | ok incoming =>
                  refine ⟨good_stage ?_ (accepted_heldOf hincoming), _, rfl, ?_⟩
                  · rwa [List.append_nil]
                  · intro event hevent
                    obtain ⟨held, hheld, rfl⟩ := List.mem_map.mp hevent
                    exact (mem_stage hheld).resolve_left List.not_mem_nil
  | ingest source =>
      rw [Log.write, Log.ingest]
      cases hread : readSource P source with
      | error e => exact hrefused e
      | ok input =>
          rw [Checked.ok_bind, ingestRead]
          split
          · exact hrefused _
          · refine ⟨good_classify ?_ (accepted_readSource hread), _, rfl, List.length_map _⟩
            rwa [Sorted.start, List.append_nil]

end Log

/-- The write of a store that holds a log. -/
structure Wrote {σ : Type} (Holds : σ → Log → Prop) (result : Answer × σ)
    (expected : Answer × Log) : Prop where
  answer : result.1 = expected.1
  holds : Holds result.2 expected.2

theorem MemoryEventStore.write_wrote {store : MemoryEventStore} (h : store.Holds log)
    (hgood : log.Good P) (write : Write) :
    Wrote MemoryEventStore.Holds (store.write P write) (log.write P store.author write) ∧
      (store.write P write).2.author = store.author ∧
      (store.write P write).2.generation = store.generation := by
  have hsettle {α : Type} {answer : α → Answer} {result : Except StoreError (α × MemoryEventStore)}
      {expected : Except StoreError (α × Log)} (hanswers : store.Answers result expected) :
      Wrote MemoryEventStore.Holds (settle answer store result) (settle answer log expected) ∧
        (settle answer store result).2.author = store.author ∧
        (settle answer store result).2.generation = store.generation := by
    cases expected with
    | error e =>
        rw [show result = .error e from hanswers]
        exact ⟨⟨rfl, h⟩, rfl, rfl⟩
    | ok expected =>
        obtain ⟨store', hresult, hholds, hauthor, hgeneration⟩ := hanswers
        rw [hresult]
        exact ⟨⟨rfl, hholds⟩, hauthor, hgeneration⟩
  cases write with
  | appendAll drafts now => exact hsettle (appendAll_answers h hgood drafts now)
  | ingest source => exact hsettle (ingest_answers h hgood source)

theorem SqliteEventStore.write_wrote {store : SqliteEventStore} (h : store.Holds log)
    (hgood : log.Good P) (write : Write) :
    Wrote SqliteEventStore.Holds (store.write P write) (log.write P store.author write) ∧
      (store.write P write).2.author = store.author ∧
      (store.write P write).2.generation = store.generation := by
  have hsettle {α : Type} {answer : α → Answer} {result : Except StoreError α × SqliteEventStore}
      {expected : Except StoreError (α × Log)} (hanswers : store.Answers log result expected) :
      Wrote SqliteEventStore.Holds (.of answer result.1, result.2) (settle answer log expected) ∧
        result.2.author = store.author ∧ result.2.generation = store.generation := by
    obtain ⟨hanswer, hholds, hauthor, hgeneration⟩ := hanswers
    refine ⟨?_, hauthor, hgeneration⟩
    rw [hanswer]
    cases expected with
    | error e => exact ⟨rfl, hholds⟩
    | ok expected => exact ⟨rfl, hholds⟩
  cases write with
  | appendAll drafts now => exact hsettle (appendAll_answers h hgood drafts now)
  | ingest source => exact hsettle (ingest_answers h hgood source)

end Estoc.EventStore
