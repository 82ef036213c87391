import Estoc.EventStore.Store

/-!
# The event store in memory

A map of the events by CID, beside them in the order they were accepted. Each write runs
in one step, so a call is a function of the store, and what throws has changed nothing.
-/

set_option linter.unusedSectionVars false

namespace Estoc.EventStore

open Json (lit)
open Utf16 (JsString)

structure MemoryEventStore where
  author : JsString
  generation : JsString
  held : OMap JsString Event
  accepted : List Event
  bytes : Nat

namespace MemoryEventStore

def new (author generation : JsString) : MemoryEventStore := ⟨author, generation, OMap.empty, [], 0⟩

variable (P : Packages) (store : MemoryEventStore)

/-- Add an event that the store does not hold. -/
def accept (held : Held) : MemoryEventStore :=
  { store with
    held := store.held.set held.cid held.event
    accepted := store.accepted ++ [held.event]
    bytes := store.bytes + held.bytes.length }

def acceptAll (staged : OMap JsString Held) : MemoryEventStore :=
  staged.values.foldl accept store

/-- The drafts from the first on, each as the event it is already or becomes. -/
def stage (at_ : JsString) : List Draft → OMap JsString Held → Except StoreError Staged
  | [], staged => .ok ⟨[], staged⟩
  | draft :: drafts, staged => do
    let incoming ← thrown (heldOf P draft at_ store.author)
    match (store.held.get? incoming.cid).or ((staged.get? incoming.cid).map Held.event) with
    | some have_ =>
      let rest ← stage at_ drafts staged
      .ok ⟨have_ :: rest.out, rest.staged⟩
    | none =>
      let rest ← stage at_ drafts (staged.set incoming.cid incoming)
      .ok ⟨incoming.event :: rest.out, rest.staged⟩

/-- `now` is what the clock reads, where it is read. -/
def appendAll (drafts : List JsValue) (now : Option Rat) :
    Except StoreError (List Event × MemoryEventStore) := do
  let clean ← validateDrafts P drafts
  if clean.isEmpty then .ok ([], store)
  else do
    let at_ ← thrown (sampleAt now)
    let staged ← stage P store at_ clean OMap.empty
    .ok (staged.out, store.acceptAll staged.staged)

def classify : List IngestInput → Classified → Classified
  | [], c => c
  | .rejected rejected :: rest, c => classify rest { c with rejected := c.rejected ++ [rejected] }
  | .held incoming :: rest, c =>
    if store.held.has incoming.cid || c.staged.has incoming.cid then
      classify rest { c with duplicates := c.duplicates + 1 }
    else if incoming.event.author = store.author then
      classify rest { c with forked := c.forked ++ [incoming.event] }
    else classify rest { c with staged := c.staged.set incoming.cid incoming }

def ingest (source : Source) : Except StoreError (Ingested × MemoryEventStore) := do
  let read ← readSource P source
  let c := classify store read .start
  if c.forked ≠ [] then .error (.forkedAuthor store.author c.forked)
  else .ok (⟨c.staged.size, c.duplicates, c.rejected⟩, store.acceptAll c.staged)

def scan (filter : Option Filter) : Except StoreError (List Event) := do
  thrown (checkFilter filter)
  .ok ((Cmp.sortBy compareEvents store.held.values).filter (matchesFilter · filter))

/-- The CID accepted last before a position. -/
def last (seq : Nat) : Option JsString :=
  if seq = 0 then none else store.accepted[seq - 1]?.map Event.cid

def token (seq : Nat) : ChangeToken := .object (some store.generation) (some seq) (some (store.last seq))

/-- The position a token names. -/
def place : ChangeToken → Except StoreError Nat
  | .malformed => .error (.badToken (lit "not a token of this store"))
  | .notObject => .error (.badToken (lit "not a token of this store generation"))
  | .object generation seq last =>
    if generation ≠ some store.generation then
      .error (.badToken (lit "not a token of this store generation"))
    else do
      let seq ← position seq store.accepted.length
      if last ≠ some (store.last seq) then
        .error (.badToken (lit "token names an event set this store does not hold"))
      else .ok seq

def changes (filter : Option Filter) (since : Option ChangeToken) :
    Except StoreError (ChangeToken × List Event) := do
  thrown (checkFilter filter)
  let to_ := store.accepted.length
  let from_ ← match since with
    | none => .ok 0
    | some token => store.place token
  .ok (store.token to_, ((store.accepted.take to_).drop from_).filter (matchesFilter · filter))

def tally : EventTally := ⟨store.held.size, store.bytes⟩

end MemoryEventStore

end Estoc.EventStore
