import Estoc.EventStore.Staging
import Estoc.EventStore.Streams

/-!
# The staging's accounts over a store's life

The steps a store takes, with what the accounts are told apart by: which preparations have ended,
and which have published in a transaction that was taken back. A commit resolves only where the
transaction it published in was committed. A connection whose commit was not reported stops: it
refuses whatever is asked of it, and what preparations do from there is done without it.
-/

set_option linter.unusedSectionVars false

namespace Estoc.EventStore

open Utf16 (JsString)

/-- A store as it is opened: nothing staged, and nothing counted. -/
def SqliteObjectStore.opened (writable : Bool) (maxObjectBytes maxStagedBytes tokens : Nat)
    (objects : List ObjectRow) (chunks : List ChunkRow) : SqliteObjectStore where
  writable := writable
  maxObjectBytes := maxObjectBytes
  maxStagedBytes := maxStagedBytes
  tables := ⟨objects, chunks, []⟩
  tokens := tokens
  stagedBytesByToken := .empty
  stagedBytes := 0
  damage := .empty
  epochs := .empty

namespace Accounts

open Streams (Flight)

structure State where
  streams : Streams.State
  /-- The preparations whose transaction did not commit, as far as is known. -/
  failed : List Nat
  /-- The preparations that have ended. -/
  finished : List Nat
  stopped : Bool

inductive Turn where
  | step (step : Streams.Step)
  /-- The commit a preparation published in is not reported, whether it landed or not. -/
  | loses (i : Nat) (landed : Bool)
  /-- The commit of another transaction is not reported. -/
  | stops

/-- The preparation whose transaction a step takes back, if it does. -/
def takesBack (st : Streams.State) : Streams.Step → List Nat
  | .publish i more =>
    match st.preparations[i]? with
    | none => []
    | some prepared =>
      match SqlitePreparation.transaction more ⟨st.store, prepared⟩ with
      | (.ok _, _) => []
      | (.error _, p) => if prepared.phase = .staging ∧ p.prepared.phase = .published then [i] else []
  | _ => []

/-- The preparation that a step ends, if it does. -/
def ends (st : Streams.State) : Streams.Step → List Nat
  | .finishUp i =>
    match st.preparations[i]? with
    | none => []
    | some prepared => if prepared.phase = .ended ∧ prepared.reading = 0 then [i] else []
  | _ => []

section
variable (P : Packages)

/-- A step over a connection that stopped. What is staged stays as it is: a chunk is not inserted,
and nothing is dropped. Reads and transactions are refused. -/
def stoppedStep (st : Streams.State) : Streams.Step → Streams.State
  | .prepare => st.step P .prepare
  | .putObject i cid =>
    match st.preparations[i]? with
    | none => st
    | some prepared =>
      match st.through i prepared (SqlitePreparation.putObject cid) with
      | (.ok _, st) => { st with puts := st.puts ++ [(i, .over)] }
      | (.error _, st) => st
  | .putRaw i =>
    match st.preparations[i]? with
    | none => st
    | some prepared =>
      match st.through i prepared SqlitePreparation.putRaw with
      | (.ok _, st) => { st with puts := st.puts ++ [(i, .over)] }
      | (.error _, st) => st
  | .feed k chunk =>
    match st.puts[k]? with
    | some (i, .reading put) =>
      let (extents, filled) := SqliteObjectStore.pack CHUNK_BYTES (put.filled ++ chunk)
      if st.store.maxObjectBytes < put.hashed.length + chunk.length ∨ extents ≠ [] then
        { st with puts := st.puts.set k (i, .over) }
      else { st with puts := st.puts.set k (i, .reading { put with hashed := put.hashed ++ chunk, filled }) }
    | _ => st
  | .finish k =>
    match st.puts[k]? with
    | some (i, .reading put) =>
      if put.filled = [] then
        match SqliteObjectStore.finish P put st.store with
        | (.ok object, _) => { st with puts := st.puts.set k (i, .staged object) }
        | (.error _, _) => { st with puts := st.puts.set k (i, .over) }
      else { st with puts := st.puts.set k (i, .over) }
    | _ => st
  | .abandon k _ =>
    match st.puts[k]? with
    | some (i, .reading _) => { st with puts := st.puts.set k (i, .over) }
    | _ => st
  | .hold k =>
    match st.puts[k]? with
    | some (i, .staged object) =>
      match st.preparations[i]? with
      | none => st
      | some prepared =>
        -- What was staged of the CID before is dropped first, which throws.
        if (prepared.held object).isSome then { st with puts := st.puts.set k (i, .over) }
        else st.step P (.hold k)
    | _ => st
  | .settle k => st.step P (.settle k)
  | .reuse i cid => st.step P (.reuse i cid)
  | .leave i resolved => st.step P (.leave i resolved)
  | .finishUp i =>
    match st.preparations[i]? with
    | none => st
    | some prepared =>
      if prepared.forgives then st.step P (.finishUp i)
      else if prepared.phase = .ended ∧ prepared.reading = 0 then
        let prepared := { prepared with staged := .empty, reused := [], repaired := [] }
        { st with preparations := st.preparations.set i prepared }
      else st
  | .hasPrepared _ _ | .publish _ _ | .collect _ | .stat _ | .has _ | .open_ _ | .next_ _ => st

namespace State

def new (store : SqliteObjectStore) : State := ⟨.new store, [], [], false⟩

variable (st : State)

/-- `commit` resolving means that the transaction it published in committed. -/
def resolves : Streams.Step → Bool
  | .leave i true => i ∉ st.failed
  | _ => true

def turn : Turn → State
  | .step step =>
    if st.resolves step = false then st
    else if st.stopped then { st with
      streams := stoppedStep P st.streams step
      finished := st.finished ++ ends st.streams step }
    else { st with
      streams := st.streams.step P step
      failed := st.failed ++ takesBack st.streams step
      finished := st.finished ++ ends st.streams step }
  | .loses i landed =>
    if st.stopped then st
    else match st.streams.preparations[i]? with
      | none => st
      | some prepared =>
        match st.streams.through i prepared (SqlitePreparation.transaction (.ok ())) with
        | (.error _, _) => st
        | (.ok _, streams) =>
          let lost := { streams with store := SqliteObjectStore.rollback st.streams.store streams.store }
          { st with
            streams := if landed then streams else lost
            failed := st.failed ++ [i]
            stopped := true }
  | .stops => { st with stopped := true }

def run (turns : List Turn) : State := turns.foldl (turn P) st

end State

end

/-! ## What owns a token -/

/-- The token a put stages under, until what it staged is held. -/
def tokenOf : Flight → Option Nat
  | .reading put => some put.token
  | .staged object => some object.token
  | .over => none

def inFlight (puts : List (Nat × Flight)) : List Nat := puts.filterMap fun put => tokenOf put.2

def heldTokens (preparations : List SqlitePreparation) : List Nat :=
  preparations.flatMap SqlitePreparation.tokens

/-- The tokens that something is staged under. -/
def owned (st : Streams.State) : List Nat := inFlight st.puts ++ heldTokens st.preparations

end Accounts

end Estoc.EventStore
