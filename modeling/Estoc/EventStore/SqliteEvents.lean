import Estoc.Lib.Sql
import Estoc.EventStore.Store

/-!
# The event store over SQLite

The `events` table, keyed by CID, and the local control that gives each accepted event a
position. A write is one transaction. What the connection holds is the database; what the
object keeps beside it is the damage it has met, and no transaction takes that back.
-/

set_option linter.unusedSectionVars false

namespace Estoc.EventStore

open Json (lit)
open Utf16 (JsString encodeUtf8)

/-- A row of `event_positions`: the position, and the CID as its stored text. -/
structure PositionRow where
  acceptedSeq : Nat
  cid : SqlValue
deriving DecidableEq

/-- The tables of the event store; `lastSeq` is the control row's, if it is there. -/
structure EventTables where
  events : List EventRow
  positions : List PositionRow
  lastSeq : Option Nat

structure SqliteEventStore where
  author : JsString
  generation : JsString
  writable : Bool
  tables : EventTables
  damage : Option Damaged
  known : List JsString
  surveyed : Bool

namespace SqliteEventStore

def new (author generation : JsString) : SqliteEventStore :=
  ⟨author, generation, true, ⟨[], [], some 0⟩, none, [], false⟩

abbrev Work (α : Type) := Effect SqliteEventStore StoreError α

open Effect (read change lift)

/-- What a transaction takes back where it fails. -/
def rollback (before after : SqliteEventStore) : SqliteEventStore :=
  { after with tables := before.tables }

def transaction {α : Type} (body : Work α) : Work α := Effect.atomically rollback body

/-! ## Rows -/

/-- The text of a column as its stored bytes. -/
def textColumn (s : JsString) : SqlValue := .bytes (encodeUtf8 s)

/-- TEXT compared as SQLite does, byte by byte. -/
def compareBinary (a b : SqlValue) : Ordering :=
  match a, b with
  | .bytes x, .bytes y => List.compareLex compare x y
  | .bytes _, _ => .gt
  | _, .bytes _ => .lt
  | _, _ => .eq

def EventRow.clash (a b : EventRow) : Bool := a.cid == b.cid

def PositionRow.clash (a b : PositionRow) : Bool := a.acceptedSeq == b.acceptedSeq || a.cid == b.cid

/-- The rowid SQLite gives the next row. -/
def nextRowid (rows : List EventRow) : Nat := (rows.map EventRow.rowid).foldl max 0 + 1

/-- What `eventFilterSql` narrows the rows to. -/
def conditions (filter : Option Filter) (row : EventRow) : Bool :=
  filter.all fun f => f.cid.all (fun cid => row.cid == textColumn cid) &&
    f.author.all (fun author => row.author == textColumn author) &&
    f.type.all fun type => row.type == textColumn type

/-- `ORDER BY e.at, e.cid`. -/
def byAtAndCid (a b : EventRow) : Ordering :=
  (compareBinary a.at_ b.at_).then (compareBinary a.cid b.cid)

/-- The rows accepted after one position and up to another, in that order. -/
def acceptedRows (tables : EventTables) (from_ upper : Nat) (filter : Option Filter) :
    List EventRow :=
  let positions := tables.positions.filter fun p =>
    from_ < p.acceptedSeq && p.acceptedSeq ≤ upper
  let joined := positions.flatMap fun p =>
    (tables.events.filter fun e => e.cid == p.cid && conditions filter e).map fun e => (p, e)
  (Cmp.sortBy (fun a b => compare a.1.acceptedSeq b.1.acceptedSeq) joined).map Prod.snd

/-- `length(canonical)`. -/
def lengthOf : SqlValue → Nat
  | .bytes b => b.length
  | .text s => s.length
  | _ => 0

section
variable (P : Packages)

/-! ## Damage -/

def noteDamage (decoded : DecodedEventRow) (place : Option JsString) : Work DecodedEventRow := do
  match decoded with
  | .damage damage => change fun s => { s with
      damage := s.damage.or (some damage)
      known := place.getD damage.where_ :: s.known }
  | .event _ => pure ()
  pure decoded

/-- The events that some rows decode to and that match, rows known damaged left out. -/
def select (filter : Option Filter) : List EventRow → Work (List Event)
  | [] => pure []
  | row :: rows => do
    let decoded ← noteDamage (decodeEventRow P row false) (some (placeOf row))
    let known ← read known
    let rest ← select filter rows
    match decoded with
    | .event event =>
      pure (if !known.contains (placeOf row) && matchesFilter event filter then event :: rest else rest)
    | .damage _ => pure rest

/-- Every row decoded and hashed against its CID, the damage found listed. -/
def surveyRows : List EventRow → Work (List Damaged)
  | [] => pure []
  | row :: rows => do
    let decoded ← noteDamage (decodeEventRow P row true) (some (placeOf row))
    let rest ← surveyRows rows
    match decoded with
    | .damage damage => pure (damage :: rest)
    | .event _ => pure rest

def survey : Work (List Damaged) := do
  let rows ← read fun s => s.tables.events
  let out ← surveyRows P rows
  change fun s => { s with surveyed := true }
  pure out

def surveyOnce (needed : Bool) : Work Unit := do
  if needed then
    let _ ← survey P
    pure ()
  else pure ()

/-- No write builds on a history that is incomplete. -/
def requireSound : Work Unit := do
  let needed ← read fun s => s.damage.isNone && !s.surveyed
  surveyOnce P needed
  let damage ← read damage
  match damage with
  | some damage => throw (.damagedHistory damage)
  | none => pure ()

def requireWritable (what : JsString) : Work Unit := do
  let writable ← read writable
  if writable then pure () else throw (.readOnlyVault what)

/-! ## Writes -/

/-- What is held under a CID. -/
def held (cid : JsString) : Work (Option Held) := do
  let row ← read fun s => s.tables.events.find? (·.cid == textColumn cid)
  match row with
  | none => pure none
  | some row =>
    let decoded ← noteDamage (decodeEventRow P row false) none
    match decoded with
    | .damage damage => throw (.damagedHistory damage)
    | .event event => pure (some ⟨event, match row.canonical with | .bytes b => b | _ => []⟩)

def lastSeq : Work Nat := do
  let last ← read fun s => s.tables.lastSeq
  match last with
  | some last => pure last
  | none => throw (.damagedControl (lit "the control row is gone"))

def unique {ρ : Type} : Except Sql.Fault (List ρ) → Except StoreError (List ρ)
  | .ok rows => .ok rows
  | .error _ => .error (.sqlite (lit "UNIQUE constraint failed"))

/-- One event, and its position. -/
def insertHeld (held : Held) (seq : Nat) (tables : EventTables) : Except StoreError EventTables := do
  let row ← thrown (insertEvent (nextRowid tables.events) held.event held.bytes)
  let events ← unique (Sql.insert EventRow.clash row tables.events)
  let cid ← thrown (checkText 2 held.cid)
  let positions ← unique (Sql.insert PositionRow.clash ⟨seq, textColumn cid⟩ tables.positions)
  pure { tables with events, positions }

/-- Some events from the next position on. -/
def insertAllHeld : List Held → (seq : Nat) → EventTables → Except StoreError EventTables
  | [], _, tables => .ok tables
  | held :: rest, seq, tables => do
    let tables ← insertHeld held seq tables
    insertAllHeld rest (seq + 1) tables

def acceptSome (held : List Held) : Work Unit := do
  let last ← lastSeq
  let tables ← read tables
  let tables ← lift (insertAllHeld held (last + 1) tables)
  change fun s => { s with tables := { tables with lastSeq := some (last + held.length) } }

def accept (held : List Held) : Work Unit :=
  if held.isEmpty then pure () else acceptSome held

/-- The drafts' events from the first on, each as the one it is already or new. -/
def stage : List Held → OMap JsString Held → Work Staged
  | [], staged => pure ⟨[], staged⟩
  | incoming :: rest, staged => do
    let here ← held P incoming.cid
    match here.or (staged.get? incoming.cid) with
    | some have_ =>
      let rest ← stage rest staged
      pure ⟨have_.event :: rest.out, rest.staged⟩
    | none =>
      let rest ← stage rest (staged.set incoming.cid incoming)
      pure ⟨incoming.event :: rest.out, rest.staged⟩

def appendHeld (incoming : List Held) : Work (List Event) := transaction do
  requireSound P
  let staged ← stage P incoming OMap.empty
  accept staged.staged.values
  pure staged.out

def appendClean (clean : List Draft) (now : Option Rat) : Work (List Event) := do
  requireWritable (lit "append")
  let at_ ← lift (thrown (sampleAt now))
  let author ← read author
  let incoming ← lift (thrown (clean.mapM fun draft => heldOf P draft at_ author))
  appendHeld P incoming

/-- `now` is what the clock reads, where it is read. -/
def appendAll (drafts : List JsValue) (now : Option Rat) : Work (List Event) := do
  let clean ← lift (validateDrafts P drafts)
  if clean.isEmpty then pure [] else appendClean P clean now

def classify (author : JsString) : List IngestInput → Classified → Work Classified
  | [], c => pure c
  | .rejected rejected :: rest, c =>
    classify author rest { c with rejected := c.rejected ++ [rejected] }
  | .held incoming :: rest, c => do
    let here ← held P incoming.cid
    if here.isSome || c.staged.has incoming.cid then
      classify author rest { c with duplicates := c.duplicates + 1 }
    else if incoming.event.author = author then
      classify author rest { c with forked := c.forked ++ [incoming.event] }
    else classify author rest { c with staged := c.staged.set incoming.cid incoming }

def ingestRead (input : List IngestInput) : Work Ingested := transaction do
  requireSound P
  let author ← read author
  let c ← classify P author input .start
  if c.forked ≠ [] then throw (.forkedAuthor author c.forked)
  else do
    accept c.staged.values
    pure ⟨c.staged.size, c.duplicates, c.rejected⟩

def ingest (source : Source) : Work Ingested := do
  requireWritable (lit "ingest")
  let input ← lift (readSource P source)
  ingestRead P input

/-! ## Reads -/

def scan (filter : Option Filter) : Work (List Event) := do
  lift (thrown (checkFilter filter))
  let rows ← read fun s => Cmp.sortBy byAtAndCid (s.tables.events.filter (conditions filter))
  select P filter rows

def token (generation : JsString) (seq : Nat) : ChangeToken := .object (some generation) (some seq) none

/-- The position a token names. -/
def place (generation : JsString) (upper : Nat) : ChangeToken → Except StoreError Nat
  | .malformed => .error (.badToken (lit "not a token of this store"))
  | .notObject => .error (.badToken (lit "not a token of this store generation"))
  | .object named seq _ =>
    if named ≠ some generation then
      .error (.badToken (lit "not a token of this store generation"))
    else position seq upper

def from_ (generation : JsString) (upper : Nat) (since : Option ChangeToken) :
    Except StoreError Nat :=
  match since with
  | none => .ok 0
  | some token => place generation upper token

def changes (filter : Option Filter) (since : Option ChangeToken) :
    Work (ChangeToken × List Event) := do
  lift (thrown (checkFilter filter))
  let upper ← lastSeq
  let generation ← read generation
  let lower ← lift (from_ generation upper since)
  let rows ← read fun s => acceptedRows s.tables lower upper filter
  let events ← select P filter rows
  pure (token generation upper, events)

end

def tally (store : SqliteEventStore) : EventTally :=
  ⟨store.tables.events.length, (store.tables.events.map fun row => lengthOf row.canonical).sum⟩

end SqliteEventStore

end Estoc.EventStore
