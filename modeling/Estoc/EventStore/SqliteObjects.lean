import Estoc.Lib.Effect
import Estoc.Lib.OMap
import Estoc.Lib.Sql
import Estoc.EventStore.Row

/-!
# The object store over SQLite

The objects and their chunks, what is staged of puts in flight, the damage that reads of
this session found, and for each CID the epoch: how often the session replaced or removed
what is held under it. The connection is synchronous, so each function here runs in one
step; what is awaited between them is a matter of the steps a store takes.
-/

set_option linter.unusedSectionVars false

namespace Estoc.EventStore

open Json (lit)
open Utf16 (JsString encodeUtf8)
open Estoc.Dasl (DaslCid parseCid RAW_CODE)
open Checked (refuse)

/-- The chunk size of the format. -/
def CHUNK_BYTES : Nat := 1024 * 1024

inductive ObjectError where
  | invalidCid (message : JsString)
  | damagedObject (cid : JsString)
  | digestMismatch (expected actual : JsString)
  | objectTooLarge (message : JsString)
  | stagingFull (maxStagedBytes staged : Nat)
  | interruptedRead (cid : JsString)
  | readOnlyVault (what : JsString)
  | error (message : JsString)
  | sqlite (fault : JsString)

/-- What is stored in a column of bytes: bytes, or else something with what `length` says of it. -/
inductive Cell where
  | blob (bytes : List UInt8)
  | other (length : Option Nat)
deriving DecidableEq

def Cell.length : Cell → Option Nat
  | .blob bytes => some bytes.length
  | .other length => length

/-- A row of `objects`, the size as its decimal text. -/
structure ObjectRow where
  rowid : Nat
  cid : SqlValue
  size : Option JsString
deriving DecidableEq

structure ChunkRow where
  cid : SqlValue
  chunkNo : Nat
  bytes : Cell
deriving DecidableEq

/-- A row of the staging table. -/
structure StagedChunk where
  token : Nat
  chunkNo : Nat
  bytes : List UInt8
deriving DecidableEq

structure ObjectTables where
  objects : List ObjectRow
  chunks : List ChunkRow
  staging : List StagedChunk

/-- An object verified and staged, not yet accepted. -/
structure Staged.Object where
  cid : DaslCid
  size : Nat
  token : Nat

inductive Acceptance where
  | new
  | repaired
  | kept
deriving DecidableEq

structure ObjectInfo where
  cid : JsString
  size : Nat

/-- What a read finds under a CID: the accepted size, and the epoch it belongs to. -/
structure Present where
  size : Nat
  epoch : Nat

structure SqliteObjectStore where
  writable : Bool
  maxObjectBytes : Nat
  maxStagedBytes : Nat
  tables : ObjectTables
  tokens : Nat
  stagedBytesByToken : OMap Nat Nat
  stagedBytes : Nat
  damage : OMap JsString Damaged
  epochs : OMap JsString Nat

/-- The CID that a text names, if it is a canonical raw one. -/
def rawCidOf (cid : JsString) : Except ObjectError DaslCid :=
  match parseCid cid with
  | .error message => .error (.invalidCid (JsValue.quote cid ++ lit ": " ++ lit message))
  | .ok parsed =>
    if parsed.code ≠ RAW_CODE then
      .error (.invalidCid (cid ++ lit " is not a raw CID (codec 0x" ++
        lit (String.ofList (Nat.toDigits 16 parsed.code.toNat)) ++ lit ")"))
    else .ok parsed

/-- The count that a text spells: digits without a leading zero, sixteen at most, and a safe integer. -/
def countOf (text : JsString) : Option Nat :=
  let value := text.foldl (fun n u => 10 * n + (u.toNat - 0x30)) 0
  if text ≠ [] ∧ text.length ≤ 16 ∧ text.all Json.isDigit ∧ (text = lit "0" ∨ text.head? ≠ some 0x30) ∧
      value < 2 ^ 53 then some value
  else none

/-- Binary-CID byte order. -/
def compareCids (a b : JsString) : Ordering :=
  let bytes (cid : JsString) : List UInt8 := match parseCid cid with
    | .ok cid => cid.bytes
    | .error _ => []
  Dasl.compareBytes (bytes a) (bytes b)

/-- CIDs unique and in binary-CID byte order. -/
def sortCids (cids : List JsString) : List JsString := Cmp.sortBy compareCids cids.dedup

namespace SqliteObjectStore

abbrev Work (α : Type) := Effect SqliteObjectStore ObjectError α

open Effect (read change lift)

/-- What a transaction takes back where it fails. -/
def rollback (before after : SqliteObjectStore) : SqliteObjectStore :=
  { after with tables := before.tables }

def textColumn (s : JsString) : SqlValue := .bytes (encodeUtf8 s)

def epoch (store : SqliteObjectStore) (cid : JsString) : Nat := (store.epochs.get? cid).getD 0

/-- What `move` leaves: the epoch of a CID one on. -/
def moved (cid : JsString) (store : SqliteObjectStore) : SqliteObjectStore :=
  { store with epochs := store.epochs.set cid (store.epoch cid + 1) }

def move (cid : JsString) : Work Unit := change (moved cid)

def condemned (cid error : JsString) (store : SqliteObjectStore) : SqliteObjectStore :=
  { store with damage := store.damage.set cid ⟨lit "objects/" ++ cid, none, error⟩ }

def condemn (cid error : JsString) : Work Unit := change (condemned cid error)

def requireWritable (what : JsString) : Work Unit := do
  let writable ← read writable
  if writable then pure () else throw (.readOnlyVault what)

/-! ## Staging -/

/-- A put that reads its source: what the packer holds, and the bytes hashed so far. -/
structure Put where
  want : Option DaslCid
  token : Nat
  filled : List UInt8
  chunkNo : Nat
  hashed : List UInt8

/-- Bytes as full extents, and what remains. -/
def pack (extentBytes : Nat) (bytes : List UInt8) : List (List UInt8) × List UInt8 :=
  if h : 0 < extentBytes ∧ extentBytes ≤ bytes.length then
    have _shorter : (bytes.drop extentBytes).length < bytes.length := by
      have := h.1
      have := h.2
      rw [List.length_drop]
      omega
    let (extents, rest) := pack extentBytes (bytes.drop extentBytes)
    (bytes.take extentBytes :: extents, rest)
  else ([], bytes)
termination_by bytes.length

def drop (token : Nat) : Work Unit := change fun s => { s with
  tables := { s.tables with staging := Sql.delete (·.token == token) s.tables.staging }
  stagedBytes := s.stagedBytes - (s.stagedBytesByToken.get? token).getD 0
  stagedBytesByToken := s.stagedBytesByToken.erase token }

/-- One full chunk into the staging table, unless it would take what is staged past the bound. -/
def seal_ (put : Put) (chunk : List UInt8) : Work Put := do
  let s ← read id
  if s.maxStagedBytes < s.stagedBytes + chunk.length then
    throw (.stagingFull s.maxStagedBytes s.stagedBytes)
  else do
    change fun s => { s with
      tables := { s.tables with staging := s.tables.staging ++ [⟨put.token, put.chunkNo, chunk⟩] }
      stagedBytes := s.stagedBytes + chunk.length
      stagedBytesByToken := s.stagedBytesByToken.set put.token
        ((s.stagedBytesByToken.get? put.token).getD 0 + chunk.length) }
    pure { put with chunkNo := put.chunkNo + 1 }

def sealAll : List (List UInt8) → Put → Work Put
  | [], put => pure put
  | chunk :: chunks, put => do
    let put ← seal_ put chunk
    sealAll chunks put

/-- The start of a put's reading: a fresh token. -/
def begin_ (want : Option DaslCid) : Work Put := do
  change fun s => { s with tokens := s.tokens + 1 }
  let token ← read tokens
  pure ⟨want, token, [], 0, []⟩

/-- One chunk of the source. -/
def feed (put : Put) (chunk : List UInt8) : Work Put := do
  let bound ← read maxObjectBytes
  if bound < put.hashed.length + chunk.length then
    throw (.objectTooLarge (lit "the object is larger than the " ++ decimal bound ++ lit "-byte bound"))
  else do
    let (extents, filled) := pack CHUNK_BYTES (put.filled ++ chunk)
    sealAll extents { put with hashed := put.hashed ++ chunk, filled }

/-- What the packer holds at the end, as the last chunk. -/
def packLast (put : Put) : Work Put := if put.filled = [] then pure put else seal_ put put.filled

section
variable (P : Packages)

/-- The end of the source: the CID checked. -/
def finish (put : Put) : Work Staged.Object := do
  let put ← packLast put
  let got := rawCidFromDigest (P.sha256 put.hashed)
  match put.want with
  | some want =>
    if got.text ≠ want.text then throw (.digestMismatch want.text got.text)
    else pure ⟨got, put.hashed.length, put.token⟩
  | none => pure ⟨got, put.hashed.length, put.token⟩

end

/-! ## Acceptance -/

def unique {ρ : Type} : Except Sql.Fault (List ρ) → Except ObjectError (List ρ)
  | .ok rows => .ok rows
  | .error _ => .error (.sqlite (lit "UNIQUE constraint failed"))

def ObjectRow.clash (a b : ObjectRow) : Bool := a.rowid == b.rowid || a.cid == b.cid

def ChunkRow.clash (a b : ChunkRow) : Bool := a.cid == b.cid && a.chunkNo == b.chunkNo

def nextRowid (rows : List ObjectRow) : Nat := (rows.map ObjectRow.rowid).foldl max 0 + 1

/-- The rows of an object, and its chunks, gone. -/
def deleted (cid : JsString) (tables : ObjectTables) : ObjectTables :=
  { tables with
    objects := Sql.delete (·.cid == textColumn cid) tables.objects
    chunks := Sql.delete (·.cid == textColumn cid) tables.chunks }

/-- The row of a staged object, and its chunks moved under its CID. -/
def inserted (staged : Staged.Object) (tables : ObjectTables) : Except ObjectError ObjectTables := do
  let cid := textColumn staged.cid.text
  let objects ← unique (Sql.insert ObjectRow.clash
    ⟨nextRowid tables.objects, cid, some (decimal staged.size)⟩ tables.objects)
  let chunks ← unique (Sql.insertAll ChunkRow.clash
    ((tables.staging.filter (·.token == staged.token)).map fun c => ⟨cid, c.chunkNo, .blob c.bytes⟩)
    tables.chunks)
  pure { tables with objects, chunks }

def insert (staged : Staged.Object) : Work Unit := do
  let tables ← read tables
  let tables ← lift (inserted staged tables)
  change fun s => { s with tables }
  drop staged.token

/-- Accept what is staged: an object held sound is kept, one known damaged is replaced whole. -/
def accept (staged : Staged.Object) : Work Acceptance := do
  let cid := staged.cid.text
  let have_ ← read fun s => s.tables.objects.any (·.cid == textColumn cid)
  let damaged ← read fun s => s.damage.has cid
  if have_ && !damaged then do
    drop staged.token
    pure .kept
  else if have_ then do
    move cid
    change fun s => { s with tables := deleted cid s.tables }
    insert staged
    pure .repaired
  else do
    insert staged
    pure .new

/-! ## Reads -/

/-- What is accepted under a CID, or none; every read starts here. -/
def sound (cid : JsString) : Work (Option Present) := do
  let _ ← lift (rawCidOf cid)
  let s ← read id
  if s.damage.has cid then throw (.damagedObject cid)
  else match s.tables.objects.find? (·.cid == textColumn cid) with
    | none => pure none
    | some row =>
      match row.size.bind countOf with
      | some size => pure (some ⟨size, s.epoch cid⟩)
      | none => do
        condemn cid (lit "size " ++ (row.size.getD (lit "null")) ++ lit " is not a count")
        throw (.damagedObject cid)

/-- A read under way: the bytes hashed so far, and how many chunks and bytes they are. -/
structure ObjectRead where
  cid : JsString
  size : Nat
  epoch : Nat
  hashed : List UInt8
  chunks : Nat
  got : Nat

def ObjectRead.start (cid : JsString) (present : Present) : ObjectRead :=
  ⟨cid, present.size, present.epoch, [], 0, 0⟩

def fail {α : Type} (read : ObjectRead) (error : JsString) : Work α := do
  condemn read.cid error
  throw (.damagedObject read.cid)

/-- The chunk that comes next, as the layout gives it. -/
def nextChunk (read : ObjectRead) : Work (Option (List UInt8) × ObjectRead) := do
  let chunks ← Effect.read fun s => s.tables.chunks
  match chunks.find? fun c => c.cid == textColumn read.cid && c.chunkNo == read.chunks with
  | none => fail read (lit "chunk " ++ decimal read.chunks ++ lit " is missing: " ++ decimal read.chunks ++
      lit " chunk(s) hold " ++ decimal read.got ++ lit " bytes of the object's " ++ decimal read.size)
  | some found =>
    let expected := min CHUNK_BYTES (read.size - read.got)
    if found.bytes.length ≠ some expected then
      fail read (lit "chunk " ++ decimal read.chunks ++ lit " holds " ++
        (found.bytes.length.elim (lit "null") decimal) ++ lit " bytes, not the " ++ decimal expected ++
        lit " the layout gives it")
    else match found.bytes with
      | .other _ => fail read (lit "chunk " ++ decimal read.chunks ++ lit " is not bytes")
      | .blob bytes => pure (some bytes, { read with
          chunks := read.chunks + 1
          got := read.got + bytes.length
          hashed := read.hashed ++ bytes })

section
variable (P : Packages)

/-- The end of a read: as many chunks as the size takes, and the bytes hashing to the CID. -/
def verify (read : ObjectRead) : Work (Option (List UInt8) × ObjectRead) := do
  let count ← Effect.read fun s => (s.tables.chunks.filter (·.cid == textColumn read.cid)).length
  if count ≠ read.chunks then
    fail read (decimal count ++ lit " chunk(s) are stored where the object's " ++ decimal read.size ++
      lit " bytes take " ++ decimal read.chunks)
  else do
    let cid ← lift (rawCidOf read.cid)
    if (P.sha256 read.hashed).bytes ≠ cid.digest then fail read (lit "the bytes do not hash to the CID")
    else pure (none, read)

/-- The next chunk of a read, or none once the object was read whole. -/
def next_ (read : ObjectRead) : Work (Option (List UInt8) × ObjectRead) := do
  let s ← Effect.read id
  if s.epoch read.cid ≠ read.epoch then throw (.interruptedRead read.cid)
  else if read.got < read.size then nextChunk read
  else verify P read

end

def open_ (cid : JsString) : Work (Option ObjectRead) := do
  let present ← sound cid
  pure (present.map (ObjectRead.start cid))

def stat (cid : JsString) : Work (Option ObjectInfo) := do
  let present ← sound cid
  pure (present.map fun present => ⟨cid, present.size⟩)

def has (cid : JsString) : Work Bool := do
  let present ← sound cid
  pure present.isSome

/-! ## Collection -/

/-- The CID that a row is keyed by, or none, and the row known damaged. -/
def name (row : ObjectRow) : Work (Option JsString) := do
  let where_ := lit "objects/rowid " ++ decimal row.rowid
  match row.cid with
  | .bytes stored =>
    match decodeText stored (lit "objects.cid") with
    | .error e => do
      change fun s => { s with damage := s.damage.set where_ ⟨where_, none, e.message⟩ }
      pure none
    | .ok text =>
      match rawCidOf text with
      | .ok cid => pure (some cid.text)
      | .error (.invalidCid message) => do
        change fun s => { s with damage := s.damage.set where_ ⟨where_, none, message⟩ }
        pure none
      | .error _ => pure none
  | _ => do
    change fun s => { s with damage := s.damage.set where_ ⟨where_, none, lit "the key is not text"⟩ }
    pure none

/-- The row, and the chunks under its CID, gone. -/
def remove (row : ObjectRow) : Work Unit := change fun s => { s with
  tables := { s.tables with
    chunks := Sql.delete (fun c => s.tables.objects.any fun o => o.rowid == row.rowid && o.cid == c.cid)
      s.tables.chunks
    objects := Sql.delete (·.rowid == row.rowid) s.tables.objects } }

/-- The rows not kept removed, one after the other; what was removed. -/
def removeRows (kept : List JsString) : List ObjectRow → Work (List JsString)
  | [] => pure []
  | row :: rows => do
    let cid ← name row
    match cid with
    | some cid =>
      if cid ∈ kept then removeRows kept rows
      else do
        remove row
        let removed ← removeRows kept rows
        pure (cid :: removed)
    | none => do
      remove row
      change fun s => { s with damage := s.damage.erase (lit "objects/rowid " ++ decimal row.rowid) }
      removeRows kept rows

/-- What was removed is gone for every read from here, its damage with it. -/
def forget : List JsString → Work Unit
  | [] => pure ()
  | cid :: cids => do
    move cid
    change fun s => { s with damage := s.damage.erase cid }
    forget cids

/-- The objects not kept removed; which they were. -/
def collect (keep : List JsString) : Work (List JsString) := do
  requireWritable (lit "collect")
  let kept ← lift (keep.mapM rawCidOf)
  let removed ← Effect.atomically rollback do
    let rows ← read fun s => s.tables.objects
    removeRows (kept.map DaslCid.text) rows
  forget removed
  pure (sortCids removed)

end SqliteObjectStore

end Estoc.EventStore
