import Estoc.EventStore.Event

/-!
# Events as rows

What crosses the SQLite boundary, the row an accepted event is written as, and what a
row read back is: the event it holds, or damage. Text comes back as its stored bytes,
since a JSON string may hold what a SQLite text value cannot carry across the boundary,
a NUL.
-/

set_option linter.unusedSectionVars false

namespace Estoc.EventStore

open Json (lit)
open Utf16 (JsString)
open Checked (refuse)

/-! ## Values of SQLite -/

inductive SqlValue where
  | text (s : JsString)
  | number (x : Binary64)
  | bytes (b : List UInt8)
  | null
deriving DecidableEq

/-- A string as an adapter may bind it. -/
def checkText (index : Nat) (s : JsString) : Except JsError JsString := do
  refuse (0 ∈ s) (.invalidSqlValue (lit "parameter " ++ decimal index ++
    lit ": a string with a NUL cannot cross a SQLite text boundary intact"))
  refuse (Utf16.loneSurrogate s = true) (.invalidSqlValue (lit "parameter " ++ decimal index ++
    lit ": an unpaired surrogate is not UTF-8 and would not come back as it went in"))
  pure s

/-- The string that stored bytes are as UTF-8, a NUL included. -/
def decodeColumn (bytes : List UInt8) (column : JsString) : Except JsError JsString :=
  match Utf16.decodeUtf8 bytes with
  | some s => pure s
  | none => throw (.invalidSqlValue (lit "column " ++ column ++
      lit ": the stored text is not valid UTF-8 and cannot be read exactly"))

/-- The string that stored bytes are, where they hold no NUL. -/
def decodeText (bytes : List UInt8) (column : JsString) : Except JsError JsString := do
  refuse (0 ∈ bytes) (.invalidSqlValue (lit "column " ++ column ++
    lit ": the stored text has a NUL and cannot cross a SQLite text boundary intact"))
  decodeColumn bytes column

/-! ## Rows -/

/-- A row of `EVENT_COLUMNS`. -/
structure EventRow where
  rowid : Nat
  cid : SqlValue
  at_ : SqlValue
  author : SqlValue
  type : SqlValue
  canonical : SqlValue
deriving DecidableEq

/-- Storage material that could not be read as an event. -/
structure Damaged where
  where_ : JsString
  bytes : Option (List UInt8)
  error : JsString
deriving DecidableEq

inductive DecodedEventRow where
  | event (event : Event)
  | damage (damage : Damaged)

/-- The row that an event is inserted as: `cid`, `at` and `author` bound as text, the
type as bytes cast to text. -/
def insertEvent (rowid : Nat) (event : Event) (bytes : List UInt8) : Except JsError EventRow := do
  let cid ← checkText 1 event.cid
  let at_ ← checkText 2 event.at_
  let author ← checkText 3 event.author
  pure ⟨rowid, .bytes (Utf16.encodeUtf8 cid), .bytes (Utf16.encodeUtf8 at_),
    .bytes (Utf16.encodeUtf8 author), .bytes (Utf16.encodeUtf8 event.type), .bytes bytes⟩

section
variable (P : Packages)

/-- `String(value)` of what is no bytes. -/
def stringOf : SqlValue → JsString
  | .text s => s
  | .number x => P.numbers.text x
  | .null => lit "null"
  | .bytes _ => []

/-- Where a row is: by its CID column when that is text, else by rowid. -/
def placeOf (row : EventRow) : JsString :=
  let rowid := lit "events/rowid " ++ decimal row.rowid
  match row.cid with
  | .bytes b =>
    match decodeText b CID with
    | .ok cid => lit "events/" ++ cid
    | .error _ => rowid
  | _ => rowid

/-- The column beside the event says what the event says. -/
def checkColumn (column : JsString) (value : SqlValue) (expected : JsString) :
    Except JsError Unit := do
  let text ← match value with
    | .bytes b => decodeColumn b column
    | value => pure (stringOf P value)
  refuse (text ≠ expected) (.error (lit "column " ++ column ++ lit " is " ++ JsValue.quote text ++
    lit ", not the event's " ++ JsValue.quote expected))

/-- The event of a row whose canonical column is these bytes. -/
def decodeBytes (row : EventRow) (bytes : List UInt8) (hash : Bool) : Except JsError Event := do
  let parsed ← parseStrict P bytes false
  let envelope ← validateEnvelope P ((parsed.map JsValue.ofJson).getD .undefined)
  let canonical ← canonicalEventBytes P envelope
  refuse (canonical ≠ bytes)
    (.error (lit "the stored bytes are not the envelope's canonical bytes"))
  let cid ← match row.cid with
    | .bytes b => decodeText b CID
    | value => pure (stringOf P value)
  refuse (isEventCid cid = false) (.error (lit "column cid " ++ JsValue.quote cid ++
    lit " is not a canonical raw DASL CID"))
  let computed := eventCidOfBytes P bytes
  refuse (hash = true ∧ cid ≠ computed)
    (.error (lit "column cid is " ++ cid ++ lit ", but the bytes hash to " ++ computed))
  checkColumn P AT_FIELD row.at_ envelope.at_
  checkColumn P AUTHOR row.author envelope.author
  checkColumn P TYPE row.type envelope.type
  pure { envelope with cid }

/-- The event that a row holds, or the damage it is; with `hash`, the bytes are hashed
against the CID column too. -/
def decodeEventRow (row : EventRow) (hash : Bool) : DecodedEventRow :=
  match row.canonical with
  | .bytes bytes =>
    match decodeBytes P row bytes hash with
    | .ok event => .event event
    | .error e => .damage ⟨placeOf row, some bytes, e.message⟩
  | _ => .damage ⟨placeOf row, none, lit "canonical is not bytes"⟩

end

end Estoc.EventStore
