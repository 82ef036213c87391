import Estoc.Lib.Effect
import Estoc.Lib.OMap
import Estoc.EventStore.Row

/-!
# What an event store is asked and answers

The parts that every backend of the interface shares: what is held, what is refused,
the input of an ingest read whole, and change tokens.
-/

set_option linter.unusedSectionVars false

namespace Estoc.EventStore

open Json (lit)
open Utf16 (JsString)
open Checked (refuse)

/-- One accepted event and the canonical bytes it is equal by. -/
structure Held where
  event : Event
  bytes : List UInt8

def Held.cid (held : Held) : JsString := held.event.cid

inductive StoreError where
  | js (error : JsError)
  | forkedAuthor (author : JsString) (events : List Event)
  | badToken (message : JsString)
  | damagedHistory (damage : Damaged)
  | damagedControl (message : JsString)
  | readOnlyVault (what : JsString)
  | sqlite (fault : JsString)

/-- An input that is no event, with why. -/
structure Rejected where
  value : JsValue
  error : JsString

structure Ingested where
  added : Nat
  duplicates : Nat
  rejected : List Rejected

structure EventTally where
  events : Nat
  bytes : Nat
deriving DecidableEq

/-- What an ingest is given: the values it iterates, and what it throws after them. -/
structure Source where
  values : List JsValue
  throws : Option JsError

/-- An input as an accepted event would be held, or rejected. -/
inductive IngestInput where
  | held (held : Held)
  | rejected (rejected : Rejected)

/-- What throws in the language, in the store. -/
def thrown {α : Type} : Except JsError α → Except StoreError α
  | .ok a => .ok a
  | .error e => .error (.js e)

/-- The events of some drafts that were appended together. -/
structure Staged where
  out : List Event
  staged : OMap JsString Held

/-- How far the inputs of an ingest have been classified. -/
structure Classified where
  duplicates : Nat
  rejected : List Rejected
  staged : OMap JsString Held
  forked : List Event

def Classified.start : Classified := ⟨0, [], OMap.empty, []⟩

section
variable (P : Packages)

/-- The drafts, validated into copies. -/
def validateDrafts (drafts : List JsValue) : Except StoreError (List Draft) :=
  thrown (drafts.mapM (validateDraft P))

def heldOf (draft : Draft) (at_ author : JsString) : Except JsError Held := do
  let (event, bytes) ← canonicalEnvelope P (draft.envelope at_ author)
  pure ⟨event, bytes⟩

def readValue (value : JsValue) : IngestInput :=
  match canonicalEvent P value with
  | .ok (event, bytes) => .held ⟨event, bytes⟩
  | .error e => .rejected ⟨value, e.message⟩

/-- The input read whole. -/
def readSource (source : Source) : Except StoreError (List IngestInput) :=
  match source.throws with
  | some e => .error (.js e)
  | none => .ok (source.values.map (readValue P))

end

/-- A change token, as what `JSON.parse` makes of its text: nothing, no object, or an
object with a generation where that is a string, a position where that is a number, and
the CID accepted last, `null` or a string. -/
inductive ChangeToken where
  | malformed
  | notObject
  | object (generation : Option JsString) (seq : Option Rat) (last : Option (Option JsString))
deriving DecidableEq

/-- The position that a number names, where it is a whole one up to `upper`. -/
def position (seq : Option Rat) (upper : Nat) : Except StoreError Nat :=
  match seq with
  | some q =>
    if q.isInt = false ∨ q < 0 ∨ (upper : Rat) < q then
      .error (.badToken (lit "token names a position this store does not hold"))
    else .ok q.num.toNat
  | none => .error (.badToken (lit "token names a position this store does not hold"))

theorem position_natCast {n upper : Nat} (h : n ≤ upper) :
    position (some (n : Rat)) upper = .ok n := by
  rw [position, if_neg]
  · simp
  · simp [Rat.isInt, h]

end Estoc.EventStore
