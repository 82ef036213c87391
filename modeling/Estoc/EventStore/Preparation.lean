import Estoc.EventStore.SqliteObjects

/-!
# Preparations

The objects of one commit between verification and publication. A preparation lives for
one call: it takes puts and reuses until it publishes, publishes once, and admits nothing
once the commit has ended. What a put reads is known only once it has finished, so the
preparation counts the puts that still read.
-/

set_option linter.unusedSectionVars false

namespace Estoc.EventStore

open Json (lit)
open Utf16 (JsString)
open Estoc.Dasl (DaslCid)
open Effect (read change lift)

inductive Phase where
  | staging
  | published
  | ended
deriving DecidableEq

structure SqlitePreparation where
  staged : OMap JsString Staged.Object
  reused : List JsString
  repaired : List JsString
  reading : Nat
  phase : Phase
  /-- Whether the commit resolved after publishing, once it has ended. -/
  forgives : Bool

/-- A preparation and the store it is over. -/
structure Preparing where
  store : SqliteObjectStore
  prepared : SqlitePreparation

namespace SqlitePreparation

def new : SqlitePreparation := ⟨OMap.empty, [], [], 0, .staging, false⟩

abbrev Work (α : Type) := Effect Preparing ObjectError α

/-- A step of the store. -/
def onStore {α : Type} (x : SqliteObjectStore.Work α) : Work α := fun s =>
  let (result, store) := x s.store
  (result, { s with store })

def update (f : SqlitePreparation → SqlitePreparation) : Work Unit :=
  change fun s => { s with prepared := f s.prepared }

def admitted (what : JsString) (staging : Bool) (phase : Phase) : Except ObjectError Unit :=
  match phase with
  | .ended => .error (.error (what ++ lit ": the preparation ended with its commit"))
  | .published =>
    if staging then .error (.error (what ++ lit ": the preparation has published")) else .ok ()
  | .staging => .ok ()

def admit_ (what : JsString) (staging : Bool) : Work Unit := do
  let phase ← read fun s => s.prepared.phase
  lift (admitted what staging phase)

/-- A put begins to read its source. -/
def put (want : Option DaslCid) : Work SqliteObjectStore.Put := do
  update fun p => { p with reading := p.reading + 1 }
  onStore (SqliteObjectStore.begin_ want)

def putObject (cid : JsString) : Work SqliteObjectStore.Put := do
  admit_ (lit "putObject") true
  let want ← lift (rawCidOf cid)
  onStore (SqliteObjectStore.requireWritable (lit "putObject"))
  put (some want)

def putRaw : Work SqliteObjectStore.Put := do
  admit_ (lit "putRaw") true
  onStore (SqliteObjectStore.requireWritable (lit "putRaw"))
  put none

/-- Hold what is staged; a second staging of a CID replaces the first. -/
def hold (staged : Staged.Object) : Work Unit := do
  let before ← read fun s => s.prepared.staged.get? staged.cid.text
  match before with
  | some before => onStore (SqliteObjectStore.drop before.token)
  | none => pure ()
  update fun p => { p with staged := p.staged.set staged.cid.text staged }

/-- A put is over: it no longer reads. -/
def settle : Work Unit := update fun p => { p with reading := p.reading - 1 }

def has (cid : JsString) : Work Bool := do
  admit_ (lit "has") false
  let _ ← lift (rawCidOf cid)
  let staged ← read fun s => s.prepared.staged.has cid
  if staged then pure true else onStore (SqliteObjectStore.has cid)

def reuse (cid : JsString) : Work Unit := do
  admit_ (lit "reuse") true
  let _ ← lift (rawCidOf cid)
  update fun p => { p with reused := if cid ∈ p.reused then p.reused else p.reused ++ [cid] }

/-- Throws for an object that the store knows damaged. -/
def check (cid : JsString) : Work Unit := do
  let damaged ← read fun s => s.store.damage.has cid
  if damaged then throw (.damagedObject cid) else pure ()

def checkAll : List JsString → Work Unit
  | [] => pure ()
  | cid :: cids => do
    check cid
    checkAll cids

def note (cid : JsString) (acceptance : Acceptance) : Work Unit :=
  update fun p => { p with
    repaired := if acceptance = .repaired then p.repaired ++ [cid] else p.repaired }

/-- Each staged object accepted; how each was. -/
def acceptAll : List Staged.Object → Work (List (JsString × Acceptance))
  | [] => pure []
  | staged :: rest => do
    let acceptance ← onStore (SqliteObjectStore.accept staged)
    note staged.cid.text acceptance
    let accepted ← acceptAll rest
    pure ((staged.cid.text, acceptance) :: accepted)

def stillReading (reading : Nat) : Except ObjectError Unit :=
  if 0 < reading then
    .error (.error (lit "a preparation publishes once every put through it has finished"))
  else .ok ()

/-- Inside the caller's transaction: what is reused checked, and what is staged accepted. -/
def publish : Work (List (JsString × Acceptance)) := do
  admit_ (lit "publish") true
  let prepared ← read Preparing.prepared
  lift (stillReading prepared.reading)
  update fun p => { p with phase := .published }
  checkAll (prepared.reused.filter fun cid => !prepared.staged.has cid)
  acceptAll prepared.staged.values

/-- How many of the accepted objects landed. -/
def landed (accepted : List (JsString × Acceptance)) : Nat :=
  (accepted.filter fun a => a.2 != .kept).length

/-- The commit is over; the preparation admits nothing from here. -/
def leave (resolved : Bool) : Work Unit :=
  update fun p => { p with phase := .ended, forgives := resolved && p.phase == .published }

def forgiveAll : List JsString → Work Unit
  | [] => pure ()
  | cid :: cids => do
    change fun s => { s with store := { s.store with damage := s.store.damage.erase cid } }
    forgiveAll cids

def dropAll : List Staged.Object → Work Unit
  | [] => pure ()
  | staged :: rest => do
    onStore (SqliteObjectStore.drop staged.token)
    dropAll rest

/-- Every put having finished: what was repaired is sound from here, or what was staged goes. -/
def finishUp : Work Unit := do
  let prepared ← read Preparing.prepared
  if prepared.forgives then forgiveAll prepared.repaired else dropAll prepared.staged.values
  update fun p => { p with staged := OMap.empty, reused := [], repaired := [] }

/-- A transaction that publishes and then does more, which may throw. -/
def transaction {α : Type} (more : Except ObjectError α) : Work (List (JsString × Acceptance) × α) :=
  Effect.atomically (fun before after =>
    { after with store := SqliteObjectStore.rollback before.store after.store }) do
    let accepted ← publish
    let a ← lift more
    pure (accepted, a)

end SqlitePreparation

end Estoc.EventStore
