import Estoc.Lib.Cmp
import Estoc.Mediator.Steps

/-!
# Executions, blobs and waiting mail

The rest of the mediator's store: the registrations of an execution, in the order its
replicas made them, the blobs an owner keeps, and what waits for a replica. With these a
call of the store is any call at all, and what it answers is part of the run.
-/

set_option linter.unusedSectionVars false

namespace Estoc.Mediator

open Utf16 (JsString)
open Sql (select insert insertOrIgnore insertAll delete update)

/-! ## Executions -/

/-- What an execution registration may hold, as configured when it is asked for. -/
structure ExecutionPolicy where
  retainSeconds : Nat
  maxRetained : Nat
  maxReplicas : Nat

/-- A replica registering under an execution ID of its account. -/
structure ExecutionRegistration where
  replicaDid : Did
  mediator : Did
  executionId : JsString
  policy : ExecutionPolicy

structure ExecutionRegistrationSnapshot where
  executionId : JsString
  registrationId : JsString
  createdTime : Seconds
  retainUntil : Seconds
  replicas : List Did
deriving DecidableEq

inductive RegisterExecutionOutcome where
  | registered (registration : ExecutionRegistrationSnapshot)
  | unknown
  | full
deriving DecidableEq

/-- The account a DID is an active replica of, where it is bound to the mediator. -/
def memberAccount (db : Db) (replicaDid mediator : Did) : Option Did :=
  (db.replicas.find? fun r =>
    r.replicaDid == replicaDid && r.active && isBound db r.accountDid mediator).map
    Replica.accountDid

/-- Two executions of one registration ID. -/
def Execution.clash (a b : Execution) : Bool := a.registrationId == b.registrationId

/-- One replica twice in a registration, or two in one place. -/
def Registration.clash (a b : Registration) : Bool :=
  a.registrationId == b.registrationId && (a.replicaDid == b.replicaDid || a.ordinal == b.ordinal)

/-- An account's registration of an execution: the two are a key. -/
def Execution.names (account executionId : JsString) (e : Execution) : Bool :=
  e.accountDid == account && e.executionId == executionId

def registrationsOf (db : Db) (registrationId : JsString) : List Registration :=
  db.registrations.filter (·.registrationId == registrationId)

/-- The executions an account keeps. -/
def executionsOf (db : Db) (account : Did) : List Execution :=
  db.executions.filter (·.accountDid == account)

/-- The registration of an execution as it stands, its replicas in the order of their
places. -/
def snapshotOf (db : Db) (e : Execution) : ExecutionRegistrationSnapshot :=
  { executionId := e.executionId, registrationId := e.registrationId
    createdTime := e.createdTime, retainUntil := e.retainUntil
    replicas := (Cmp.sortBy (fun a b => compare a.ordinal b.ordinal)
      (registrationsOf db e.registrationId)).map Registration.replicaDid }

def registerExecution (registrationId : JsString) (registration : ExecutionRegistration)
    (now : Millis) : Batch RegisterExecutionOutcome := do
  let { replicaDid, mediator, executionId, policy } := registration
  let seconds := (now / 1000).floor
  let caller ← select fun db => memberAccount db replicaDid mediator
  write fun db =>
    match memberAccount db replicaDid mediator with
    | none => pure db
    | some account =>
      if (executionsOf db account).length < policy.maxRetained &&
          !db.executions.any (Execution.names account executionId) then do
        let executions ← insert Execution.clash
          ⟨registrationId, account, executionId, seconds, seconds + policy.retainSeconds⟩
          db.executions
        pure { db with executions }
      else pure db
  modify fun db =>
    match memberAccount db replicaDid mediator with
    | none => db
    | some account =>
      match db.executions.find? (Execution.names account executionId) with
      | none => db
      | some e =>
        let listed := (registrationsOf db e.registrationId).length
        if listed < policy.maxReplicas then
          { db with
            registrations := insertOrIgnore Registration.clash
              ⟨e.registrationId, replicaDid, listed + 1⟩ db.registrations }
        else db
  let snapshot ← select fun db =>
    (memberAccount db replicaDid mediator).bind fun account =>
      (db.executions.find? (Execution.names account executionId)).map (snapshotOf db)
  pure (match caller with
    | none => .unknown
    | some _ =>
      match snapshot with
      | none => .full
      | some found => if found.replicas.contains replicaDid then .registered found else .full)

def purgeExecutions (now : Millis) : Batch Nat := do
  let found ← select fun db =>
    (db.executions.filter fun e => e.retainUntil ≤ (now / 1000).floor).length
  -- the registrations go with their executions
  modify fun db =>
    let executions := delete (fun e => e.retainUntil ≤ (now / 1000).floor) db.executions
    { db with
      executions
      registrations := db.registrations.filter fun x =>
        executions.any (·.registrationId == x.registrationId) }
  pure found

/-! ## Blobs -/

structure BlobKeep where
  id : JsString
  ownerDid : Did
  hash : JsString
  size : Nat
  retainUntil : Millis

inductive KeepOutcome where
  | kept (blob : Blob)
  | mismatch
  | full
  | ended

structure UploadGrant where
  id : JsString
  hash : JsString
  size : Nat

/-- Two blobs of one id, or of one hash and owner. -/
def Blob.clash (a b : Blob) : Bool :=
  a.id == b.id || (a.ownerDid == b.ownerDid && a.hash == b.hash)

/-- A DID that may hold blobs: an account, or an active replica. -/
def holdsBlobs (db : Db) (did : Did) : Bool :=
  hasAccount db did || db.replicas.any fun r => r.replicaDid == did && r.active

/-- The bytes of an owner's blobs still retained. -/
def blobUsage (db : Db) (ownerDid : Did) (now : Millis) : Nat :=
  ((db.blobs.filter fun b => b.ownerDid == ownerDid && now < b.retainUntil).map Blob.size).sum

def blobOf (db : Db) (ownerDid : Did) (hash : JsString) : Option Blob :=
  db.blobs.find? fun b => b.ownerDid == ownerDid && b.hash == hash

section
variable (keep : BlobKeep) (quotaBytes : Nat) (now : Millis)

def room (db : Db) : Bool := blobUsage db keep.ownerDid now + keep.size ≤ quotaBytes

/-- Whether the call makes a row: the owner has none of the hash, room for it, and may hold
blobs. -/
def creates (db : Db) : Bool :=
  !db.blobs.any (fun b => b.ownerDid == keep.ownerDid && b.hash == keep.hash) &&
    room keep quotaBytes now db && holdsBlobs db keep.ownerDid

/-- Whether the call renews a row: one still retained renews for nothing, one past its
retention counts as new. -/
def renews (db : Db) (b : Blob) : Bool :=
  b.ownerDid == keep.ownerDid && b.hash == keep.hash && b.size == keep.size &&
    (now < b.retainUntil || room keep quotaBytes now db) && holdsBlobs db keep.ownerDid

def keepBlob : Batch KeepOutcome := do
  let held ← select fun db => holdsBlobs db keep.ownerDid
  let created ← select (creates keep quotaBytes now)
  write fun db =>
    if creates keep quotaBytes now db then do
      let blobs ← insert Blob.clash
        ⟨keep.id, keep.ownerDid, keep.hash, keep.size, now, none, keep.retainUntil⟩ db.blobs
      pure { db with blobs }
    else pure db
  let renewed ← select fun db => db.blobs.any (renews keep quotaBytes now db)
  modify fun db => { db with
    blobs := update (renews keep quotaBytes now db)
      (fun b => { b with retainUntil := max b.retainUntil keep.retainUntil }) db.blobs }
  let kept ← select fun db => blobOf db keep.ownerDid keep.hash
  pure (if !held then .ended
    else match kept with
      | none => .full
      | some row =>
        if row.size ≠ keep.size then .mismatch
        else if !created && !renewed then .full
        else .kept row)

end

/-- The uploads of blobs that are there. -/
def uploadsOf (blobs : List Blob) (uploads : List BlobUpload) : List BlobUpload :=
  uploads.filter fun u => blobs.any (·.id == u.blobId)

def dropBlob (ownerDid : Did) (hash : JsString) : Batch (Option JsString) := do
  let found ← select fun db => (blobOf db ownerDid hash).map Blob.id
  modify fun db =>
    let blobs := delete (fun b => b.ownerDid == ownerDid && b.hash == hash) db.blobs
    { db with blobs, blobUploads := uploadsOf blobs db.blobUploads }
  pure found

def grantUpload (token id : JsString) (expiresAt : Millis) : Batch JsString := do
  write fun db => do
    let blobUploads ← insert (fun a b => a.token == b.token) ⟨token, id, expiresAt⟩ db.blobUploads
    pure { db with blobUploads }
  pure token

def claimUpload (token : JsString) (now : Millis) : Batch (Option UploadGrant) := do
  let found ← select fun db =>
    (db.blobUploads.find? fun u => u.token == token && now < u.expiresAt).bind fun u =>
      (db.blobs.find? (·.id == u.blobId)).map fun b => ⟨b.id, b.hash, b.size⟩
  modify fun db => { db with blobUploads := delete (·.token == token) db.blobUploads }
  pure found

def markUploaded (id : JsString) (now : Millis) : Batch Unit :=
  modify fun db => { db with
    blobs := update (fun b => b.id == id && b.uploadedAt.isNone)
      (fun b => { b with uploadedAt := some now }) db.blobs }

def purgeBlobs (now : Millis) : Batch (List JsString) := do
  let found ← select fun db =>
    (db.blobs.filter (·.retainUntil ≤ now)).map Blob.id ++ db.endedBlobs
  modify fun db =>
    let blobs := delete (·.retainUntil ≤ now) db.blobs
    { db with blobs, blobUploads := uploadsOf blobs db.blobUploads }
  modify fun db => { db with endedBlobs := [] }
  modify fun db => { db with blobUploads := delete (·.expiresAt ≤ now) db.blobUploads }
  pure found

/-! ## Any call -/

inductive StoreCall where
  | mediation (call : Call)
  | registerExecution (registrationId : JsString) (registration : ExecutionRegistration)
      (now : Millis)
  | purgeExecutions (now : Millis)
  | keepBlob (keep : BlobKeep) (quotaBytes : Nat) (now : Millis)
  | dropBlob (ownerDid : Did) (hash : JsString)
  | grantUpload (token id : JsString) (expiresAt : Millis)
  | claimUpload (token : JsString) (now : Millis)
  | markUploaded (id : JsString) (now : Millis)
  | purgeBlobs (now : Millis)

/-- What a call answers that anything here depends on; `none` for what it threw. -/
inductive StoreAnswer where
  | none
  | execution (outcome : RegisterExecutionOutcome)
  | keep (outcome : KeepOutcome)
  /-- The blobs whose bytes are now the caller's to delete. -/
  | deleted (ids : List JsString)

/-- What a batch makes, and the database it leaves: none, and the one it found, where it
did not land. -/
def attempt {α : Type} (batch : Batch α) (db : Db) : Option α × Db :=
  match Sql.transaction foreignKeys batch db with
  | .ok (a, db') => (some a, db')
  | .error _ => (none, db)

/-- An attempt, its result as an answer. -/
def answering {α : Type} (answer : α → StoreAnswer) (batch : Batch α) (db : Db) :
    StoreAnswer × Db :=
  let result := attempt batch db
  ((result.1.map answer).getD .none, result.2)

def StoreCall.serve (options : Options) (call : StoreCall) (db : Db) : StoreAnswer × Db :=
  match call with
  | .mediation call => (.none, call.after options db)
  | .registerExecution id registration now =>
    answering .execution (Mediator.registerExecution id registration now) db
  | .purgeExecutions now => answering (fun _ => .none) (Mediator.purgeExecutions now) db
  | .keepBlob keep quotaBytes now => answering .keep (Mediator.keepBlob keep quotaBytes now) db
  | .dropBlob owner hash =>
    answering (fun id => .deleted id.toList) (Mediator.dropBlob owner hash) db
  | .grantUpload token id expiresAt =>
    answering (fun _ => .none) (Mediator.grantUpload token id expiresAt) db
  | .claimUpload token now => answering (fun _ => .none) (Mediator.claimUpload token now) db
  | .markUploaded id now => answering (fun _ => .none) (Mediator.markUploaded id now) db
  | .purgeBlobs now => answering .deleted (Mediator.purgeBlobs now) db

/-- The calls one after the other, each with its answer. -/
def serveAll (options : Options) : List StoreCall → Db → List (StoreCall × StoreAnswer) × Db
  | [], db => ([], db)
  | call :: calls, db =>
    let served := call.serve options db
    let rest := serveAll options calls served.2
    ((call, served.1) :: rest.1, rest.2)

theorem attempt_cases {α : Type} (batch : Batch α) (db : Db) :
    attempt batch db = (none, db) ∨
      ∃ a t, batch ⟨db, false⟩ = .ok (a, t) ∧ attempt batch db = (some a, t.db) ∧
        foreignKeys t.db = true := by
  unfold attempt
  split
  · next a db' h =>
      obtain ⟨⟨t, ht, hdb⟩, hkeys⟩ := Sql.transaction_ok h
      exact .inr ⟨a, t, ht, by rw [hdb], hdb ▸ hkeys⟩
  · exact .inl rfl

theorem serveAll_append (options : Options) (before after : List StoreCall) (db : Db) :
    serveAll options (before ++ after) db =
      ((serveAll options before db).1 ++
        (serveAll options after (serveAll options before db).2).1,
        (serveAll options after (serveAll options before db).2).2) := by
  induction before generalizing db with
  | nil => rfl
  | cons call before ih => rw [List.cons_append, serveAll, ih, serveAll]; rfl

theorem filterMap_cons_toList {α β : Type} (f : α → Option β) (a : α) (as : List α) :
    (a :: as).filterMap f = (f a).toList ++ as.filterMap f := by
  rw [List.filterMap_cons]
  cases f a <;> rfl

end Estoc.Mediator
