import Mathlib.Algebra.Order.Ring.Rat
import Estoc.Lib.Sql
import Estoc.Lib.Utf16

/-!
# The mediator's tables

The rows the mediator keeps, the keys that tell them apart and the references between
them. Times are milliseconds since the epoch, save those of replicas and executions,
which are whole seconds.
-/

set_option linter.unusedSectionVars false

namespace Estoc.Mediator

open Utf16 (JsString)

abbrev Did := JsString
/-- Milliseconds since the epoch; a deadline need not be a whole number of them. -/
abbrev Millis := Rat
abbrev Seconds := Int

structure Account where
  did : Did
  createdAt : Millis
deriving DecidableEq

structure Keylist where
  recipientDid : Did
  ownerDid : Did
  createdAt : Millis
deriving DecidableEq

structure Message where
  id : JsString
  ownerDid : Did
  packed : JsString
  createdAt : Millis
  expiresAt : Millis
deriving DecidableEq

structure Blob where
  id : JsString
  ownerDid : Did
  hash : JsString
  size : Nat
  createdAt : Millis
  uploadedAt : Option Millis
  retainUntil : Millis
deriving DecidableEq

structure BlobUpload where
  token : JsString
  blobId : JsString
  expiresAt : Millis
deriving DecidableEq

structure ReplicaAccount where
  did : Did
  mediator : Did
  longForm : Did
  createdAt : Millis
  registration : JsString
deriving DecidableEq

structure Replica where
  replicaDid : Did
  accountDid : Did
  ordinal : Nat
  longForm : Did
  grantJws : JsString
  registeredAt : Seconds
  removedAt : Option Seconds
deriving DecidableEq

structure Recipient where
  recipientDid : Did
  accountDid : Did
  longForm : Did
  createdAt : Millis
deriving DecidableEq

structure Package where
  id : JsString
  accountDid : Did
  nextDid : Did
  packed : JsString
  bytes : Nat
  createdAt : Millis
  expiresAt : Millis
deriving DecidableEq

structure Delivery where
  id : JsString
  packageId : JsString
  replicaDid : Did
deriving DecidableEq

structure Execution where
  registrationId : JsString
  accountDid : Did
  executionId : JsString
  createdTime : Seconds
  retainUntil : Seconds
deriving DecidableEq

structure Registration where
  registrationId : JsString
  replicaDid : Did
  ordinal : Nat
deriving DecidableEq

structure Db where
  accounts : List Account
  keylist : List Keylist
  messages : List Message
  blobs : List Blob
  blobUploads : List BlobUpload
  endedBlobs : List JsString
  replicaAccounts : List ReplicaAccount
  replicas : List Replica
  recipients : List Recipient
  packages : List Package
  deliveries : List Delivery
  executions : List Execution
  registrations : List Registration
deriving DecidableEq

def Db.empty : Db := ⟨[], [], [], [], [], [], [], [], [], [], [], [], []⟩

/-! ## Keys -/

/-- Two replicas of one DID, or in one place of one account. -/
def Replica.clash (a b : Replica) : Bool :=
  a.replicaDid == b.replicaDid || (a.accountDid == b.accountDid && a.ordinal == b.ordinal)

def Delivery.clash (a b : Delivery) : Bool :=
  a.id == b.id || (a.packageId == b.packageId && a.replicaDid == b.replicaDid)

def Package.clash (a b : Package) : Bool := a.id == b.id

/-! ## References -/

def hasAccount (db : Db) (did : Did) : Bool := db.accounts.any (·.did == did)

def hasReplicaAccount (db : Db) (did : Did) : Bool := db.replicaAccounts.any (·.did == did)

def hasReplica (db : Db) (did : Did) : Bool := db.replicas.any (·.replicaDid == did)

def hasPackage (db : Db) (id : JsString) : Bool := db.packages.any (·.id == id)

/-- Every reference between tables is to a row that is there. -/
def foreignKeys (db : Db) : Bool :=
  db.keylist.all (fun k => hasAccount db k.ownerDid) &&
  db.messages.all (fun m => hasAccount db m.ownerDid) &&
  db.blobUploads.all (fun u => db.blobs.any (·.id == u.blobId)) &&
  db.replicas.all (fun r => hasReplicaAccount db r.accountDid) &&
  db.recipients.all (fun r => hasReplicaAccount db r.accountDid) &&
  db.packages.all (fun p => hasReplicaAccount db p.accountDid) &&
  db.deliveries.all (fun d => hasPackage db d.packageId && hasReplica db d.replicaDid) &&
  db.executions.all (fun e => hasReplicaAccount db e.accountDid) &&
  db.registrations.all fun x =>
    db.executions.any (·.registrationId == x.registrationId) && hasReplica db x.replicaDid

/-- A statement of the mediator's store. -/
abbrev Batch (α : Type) := Sql.Batch Db α

def write (change : Db → Except Sql.Fault Db) : Batch Unit := Sql.write foreignKeys change

/-- A write that no key can refuse. -/
def modify (change : Db → Db) : Batch Unit := write fun db => .ok (change db)

theorem modify_ok {change : Db → Db} {t t' : Sql.Tx Db} {u : Unit}
    (h : modify change t = .ok (u, t')) : t'.db = change t.db := by
  have hwrite : Sql.write foreignKeys (fun db => .ok (change db)) t = .ok (u, t') := h
  obtain ⟨hdb, _⟩ := Sql.write_ok hwrite
  exact (Except.ok.inj hdb).symm

theorem modify_bind_ok {α : Type} {change : Db → Db} {f : Unit → Batch α} {t t' : Sql.Tx Db} {a : α}
    (h : (modify change >>= f) t = .ok (a, t')) :
    ∃ s, s.db = change t.db ∧ f () s = .ok (a, t') := by
  obtain ⟨_, s, hs, h⟩ := Sql.bind_ok.mp h
  exact ⟨s, modify_ok hs, h⟩

end Estoc.Mediator
