import Estoc.DidPeer.Forms
import Estoc.Mediator.Tables

/-!
# The mediator's store

Every operation is one batch. What an operation needs that the database cannot give it,
the clock's reading and the random identifiers, is an argument here, as is each of the
store's options.
-/

set_option linter.unusedSectionVars false

namespace Estoc.Mediator

open Utf16 (JsString)
open DidPeer (shortOf)
open Sql (select deferForeignKeys insert insertOrIgnore insertAll delete update)

/-- The spellings one DID may be bound under: as written, and the other form. -/
def spellings (did : Did) (longForm : Option Did) : List Did :=
  [did, longForm.getD (shortOf did)]

def Replica.active (r : Replica) : Bool := r.removedAt.isNone

/-! ## The conditions of the writes -/

section
variable (db : Db) (names : List Did)

def notOrdinary : Bool :=
  !db.accounts.any (fun a => names.contains a.did) &&
    !db.keylist.any fun k => names.contains k.recipientDid

def notReplicaAccount : Bool := !db.replicaAccounts.any fun a => names.contains a.did

def notReplica : Bool := !db.replicas.any fun r => names.contains r.replicaDid

def notSharedRecipient : Bool := !db.recipients.any fun r => names.contains r.recipientDid

def notReplicaMediation : Bool :=
  notReplicaAccount db names && notReplica db names && notSharedRecipient db names

end

/-- The account that a DID and a mediator name together. -/
def isBound (db : Db) (accountDid mediator : Did) : Bool :=
  db.replicaAccounts.any fun a => a.did == accountDid && a.mediator == mediator

/-! ## Ending blobs and deliveries -/

/-- The blobs that `which` selects end: their ids wait for a purge, their uploads go. -/
def endBlobs (which : Db → Blob → Bool) : Batch Unit := do
  write fun db => do
    let ended ← insertAll (· == ·) ((db.blobs.filter (which db)).map Blob.id) db.endedBlobs
    pure { db with endedBlobs := ended }
  modify fun db =>
    let blobs := delete (which db) db.blobs
    { db with
      blobs
      blobUploads := db.blobUploads.filter fun u => blobs.any (·.id == u.blobId) }

/-- Ends the deliveries that `which` selects, and the packages left with no other. The
packages go first, while it can be told which of them had a delivery. -/
def endDeliveries (which : Db → Delivery → Bool) : Batch Unit := do
  deferForeignKeys
  modify fun db =>
    let ending := (db.deliveries.filter (which db)).map Delivery.id
    { db with
      packages := delete (fun p =>
        db.deliveries.any (fun d => which db d && d.packageId == p.id) &&
          !db.deliveries.any fun d => d.packageId == p.id && !ending.contains d.id) db.packages }
  modify fun db => { db with deliveries := delete (which db) db.deliveries }

/-! ## Ordinary mediation -/

def grantMediation (did : Did) (now : Millis) : Batch Bool := do
  modify fun db =>
    if notReplicaMediation db (spellings did none) then
      { db with accounts := insertOrIgnore (fun a b => a.did == b.did) ⟨did, now⟩ db.accounts }
    else db
  select fun db => hasAccount db did

def revokeMediation (did : Did) : Batch Unit := do
  endBlobs fun db b => b.ownerDid == did && hasAccount db did
  -- the rows that refer to the account go with it
  modify fun db =>
    let accounts := delete (·.did == did) db.accounts
    { db with
      accounts
      keylist := db.keylist.filter fun k => accounts.any (·.did == k.ownerDid)
      messages := db.messages.filter fun m => accounts.any (·.did == m.ownerDid) }

inductive AddRecipientResult where
  | added
  | alreadyYours
  | taken
deriving DecidableEq

def ownerOf (db : Db) (recipientDid : Did) : Option Did :=
  (db.keylist.find? (·.recipientDid == recipientDid)).map Keylist.ownerDid

def addRecipient (ownerDid recipientDid : Did) (now : Millis) : Batch AddRecipientResult := do
  let before ← select fun db => ownerOf db recipientDid
  modify fun db =>
    if notReplicaMediation db (spellings recipientDid none) then
      { db with
        keylist := insertOrIgnore (fun a b => a.recipientDid == b.recipientDid)
          ⟨recipientDid, ownerDid, now⟩ db.keylist }
    else db
  let after ← select fun db => ownerOf db recipientDid
  pure (if after ≠ some ownerDid then .taken
    else if before = some ownerDid then .alreadyYours else .added)

def removeRecipient (ownerDid recipientDid : Did) : Batch Bool := do
  let there ← select fun db =>
    db.keylist.any fun k => k.recipientDid == recipientDid && k.ownerDid == ownerDid
  modify fun db => { db with
    keylist := delete (fun k => k.recipientDid == recipientDid && k.ownerDid == ownerDid) db.keylist }
  pure there

/-! ## Replica mediation -/

inductive RegisterAccountOutcome where
  | registered (registeredTime : Seconds)
  | refused
  | conflict
deriving DecidableEq

def registerReplicaAccount (accountDid accountLongForm mediator : Did) (create : Bool)
    (now : Millis) (registration : JsString) : Batch RegisterAccountOutcome := do
  modify fun db =>
    let account := spellings accountDid (some accountLongForm)
    if create && notOrdinary db account && notReplica db account &&
        notSharedRecipient db account then
      { db with
        replicaAccounts := insertOrIgnore (fun a b => a.did == b.did)
          ⟨accountDid, mediator, accountLongForm, now, registration⟩ db.replicaAccounts }
    else db
  let held ← select fun db => db.replicaAccounts.find? (·.did == accountDid)
  pure (match held with
    | none => if create then .conflict else .refused
    | some held =>
      if held.mediator = mediator then .registered (held.createdAt / 1000).floor else .conflict)

/-- The account's DID where the account is bound to the mediator. -/
def ofAccount (db : Db) (accountDid mediator did : Did) : Bool :=
  did == accountDid && isBound db accountDid mediator

def deleteReplicaAccount (accountDid mediator : Did) : Batch Bool := do
  let bound ← select fun db => isBound db accountDid mediator
  let held := fun (db : Db) (did : Did) => ofAccount db accountDid mediator did
  modify fun db => { db with
    deliveries := delete (fun d =>
      db.packages.any (fun p => held db p.accountDid && p.id == d.packageId) ||
        db.replicas.any fun r => held db r.accountDid && r.replicaDid == d.replicaDid) db.deliveries }
  modify fun db => { db with packages := delete (fun p => held db p.accountDid) db.packages }
  modify fun db => { db with recipients := delete (fun r => held db r.accountDid) db.recipients }
  modify fun db =>
    let executions := delete (fun e => held db e.accountDid) db.executions
    { db with
      executions
      registrations := db.registrations.filter fun x =>
        executions.any (·.registrationId == x.registrationId) }
  endBlobs fun db b => db.replicas.any fun r => held db r.accountDid && r.replicaDid == b.ownerDid
  modify fun db => { db with replicas := delete (fun r => held db r.accountDid) db.replicas }
  modify fun db => { db with
    replicaAccounts := delete (fun a => a.did == accountDid && a.mediator == mediator)
      db.replicaAccounts }
  pure bound

inductive AddReplicaOutcome where
  | added (addedTime : Seconds)
  | unknown
  | conflict
  | full
deriving DecidableEq

def enrolledIn (db : Db) (accountDid : Did) : Nat :=
  (db.replicas.filter (·.accountDid == accountDid)).length

def activeIn (db : Db) (accountDid : Did) : Nat :=
  (db.replicas.filter fun r => r.accountDid == accountDid && r.active).length

def addReplica (accountDid mediator replicaDid replicaLongForm : Did) (grant : JsString)
    (maxReplicas : Nat) (now : Millis) : Batch AddReplicaOutcome := do
  modify fun db =>
    let replica := spellings replicaDid (some replicaLongForm)
    if isBound db accountDid mediator && notOrdinary db replica &&
        notReplicaAccount db [replicaDid] && notSharedRecipient db [replicaDid, replicaDid] &&
        activeIn db accountDid < maxReplicas then
      { db with
        replicas := insertOrIgnore Replica.clash
          ⟨replicaDid, accountDid, enrolledIn db accountDid + 1, replicaLongForm, grant,
            (now / 1000).floor, none⟩ db.replicas }
    else db
  let held ← select fun db => db.replicaAccounts.find? (·.did == accountDid)
  let binding ← select fun db => db.replicas.find? (·.replicaDid == replicaDid)
  let enrollments ← select fun db => activeIn db accountDid
  pure (match held with
    | none => .unknown
    | some held =>
      if held.mediator ≠ mediator then .conflict
      else match binding with
        | some row =>
          if row.accountDid = accountDid ∧ row.removedAt = none then .added row.registeredAt
          else .conflict
        | none => if maxReplicas ≤ enrollments then .full else .conflict)

inductive RemoveOutcome where
  | removed (removedTime : Option Seconds)
  | unknown
  | notEnrolled
deriving DecidableEq

/-- The replica of a DID in the account. -/
def enrolled (db : Db) (accountDid mediator replicaDid : Did) (r : Replica) : Bool :=
  r.replicaDid == replicaDid && ofAccount db accountDid mediator r.accountDid

def removeReplica (accountDid mediator replicaDid : Did) (now : Millis) : Batch RemoveOutcome := do
  let bound ← select fun db => isBound db accountDid mediator
  let member := fun (db : Db) (r : Replica) => enrolled db accountDid mediator replicaDid r
  endDeliveries fun db d => db.replicas.any fun r => member db r && r.replicaDid == d.replicaDid
  endBlobs fun db b => db.replicas.any fun r => member db r && r.replicaDid == b.ownerDid
  modify fun db => { db with
    replicas := update (fun r => member db r && r.active)
      (fun r => { r with removedAt := some (now / 1000).floor }) db.replicas }
  let removed ← select fun db => db.replicas.find? (member db)
  pure (if bound then
      match removed with
      | none => .notEnrolled
      | some row => .removed row.removedAt
    else .unknown)

inductive ShareOutcome where
  | added (addedTime : Seconds)
  | unknown
  | conflict
  | full
deriving DecidableEq

def unbound (db : Db) (names : List Did) : Bool :=
  notOrdinary db names && notReplicaAccount db names && notReplica db names

def addSharedRecipient (accountDid mediator recipientDid recipientLongForm : Did)
    (maxRecipients : Nat) (now : Millis) : Batch ShareOutcome := do
  let names := spellings recipientDid (some recipientLongForm)
  let bound ← select fun db => isBound db accountDid mediator
  modify fun db =>
    if isBound db accountDid mediator && unbound db names &&
        (db.recipients.filter (·.accountDid == accountDid)).length < maxRecipients then
      { db with
        recipients := insertOrIgnore (fun a b => a.recipientDid == b.recipientDid)
          ⟨recipientDid, accountDid, recipientLongForm, now⟩ db.recipients }
    else db
  let held ← select fun db => db.recipients.find? (·.recipientDid == recipientDid)
  let free ← select fun db => unbound db names
  pure (if bound then
      match held with
      | some binding =>
        if binding.accountDid = accountDid then .added (binding.createdAt / 1000).floor
        else .conflict
      | none => if free then .full else .conflict
    else .unknown)

inductive UnshareOutcome where
  | removed
  | noChange
  | unknown
deriving DecidableEq

def removeSharedRecipient (accountDid mediator recipientDid : Did) : Batch UnshareOutcome := do
  let bound ← select fun db => isBound db accountDid mediator
  let there ← select fun db => db.recipients.any fun r =>
    r.recipientDid == recipientDid && ofAccount db accountDid mediator r.accountDid
  modify fun db => { db with
    recipients := delete (fun r =>
      r.recipientDid == recipientDid && ofAccount db accountDid mediator r.accountDid) db.recipients }
  pure (if bound then if there then .removed else .noChange else .unknown)

/-! ## Mail -/

structure Options where
  ttl : Millis
  maxMessages : Nat

/-- What bounds a package: when it lapses, and the bytes its account may hold. -/
structure PackageBounds where
  deadline : Option Millis
  maxRetainedBytes : Nat

inductive FanOutOutcome where
  | lapsed
  | unknown
  | full
  | stored (deliveries : List Delivery)
deriving DecidableEq

/-- The account that shares a recipient: the one row there is. -/
def sharedBy (db : Db) (next : Did) : List Did :=
  (db.recipients.filter (·.recipientDid == next)).map Recipient.accountDid

/-- The accounts that take mail for a DID: by sharing it, or as its active replica's. -/
def accountsOf (db : Db) (next : Did) : List Did :=
  sharedBy db next ++
    (db.replicas.filter fun r => r.replicaDid == next && r.active).map Replica.accountDid

/-- The packages of an account that have not lapsed. -/
def retained (db : Db) (accountDid : Did) (now : Millis) : List Package :=
  db.packages.filter fun p => p.accountDid == accountDid && now < p.expiresAt

/-- The replicas a package for a DID is for. -/
def targets (db : Db) (next : Did) : List Replica :=
  db.replicas.filter fun r =>
    (r.replicaDid == next || (sharedBy db next).head? == some r.accountDid) && r.active

/-- When a package lapses. -/
def lapses (options : Options) (now : Millis) (bounds : PackageBounds) : Millis :=
  match bounds.deadline with
  | some deadline => min (now + options.ttl) deadline
  | none => now + options.ttl

/-- The accounts with room for a package of so many bytes. -/
def takers (options : Options) (db : Db) (now : Millis) (next : Did) (bytes : Nat)
    (bounds : PackageBounds) : List Did :=
  (accountsOf db next).filter fun account =>
    (retained db account now).length < options.maxMessages &&
      ((retained db account now).map Package.bytes).sum + bytes ≤ bounds.maxRetainedBytes

def fanOut (options : Options) (id : JsString) (deliveryId : Nat → JsString) (now : Millis)
    (next : Did) (packed : JsString) (bounds : PackageBounds) : Batch FanOutOutcome :=
  let expiresAt := lapses options now bounds
  if expiresAt ≤ now then pure .lapsed
  else do
    let bytes := (Utf16.encodeUtf8 packed).length
    write fun db => do
      let packages ← insertAll Package.clash
        ((takers options db now next bytes bounds).map fun account =>
          ⟨id, account, next, packed, bytes, now, expiresAt⟩) db.packages
      pure { db with packages }
    write fun db => do
      let rows := if hasPackage db id then
          (targets db next).mapIdx fun i r => ⟨deliveryId i, id, r.replicaDid⟩
        else []
      let deliveries ← insertAll Delivery.clash rows db.deliveries
      pure { db with deliveries }
    let found ← select fun db => hasPackage db id
    let accounts ← select fun db => accountsOf db next
    let queued ← select fun db => db.deliveries.filter (·.packageId == id)
    pure (if found then .stored queued else if accounts = [] then .unknown else .full)

def acknowledgeDeliveries (replicaDid : Did) (ids : List JsString) : Batch Unit :=
  endDeliveries fun _ d => d.replicaDid == replicaDid && ids.contains d.id

def purgeExpired (now : Millis) : Batch Nat := do
  let messages ← select fun db => (db.messages.filter (·.expiresAt ≤ now)).length
  modify fun db => { db with messages := delete (·.expiresAt ≤ now) db.messages }
  modify fun db => { db with
    deliveries := delete (fun d =>
      db.packages.any fun p => p.expiresAt ≤ now && p.id == d.packageId) db.deliveries }
  let packages ← select fun db => (db.packages.filter (·.expiresAt ≤ now)).length
  modify fun db => { db with packages := delete (·.expiresAt ≤ now) db.packages }
  pure (messages + packages)

/-! ## Runs -/

/-- A call of the store, with all it is given. -/
inductive Call where
  | grantMediation (did : Did) (now : Millis)
  | revokeMediation (did : Did)
  | addRecipient (ownerDid recipientDid : Did) (now : Millis)
  | removeRecipient (ownerDid recipientDid : Did)
  | registerReplicaAccount (accountDid accountLongForm mediator : Did) (create : Bool)
      (now : Millis) (registration : JsString)
  | deleteReplicaAccount (accountDid mediator : Did)
  | addReplica (accountDid mediator replicaDid replicaLongForm : Did) (grant : JsString)
      (maxReplicas : Nat) (now : Millis)
  | removeReplica (accountDid mediator replicaDid : Did) (now : Millis)
  | addSharedRecipient (accountDid mediator recipientDid recipientLongForm : Did)
      (maxRecipients : Nat) (now : Millis)
  | removeSharedRecipient (accountDid mediator recipientDid : Did)
  | fanOut (id : JsString) (deliveryId : Nat → JsString) (now : Millis) (next : Did)
      (packed : JsString) (bounds : PackageBounds)
  | acknowledgeDeliveries (replicaDid : Did) (ids : List JsString)
  | purgeExpired (now : Millis)

/-- The database that a batch leaves: the one it found where it did not land. -/
def landed {α : Type} (batch : Batch α) (db : Db) : Db :=
  match Sql.transaction foreignKeys batch db with
  | .ok (_, db') => db'
  | .error _ => db

def Call.after (options : Options) (call : Call) (db : Db) : Db :=
  match call with
  | .grantMediation did now => landed (Mediator.grantMediation did now) db
  | .revokeMediation did => landed (Mediator.revokeMediation did) db
  | .addRecipient owner recipient now => landed (Mediator.addRecipient owner recipient now) db
  | .removeRecipient owner recipient => landed (Mediator.removeRecipient owner recipient) db
  | .registerReplicaAccount account long mediator create now registration =>
    landed (Mediator.registerReplicaAccount account long mediator create now registration) db
  | .deleteReplicaAccount account mediator =>
    landed (Mediator.deleteReplicaAccount account mediator) db
  | .addReplica account mediator replica long grant maxReplicas now =>
    landed (Mediator.addReplica account mediator replica long grant maxReplicas now) db
  | .removeReplica account mediator replica now =>
    landed (Mediator.removeReplica account mediator replica now) db
  | .addSharedRecipient account mediator recipient long maxRecipients now =>
    landed (Mediator.addSharedRecipient account mediator recipient long maxRecipients now) db
  | .removeSharedRecipient account mediator recipient =>
    landed (Mediator.removeSharedRecipient account mediator recipient) db
  | .fanOut id deliveryId now next packed bounds =>
    landed (Mediator.fanOut options id deliveryId now next packed bounds) db
  | .acknowledgeDeliveries replica ids => landed (Mediator.acknowledgeDeliveries replica ids) db
  | .purgeExpired now => landed (Mediator.purgeExpired now) db

/-- The database after some calls, one after the other. -/
def run (options : Options) : List Call → Db → Db
  | [], db => db
  | call :: calls, db => run options calls (call.after options db)

end Estoc.Mediator
