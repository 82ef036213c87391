import Estoc.EventStore.Values
import Estoc.Lib.Base32
import Estoc.Lib.OMap
import Estoc.Mediator.Service

/-!
# The blob service

Rows in the database, bytes in a storage: the calls of the service go from one to the
other, and wait in between. A call is in flight from its first wait to its outcome, and a
step lets one call go on to its next wait, so that a run is any order of steps. What a call
meets when it goes on, the clock, what is drawn at random, what the client has streamed, is
given with the step.

The storage stores bytes only as a whole, of the size and the name they were declared by,
and deletes what is there. IDs and tokens are random and never drawn twice.
-/

set_option linter.unusedSectionVars false

namespace Estoc.Mediator

open Json (lit)
open Utf16 (JsString)
open EventStore (JsValue decimal)

/-- How long an upload grant stays good. -/
def UPLOAD_GRANT_MS : Millis := 60 * 60 * 1000

/-- The limits on blobs. -/
structure BlobPolicy where
  blobRetainSeconds : Rat
  blobMaxBytes : Nat
  blobQuotaBytes : Nat

/-- What the service was made with, and the name of bytes. -/
structure BlobConfig where
  policy : BlobPolicy
  publicUrl : JsString
  blobName : List UInt8 → JsString

inductive PutCode where
  | tooLarge
  | quota
  | refused
deriving DecidableEq

structure UploadUrl where
  url : JsString
  expires : Millis
deriving DecidableEq

inductive PutOutcome where
  | ok (hash url : JsString) (retainUntil : Millis) (upload : Option UploadUrl)
  | failed (code : PutCode) (comment : JsString)
deriving DecidableEq

inductive Response where
  | plain (status : Nat) (body : Option JsString)
  /-- Stored bytes, as a range and a method ask for them. -/
  | stored (bytes : List UInt8) (range : Option JsString) (head : Bool)
deriving DecidableEq

/-- How a call ended. -/
inductive BlobOutcome where
  | put (outcome : PutOutcome)
  | remove (hash : Option JsString)
  | response (response : Response)
  | purge (gone : Nat)
  | threw
deriving DecidableEq

/-- A call that waits, by what it waits for. -/
inductive Flight where
  /-- `put`, for its row -/
  | keep (ownerDid : Did) (hash : JsString) (size : Nat) (now : Millis)
  /-- `put`, for a token -/
  | grant (id hash : JsString) (retainUntil expires : Millis)
  /-- `remove`, for the row to go -/
  | drop (ownerDid : Did) (hash : JsString)
  /-- `remove`, for the bytes to go -/
  | erase (id hash : JsString)
  /-- `upload`, for its token -/
  | claim (id token : JsString) (declared : Binary64)
  /-- `upload`, for the bytes -/
  | landing (id token hash : JsString) (size : Nat)
  /-- `upload`, for the row to say so -/
  | mark (id : JsString)
  /-- `serve`, for the row -/
  | look (id : JsString) (range : Option JsString) (head : Bool)
  /-- `serve`, for the bytes -/
  | read (info : Blob) (range : Option JsString) (head : Bool)
  /-- `purge`, for the rows to go -/
  | purge
  /-- `purge`, for the bytes of one blob after the other to go -/
  | erasing (id : JsString) (rest : List JsString) (gone : Nat)
  | done (outcome : BlobOutcome)
deriving DecidableEq

/-- What a call meets when it goes on. -/
structure Luck where
  now : Millis
  /-- An ID or a token. -/
  random : JsString
  /-- What was streamed; `none` where the stream broke off or the storage took nothing. -/
  body : Option (List UInt8)

structure BlobWorld where
  db : Db
  stored : OMap JsString (List UInt8)
  flights : List Flight
  /-- The IDs drawn. -/
  drawn : List JsString
  /-- The tokens granted, each with its blob. -/
  granted : List (JsString × JsString)
  /-- The tokens claimed, each with its blob. -/
  claimed : List (JsString × JsString)
  /-- The IDs handed out for deletion. -/
  handed : List JsString
  /-- The bytes served, each with the row they were served for. -/
  served : List (Blob × List UInt8)

def BlobWorld.empty : BlobWorld := ⟨Db.empty, OMap.empty, [], [], [], [], [], []⟩

/-! ## The storage -/

/-- The bytes are stored, where they are what they were declared to be. -/
def storagePut (config : BlobConfig) (id hash : JsString) (size : Nat)
    (body : Option (List UInt8)) (stored : OMap JsString (List UInt8)) :
    Option (OMap JsString (List UInt8)) :=
  match body with
  | none => none
  | some bytes =>
    if bytes.length = size ∧ config.blobName bytes = hash then some (stored.set id bytes) else none

/-! ## The calls, up to their first wait -/

/-- `/^b[a-z2-7]{55}$/` -/
def isBlobNameText : JsString → Bool
  | u :: rest => u == 0x62 && rest.length == 55 && rest.all fun c => Base32.alphabet.contains c
  | [] => false

/-- The blob name that a value is. -/
def blobNameOf (hash : JsValue) : Option JsString :=
  hash.string?.filter isBlobNameText

/-- The byte count that a value is. -/
def byteCountOf : JsValue → Option Nat
  | .scalar (.number x) => x.integer?.bind fun n => if 0 ≤ n then some n.toNat else none
  | _ => none

def failed (code : PutCode) (comment : JsString) : Flight := .done (.put (.failed code comment))

def put (config : BlobConfig) (ownerDid : Did) (hash size : JsValue) (now : Millis) : Flight :=
  match blobNameOf hash with
  | none => failed .refused (lit "hash is not a blob name")
  | some hash =>
    match byteCountOf size with
    | none => failed .refused (lit "size must be a byte count")
    | some size =>
      if config.policy.blobMaxBytes < size then
        failed .tooLarge
          (lit "blobs are at most " ++ decimal config.policy.blobMaxBytes ++ lit " bytes")
      else .keep ownerDid hash size now

def remove (ownerDid : Did) (hash : JsValue) : Flight :=
  match blobNameOf hash with
  | none => .done (.remove none)
  | some hash => .drop ownerDid hash

/-! ## From one wait to the next -/

/-- The URL with no slash at its end. -/
def BlobConfig.base (config : BlobConfig) : JsString :=
  if config.publicUrl.getLast? = some 0x2F then config.publicUrl.dropLast else config.publicUrl

def BlobConfig.url (config : BlobConfig) (id : JsString) : JsString :=
  config.base ++ lit "/b/" ++ id

def notFound : JsString := lit "no such blob"

def blobById (db : Db) (id : JsString) : Option Blob := db.blobs.find? (·.id == id)

/-- `put`, its row kept or refused. -/
def afterKeep (config : BlobConfig) (hash : JsString) (now : Millis) : KeepOutcome → Flight
  | .ended => failed .refused (lit "no mediation")
  | .mismatch => failed .refused (lit "size differs from the stored blob")
  | .full => failed .quota
      (lit "this mediation may hold " ++ decimal config.policy.blobQuotaBytes ++ lit " bytes")
  | .kept blob =>
    match blob.uploadedAt with
    | none => .grant blob.id hash blob.retainUntil (now + UPLOAD_GRANT_MS)
    | some _ => .done (.put (.ok hash (config.url blob.id) blob.retainUntil none))

/-- `upload`, from what its token was granted for. -/
def begun (id token : JsString) (declared : Binary64) : Option UploadGrant → Flight
  | none => .done (.response (.plain 404 (some (lit "no such upload"))))
  | some grant =>
    if grant.id ≠ id then .done (.response (.plain 404 (some (lit "no such upload"))))
    else if declared.integer? ≠ some (grant.size : Int) then
      .done (.response (.plain 400 (some (lit "expected " ++ decimal grant.size ++ lit " bytes"))))
    else .landing id token grant.hash grant.size

/-- `purge`, some blobs' bytes gone. -/
def purging (gone : Nat) : List JsString → Flight
  | [] => .done (.purge gone)
  | id :: rest => .erasing id rest gone

section
variable (config : BlobConfig) (luck : Luck) (w : BlobWorld)

/-- `put`, its token drawn. -/
def afterGrant (id hash : JsString) (retainUntil expires : Millis) :
    Option JsString × Db → Flight × BlobWorld
  | (none, db) => (.done .threw, { w with db })
  | (some token, db) =>
    let upload := ⟨config.url id ++ lit "?token=" ++ token, expires⟩
    (.done (.put (.ok hash (config.url id) retainUntil (some upload))),
      { w with db, granted := w.granted ++ [(token, id)] })

/-- `remove`, the row gone. -/
def afterDrop (hash : JsString) : Option (Option JsString) × Db → Flight × BlobWorld
  | (none, db) => (.done .threw, { w with db })
  | (some none, db) => (.done (.remove (some hash)), { w with db })
  | (some (some id), db) => (.erase id hash, { w with db, handed := w.handed ++ [id] })

/-- `upload`, its token spent. -/
def afterClaim (id token : JsString) (declared : Binary64) :
    Option (Option UploadGrant) × Db → Flight × BlobWorld
  | (none, db) => (.done .threw, { w with db })
  | (some grant, db) =>
    (begun id token declared grant,
      { w with db, claimed := w.claimed ++ grant.toList.map fun grant => (token, grant.id) })

/-- `upload`, its row marked. -/
def afterMark : Option Unit × Db → Flight × BlobWorld
  | (none, db) => (.done .threw, { w with db })
  | (some _, db) => (.done (.response (.plain 204 none)), { w with db })

/-- `purge`, the rows gone. -/
def afterPurge : Option (List JsString) × Db → Flight × BlobWorld
  | (none, db) => (.done .threw, { w with db })
  | (some gone, db) => (purging gone.length gone, { w with db, handed := w.handed ++ gone })

def landOn (id hash : JsString) (size : Nat) : Flight × BlobWorld :=
  match storagePut config id hash size luck.body w.stored with
  | none => (.done (.response (.plain 400 (some (lit "bytes do not match the name")))), w)
  | some stored => (.mark id, { w with stored })

def lookOn (id : JsString) (range : Option JsString) (head : Bool) : Flight :=
  match blobById w.db id with
  | none => .done (.response (.plain 404 (some notFound)))
  | some info =>
    if info.uploadedAt = none ∨ info.retainUntil ≤ luck.now then
      .done (.response (.plain 404 (some notFound)))
    else .read info range head

def readOn (info : Blob) (range : Option JsString) (head : Bool) : Flight × BlobWorld :=
  match w.stored.get? info.id with
  | none => (.done (.response (.plain 404 (some notFound))), w)
  | some bytes =>
    (.done (.response (.stored bytes range head)), { w with served := w.served ++ [(info, bytes)] })

/-- One call goes on to its next wait. -/
def Flight.goOn : Flight → Option (Flight × BlobWorld)
  | .keep ownerDid hash size now =>
    if luck.random ∈ w.drawn then none
    else
      let kept := attempt (keepBlob
        ⟨luck.random, ownerDid, hash, size, now + config.policy.blobRetainSeconds * 1000⟩
        config.policy.blobQuotaBytes luck.now) w.db
      some ((kept.1.map (afterKeep config hash now)).getD (.done .threw),
        { w with db := kept.2, drawn := w.drawn ++ [luck.random] })
  | .grant id hash retainUntil expires =>
    if luck.random ∈ w.granted.map Prod.fst then none
    else
      some (afterGrant config w id hash retainUntil expires
        (attempt (grantUpload luck.random id expires) w.db))
  | .drop ownerDid hash => some (afterDrop w hash (attempt (dropBlob ownerDid hash) w.db))
  | .erase id hash => some (.done (.remove (some hash)), { w with stored := w.stored.erase id })
  | .claim id token declared =>
    some (afterClaim w id token declared (attempt (claimUpload token luck.now) w.db))
  | .landing id _ hash size => some (landOn config luck w id hash size)
  | .mark id => some (afterMark w (attempt (markUploaded id luck.now) w.db))
  | .look id range head => some (lookOn luck w id range head, w)
  | .read info range head => some (readOn w info range head)
  | .purge => some (afterPurge w (attempt (purgeBlobs luck.now) w.db))
  | .erasing id rest gone => some (purging gone rest, { w with stored := w.stored.erase id })
  | .done _ => none

end

/-! ## Runs -/

/-- A call is made, or one that waits goes on; another call of the store comes in between. -/
inductive BlobStep where
  | put (ownerDid : Did) (hash size : JsValue) (now : Millis)
  | remove (ownerDid : Did) (hash : JsValue)
  | upload (id token : JsString) (contentLength : Binary64)
  | serve (id : JsString) (range : Option JsString) (head : Bool)
  | purge
  | mediation (call : Call)
  | goOn (flight : Nat) (luck : Luck)

/-- A call comes in flight. -/
def BlobWorld.called (w : BlobWorld) (flight : Flight) : BlobWorld :=
  { w with flights := w.flights ++ [flight] }

def BlobStep.after (config : BlobConfig) (options : Options) (w : BlobWorld) :
    BlobStep → Option BlobWorld
  | .put ownerDid hash size now => some (w.called (Mediator.put config ownerDid hash size now))
  | .remove ownerDid hash => some (w.called (Mediator.remove ownerDid hash))
  | .upload id token contentLength => some (w.called (.claim id token contentLength))
  | .serve id range head => some (w.called (.look id range head))
  | .purge => some (w.called .purge)
  | .mediation call => some { w with db := call.after options w.db }
  | .goOn i luck =>
    match w.flights[i]? with
    | none => none
    | some flight =>
      (flight.goOn config luck w).map fun r => { r.2 with flights := w.flights.set i r.1 }

/-- The world after some steps; `none` where one of them could not be taken. -/
def blobRun (config : BlobConfig) (options : Options) :
    List BlobStep → BlobWorld → Option BlobWorld
  | [], w => some w
  | step :: steps, w => (step.after config options w).bind (blobRun config options steps)

/-! ## What is listed -/

/-- The blobs whose bytes a call has yet to delete. -/
def Flight.owed : Flight → List JsString
  | .erase id _ => [id]
  | .erasing id rest _ => id :: rest
  | _ => []

def BlobWorld.owed (w : BlobWorld) : List JsString := w.flights.flatMap Flight.owed

/-- The ID is of a row, or waits for a purge. -/
def BlobWorld.lists (w : BlobWorld) (id : JsString) : Prop :=
  id ∈ w.db.blobs.map Blob.id ∨ id ∈ w.db.endedBlobs

def Flight.isDone : Flight → Bool
  | .done _ => true
  | _ => false

/-- No call is in flight. -/
def BlobWorld.idle (w : BlobWorld) : Prop := ∀ flight ∈ w.flights, flight.isDone = true

/-- The ID a step stores bytes under. -/
def BlobStep.lands (config : BlobConfig) (w : BlobWorld) : BlobStep → Option JsString
  | .goOn i luck =>
    match w.flights[i]? with
    | some (.landing id _ hash size) =>
      (storagePut config id hash size luck.body w.stored).map fun _ => id
    | _ => none
  | _ => none

/-- Bytes that the step stores are of a blob that is listed, or that a call has yet to
delete. -/
def BlobStep.prompt (config : BlobConfig) (w : BlobWorld) (step : BlobStep) : Prop :=
  ∀ id ∈ step.lands config w, w.lists id ∨ id ∈ w.owed

end Estoc.Mediator
