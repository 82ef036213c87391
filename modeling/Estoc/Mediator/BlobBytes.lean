import Estoc.Mediator.BlobService
import Estoc.Mediator.Blobs

/-!
# Bytes follow their rows

Over any run of the blob service, `made` collects the rows there ever were, each by ID, hash
and size, and `Right` says what the run keeps: what is stored and what was served is of the
name and the size its row was made with; an uploaded row has its bytes; what a call has yet
to delete was handed out, so that no row is of it; a token that is still there was not
claimed.

That storage holds bytes of listed blobs only is kept by every step but one: an upload still
streaming when its row goes, and goes for good, leaves bytes nobody will delete. So a run
that comes to rest has listed what it stores exactly if all that landed was prompt.
-/

set_option linter.unusedSectionVars false

namespace Estoc.Mediator

open Json (lit)
open Utf16 (JsString)
open Sql (bind_ok select_bind_ok write_ok pure_ok insert insert_eq_ok delete update mem_delete Tx)
open Checked (bind_eq_ok)

/-! ## What the batches leave of rows and uploads -/

/-- Rows and uploads that were there before. -/
structure FewerBlobs (db db' : Db) : Prop where
  rows : ∀ b ∈ db'.blobs, b ∈ db.blobs
  uploads : ∀ u ∈ db'.blobUploads, u ∈ db.blobUploads

section
variable {db : Db}

theorem fewerBlobs_attempt {α : Type} {batch : Batch α}
    (h : ∀ a t, batch ⟨db, false⟩ = .ok (a, t) → FewerBlobs db t.db) :
    FewerBlobs db (attempt batch db).2 := by
  rcases attempt_cases batch db with hfail | ⟨a, t, ht, hok, _⟩
  · rw [hfail]
    exact ⟨fun _ h => h, fun _ h => h⟩
  · rw [hok]
    exact h a t ht

theorem endBlobs_uploads {which : Db → Blob → Bool} {t t' : Tx Db} {u : Unit}
    (h : endBlobs which t = .ok (u, t')) :
    ∀ x ∈ t'.db.blobUploads, x ∈ t.db.blobUploads := by
  obtain ⟨_, s, hs, h⟩ := bind_ok.mp h
  obtain ⟨hwrite, _⟩ := write_ok hs
  obtain ⟨ended, _, hs⟩ := bind_eq_ok.mp hwrite
  rw [modify_ok h, ← Except.ok.inj hs]
  exact fun x hx => (List.mem_filter.mp hx).1

/-- No call of either mediation grants an upload. -/
theorem uploads_after (options : Options) (call : Call) (db : Db) :
    ∀ u ∈ (call.after options db).blobUploads, u ∈ db.blobUploads := by
  have hsame : ∀ {db' : Db}, db'.blobUploads = db.blobUploads →
      ∀ u ∈ db'.blobUploads, u ∈ db.blobUploads := fun h u hu => h ▸ hu
  have hlanded : ∀ {α : Type} {batch : Batch α}, (∀ a t, batch ⟨db, false⟩ = .ok (a, t) →
      ∀ u ∈ t.db.blobUploads, u ∈ db.blobUploads) →
      ∀ u ∈ (landed batch db).blobUploads, u ∈ db.blobUploads := by
    intro α batch h
    rcases landed_cases batch db with heq | ⟨a, t, ht, hdb, _⟩
    · rw [heq]
      exact fun _ hu => hu
    · rw [← hdb]
      exact h a t ht
  cases call with
  | revokeMediation did =>
      refine hlanded fun a t ht => ?_
      obtain ⟨_, s, hs, ht⟩ := bind_ok.mp ht
      rw [modify_ok ht]
      exact endBlobs_uploads hs
  | deleteReplicaAccount account mediator =>
      refine hlanded fun a t ht => ?_
      replace ht := select_bind_ok.mp ht
      obtain ⟨s1, h1, ht⟩ := modify_bind_ok ht
      obtain ⟨s2, h2, ht⟩ := modify_bind_ok ht
      obtain ⟨s3, h3, ht⟩ := modify_bind_ok ht
      obtain ⟨s4, h4, ht⟩ := modify_bind_ok ht
      obtain ⟨_, s5, h5, ht⟩ := bind_ok.mp ht
      obtain ⟨s6, h6, ht⟩ := modify_bind_ok ht
      obtain ⟨s7, h7, ht⟩ := modify_bind_ok ht
      have h5 := endBlobs_uploads h5
      rw [h4, h3, h2, h1] at h5
      rw [(pure_ok ht).2, h7, h6]
      exact h5
  | removeReplica account mediator replica now =>
      refine hlanded fun a t ht => ?_
      replace ht := select_bind_ok.mp ht
      obtain ⟨_, s1, h1, ht⟩ := bind_ok.mp ht
      obtain ⟨_, s2, h2, ht⟩ := bind_ok.mp ht
      obtain ⟨s3, h3, ht⟩ := modify_bind_ok ht
      replace ht := select_bind_ok.mp ht
      have h2 := endBlobs_uploads h2
      rw [endDeliveries_ok (fun _ _ => rfl) h1] at h2
      rw [(pure_ok ht).2, h3]
      exact h2
  | grantMediation did now =>
      refine hlanded fun a t ht => hsame ?_
      rw [grantMediation_ok ht]
      split <;> rfl
  | addReplica account mediator replica long grant maxReplicas now =>
      refine hlanded fun a t ht => hsame ?_
      rw [addReplica_ok ht]
      split <;> rfl
  | fanOut id deliveryId now next packed bounds =>
      refine hlanded fun a t ht => hsame ?_
      rcases fanOut_ok ht with ⟨_, heq⟩ | ⟨htaken, _⟩
      · rw [heq]
      · rw [htaken.rest]
  | addRecipient owner recipient now =>
      refine hlanded fun a t ht => hsame ?_
      rw [addRecipient_ok ht]
      split <;> rfl
  | removeRecipient owner recipient =>
      refine hlanded fun a t ht => hsame ?_
      rw [removeRecipient_ok ht]
  | registerReplicaAccount account long mediator create now registration =>
      refine hlanded fun a t ht => hsame ?_
      rw [registerReplicaAccount_ok ht]
      split <;> rfl
  | addSharedRecipient account mediator recipient long maxRecipients now =>
      refine hlanded fun a t ht => hsame ?_
      rw [addSharedRecipient_ok ht]
      split <;> rfl
  | removeSharedRecipient account mediator recipient =>
      refine hlanded fun a t ht => hsame ?_
      rw [removeSharedRecipient_ok ht]
  | acknowledgeDeliveries replica ids =>
      refine hlanded fun a t ht => hsame ?_
      rw [acknowledgeDeliveries_ok ht]
      rfl
  | purgeExpired now =>
      refine hlanded fun a t ht => hsame ?_
      rw [purgeExpired_ok ht]

theorem fewerBlobs_mediation (options : Options) (call : Call) (db : Db) :
    FewerBlobs db (call.after options db) where
  rows b hb := by
    obtain ⟨which, hending⟩ := ended_after options call db
    rw [hending.ends.blobs, mem_delete] at hb
    exact hb.1
  uploads := uploads_after options call db

theorem uploadsOf_subset {blobs : List Blob} {uploads : List BlobUpload} :
    ∀ u ∈ uploadsOf blobs uploads, u ∈ uploads := fun _ hu => (List.mem_filter.mp hu).1

theorem fewer_dropBlob (owner : Did) (hash : JsString) :
    FewerBlobs db (attempt (dropBlob owner hash) db).2 := by
  refine fewerBlobs_attempt fun a t ht => ?_
  rw [(dropBlob_ok ht).2]
  exact ⟨fun b hb => (mem_delete.mp hb).1, uploadsOf_subset⟩

theorem fewer_purgeBlobs (now : Millis) : FewerBlobs db (attempt (purgeBlobs now) db).2 := by
  refine fewerBlobs_attempt fun a t ht => ?_
  replace ht := select_bind_ok.mp ht
  obtain ⟨s1, h1, ht⟩ := modify_bind_ok ht
  obtain ⟨s2, h2, ht⟩ := modify_bind_ok ht
  obtain ⟨s3, h3, ht⟩ := modify_bind_ok ht
  rw [(pure_ok ht).2, h3, h2, h1]
  exact ⟨fun b hb => (mem_delete.mp hb).1, fun u hu => uploadsOf_subset u (mem_delete.mp hu).1⟩

/-- Where a token was claimed, it was of an upload there was and of the row of its blob, and
it is gone. -/
theorem claimUpload_ok {token : JsString} {now : Millis} {t t' : Tx Db}
    {found : Option UploadGrant} (h : claimUpload token now t = .ok (found, t')) :
    (∀ grant ∈ found, (∃ u ∈ t.db.blobUploads, u.token = token ∧ u.blobId = grant.id) ∧
      ∃ b ∈ t.db.blobs, grant = ⟨b.id, b.hash, b.size⟩) ∧
      t'.db.blobs = t.db.blobs ∧
      t'.db.blobUploads = delete (·.token == token) t.db.blobUploads := by
  replace h := select_bind_ok.mp h
  obtain ⟨s, hs, h⟩ := modify_bind_ok h
  obtain ⟨hfound, ht⟩ := pure_ok h
  refine ⟨fun grant hgrant => ?_, by rw [ht, hs], by rw [ht, hs]⟩
  rw [hfound] at hgrant
  obtain ⟨u, hu, hgrant⟩ := Option.bind_eq_some_iff.mp hgrant
  obtain ⟨b, hb, rfl⟩ := Option.map_eq_some_iff.mp hgrant
  have htoken := List.find?_some hu
  have hblob := List.find?_some hb
  rw [Bool.and_eq_true, beq_iff_eq] at htoken
  rw [beq_iff_eq] at hblob
  exact ⟨⟨u, List.mem_of_find?_eq_some hu, htoken.1, hblob.symm⟩,
    b, List.mem_of_find?_eq_some hb, rfl⟩

theorem grantUpload_ok {token id answer : JsString} {expiresAt : Millis} {t t' : Tx Db}
    (h : grantUpload token id expiresAt t = .ok (answer, t')) :
    answer = token ∧ t'.db.blobs = t.db.blobs ∧
      t'.db.blobUploads = t.db.blobUploads ++ [⟨token, id, expiresAt⟩] := by
  obtain ⟨_, s, hs, h⟩ := bind_ok.mp h
  obtain ⟨hs, _⟩ := write_ok hs
  obtain ⟨uploads, huploads, hs⟩ := bind_eq_ok.mp hs
  obtain ⟨_, rfl⟩ := insert_eq_ok huploads
  obtain ⟨hanswer, ht⟩ := pure_ok h
  rw [ht, ← Except.ok.inj hs]
  exact ⟨hanswer, rfl, rfl⟩

/-- A row after a call that keeps a blob: as it was but for its retention, or new. -/
theorem rows_keepBlob {keep : BlobKeep} {quotaBytes : Nat} {now : Millis} {t t' : Tx Db}
    {outcome : KeepOutcome} (h : keepBlob keep quotaBytes now t = .ok (outcome, t')) :
    t'.db.blobUploads = t.db.blobUploads ∧ ∀ b ∈ t'.db.blobs,
      (∃ b' ∈ t.db.blobs, (b.id, b.hash, b.size) = (b'.id, b'.hash, b'.size) ∧
        b.uploadedAt = b'.uploadedAt) ∨
      (b.id, b.hash, b.size) = (keep.id, keep.hash, keep.size) ∧ b.uploadedAt = none := by
  obtain ⟨db, hmade, hdb⟩ := keepBlob_ok h
  rw [hdb]
  refine ⟨by cases hmade <;> rfl, fun b hb => ?_⟩
  obtain ⟨b', hb', rfl⟩ := List.mem_map.mp hb
  have hkey : ((if renews keep quotaBytes now db b' then
      { b' with retainUntil := max b'.retainUntil keep.retainUntil } else b')) =
      { b' with retainUntil := (if renews keep quotaBytes now db b' then
        max b'.retainUntil keep.retainUntil else b'.retainUntil) } := by
    split <;> rfl
  rw [hkey]
  cases hmade with
  | none => exact Or.inl ⟨b', hb', rfl, rfl⟩
  | row hcreates hclash =>
      rcases List.mem_append.mp hb' with hb' | hb'
      · exact Or.inl ⟨b', hb', rfl, rfl⟩
      · rw [List.mem_singleton.mp hb']
        exact Or.inr ⟨rfl, rfl⟩

end

/-! ## What a run keeps -/

/-- The bytes of an ID are stored, or were handed out to be deleted. -/
def BlobWorld.backed (w : BlobWorld) (id : JsString) : Prop :=
  id ∈ w.stored.keys ∨ id ∈ w.handed

/-- What a call in flight rests on. -/
def Flight.Right (made : List (JsString × JsString × Nat)) (w : BlobWorld) : Flight → Prop
  | .erase id _ => id ∈ w.handed
  | .erasing id rest _ => ∀ gone ∈ id :: rest, gone ∈ w.handed
  | .landing id token hash size =>
    (id, hash, size) ∈ made ∧ (token, id) ∈ w.claimed ∧ id ∈ accounted w.db w.handed
  | .mark id => w.backed id
  | .read info _ _ => (info.id, info.hash, info.size) ∈ made
  | _ => True

/-- What holds of a world, the rows ever made being `made`. -/
structure Right (config : BlobConfig) (made : List (JsString × JsString × Nat)) (w : BlobWorld) :
    Prop where
  known : Accounted w.drawn w.handed w.db
  one : (made.map Prod.fst).Nodup
  drawn : ∀ row ∈ made, row.1 ∈ w.drawn
  rows : ∀ b ∈ w.db.blobs, (b.id, b.hash, b.size) ∈ made
  uploaded : ∀ b ∈ w.db.blobs, b.uploadedAt ≠ none → w.backed b.id
  stored : ∀ id bytes, w.stored.get? id = some bytes →
    (id, config.blobName bytes, bytes.length) ∈ made
  served : ∀ s ∈ w.served, s.2.length = s.1.size ∧ config.blobName s.2 = s.1.hash
  uploads : ∀ u ∈ w.db.blobUploads,
    (u.token, u.blobId) ∈ w.granted ∧ u.token ∉ w.claimed.map Prod.fst
  claimed : ∀ claim ∈ w.claimed, claim ∈ w.granted
  once : (w.claimed.map Prod.fst).Nodup
  flights : ∀ flight ∈ w.flights, flight.Right made w

/-- What no step takes back. -/
structure Grows (made : List (JsString × JsString × Nat)) (w : BlobWorld)
    (made' : List (JsString × JsString × Nat)) (w' : BlobWorld) : Prop where
  made : ∀ row ∈ made, row ∈ made'
  drawn : ∀ id ∈ w.drawn, id ∈ w'.drawn
  handed : ∀ id ∈ w.handed, id ∈ w'.handed
  claimed : ∀ claim ∈ w.claimed, claim ∈ w'.claimed
  backed : ∀ id, w.backed id → w'.backed id
  known : ∀ id ∈ accounted w.db w.handed, id ∈ accounted w'.db w'.handed

section
variable {config : BlobConfig} {made made' made'' : List (JsString × JsString × Nat)}
  {w w' w'' : BlobWorld}

theorem Grows.refl : Grows made w made w :=
  ⟨fun _ h => h, fun _ h => h, fun _ h => h, fun _ h => h, fun _ h => h, fun _ h => h⟩

theorem Grows.trans (h : Grows made w made' w') (h' : Grows made' w' made'' w'') :
    Grows made w made'' w'' where
  made row hrow := h'.made row (h.made row hrow)
  drawn id hid := h'.drawn id (h.drawn id hid)
  handed id hid := h'.handed id (h.handed id hid)
  claimed claim hclaim := h'.claimed claim (h.claimed claim hclaim)
  backed id hid := h'.backed id (h.backed id hid)
  known id hid := h'.known id (h.known id hid)

theorem Flight.Right.mono {flight : Flight} (h : flight.Right made w) (hg : Grows made w made' w') :
    flight.Right made' w' := by
  cases flight with
  | erase id hash => exact hg.handed id h
  | erasing id rest gone => exact fun x hx => hg.handed x (h x hx)
  | landing id token hash size => exact ⟨hg.made _ h.1, hg.claimed _ h.2.1, hg.known _ h.2.2⟩
  | mark id => exact hg.backed id h
  | read info range head => exact hg.made _ h
  | _ => trivial

/-- An ID handed out is of no row and waits for no purge. -/
theorem Right.not_lists (h : Right config made w) {id : JsString} (hid : id ∈ w.handed) :
    ¬ w.lists id := by
  rintro (hrow | hended)
  · exact (List.nodup_append.mp h.known.once).2.2 id (List.mem_append_left _ hrow) id hid rfl
  · exact (List.nodup_append.mp h.known.once).2.2 id (List.mem_append_right _ hended) id hid rfl

theorem Right.served_call (h : Right config made w) (options : Options) (call : StoreCall)
    (hnew : ∀ id ∈ call.blobId, id ∉ w.drawn) :
    Accounted (w.drawn ++ call.blobId.toList)
        (w.handed ++ (call.serve options w.db).1.handed) (call.serve options w.db).2 ∧
      ∀ id ∈ accounted w.db w.handed, id ∈ accounted (call.serve options w.db).2
        (w.handed ++ (call.serve options w.db).1.handed) :=
  let ⟨h, hknown, _⟩ := h.known.moved hnew (moved_serve options call h.known.one)
  ⟨h, hknown⟩

/-- A call that draws no ID leaves the IDs where what it hands out says. -/
theorem Right.answered (h : Right config made w) {α : Type} {batch : Batch α}
    {answer : α → StoreAnswer} (call : StoreCall) (hid : call.blobId = none)
    (hcall : call.serve ⟨0, 0⟩ w.db = answering answer batch w.db) {a : Option α} {db : Db}
    (hattempt : attempt batch w.db = (a, db)) :
    Accounted w.drawn (w.handed ++ ((a.map answer).getD .none).handed) db ∧
      ∀ id ∈ accounted w.db w.handed,
        id ∈ accounted db (w.handed ++ ((a.map answer).getD .none).handed) := by
  have hserved := h.served_call ⟨0, 0⟩ call (by rw [hid]; exact fun _ hnone => nomatch hnone)
  rwa [hid, Option.toList_none, List.append_nil, hcall, answering, hattempt] at hserved

/-- The database has lost some rows and uploads at most, and more IDs may have been handed
out. -/
theorem Right.fewer (h : Right config made w) {db : Db} {handed : List JsString}
    (hfewer : FewerBlobs w.db db) (haccounted : Accounted w.drawn handed db ∧
      ∀ id ∈ accounted w.db w.handed, id ∈ accounted db handed)
    (hhanded : ∀ id ∈ w.handed, id ∈ handed) :
    Grows made w made { w with db, handed } ∧ Right config made { w with db, handed } := by
  have hg : Grows made w made { w with db, handed } :=
    ⟨fun _ h => h, fun _ h => h, hhanded, fun _ h => h, fun id hid => hid.imp_right (hhanded id),
      haccounted.2⟩
  refine ⟨hg, ?_⟩
  exact {
    known := haccounted.1
    one := h.one
    drawn := h.drawn
    rows := fun b hb => h.rows b (hfewer.rows b hb)
    uploaded := fun b hb hup => hg.backed _ (h.uploaded b (hfewer.rows b hb) hup)
    stored := h.stored
    served := h.served
    uploads := fun u hu => h.uploads u (hfewer.uploads u hu)
    claimed := h.claimed
    once := h.once
    flights := fun flight hf => (h.flights flight hf).mono hg }

/-- What goes on with one call leaves what holds, and the call rests on what holds. -/
def Onward (config : BlobConfig) (made : List (JsString × JsString × Nat)) (w : BlobWorld)
    (r : Flight × BlobWorld) : Prop :=
  r.2.flights = w.flights ∧ ∃ made', Grows made w made' r.2 ∧ Right config made' r.2 ∧
    r.1.Right made' r.2

theorem Right.keep_on (h : Right config made w) {keep : BlobKeep} {quotaBytes : Nat} {now : Millis}
    {outcome : Option KeepOutcome} {db : Db} (hnew : keep.id ∉ w.drawn)
    (hkeep : attempt (keepBlob keep quotaBytes now) w.db = (outcome, db)) {flight : Flight}
    (hflight : ∀ made w, flight.Right made w) :
    Onward config made w (flight, { w with db, drawn := w.drawn ++ [keep.id] }) := by
  have haccounted := h.served_call ⟨0, 0⟩ (.keepBlob keep quotaBytes now)
    (by rintro id ⟨⟩; exact hnew)
  have hhanded : ((outcome.map StoreAnswer.keep).getD .none).handed = [] := by
    cases outcome <;> rfl
  rw [StoreCall.serve, answering, hkeep, hhanded, List.append_nil] at haccounted
  have hrows : db.blobUploads = w.db.blobUploads ∧ ∀ b ∈ db.blobs,
      (∃ b' ∈ w.db.blobs, (b.id, b.hash, b.size) = (b'.id, b'.hash, b'.size) ∧
        b.uploadedAt = b'.uploadedAt) ∨
      (b.id, b.hash, b.size) = (keep.id, keep.hash, keep.size) ∧ b.uploadedAt = none := by
    rcases attempt_cases (keepBlob keep quotaBytes now) w.db with hfail | ⟨a, t, ht, hok, _⟩
    · rw [hkeep] at hfail
      cases hfail
      exact ⟨rfl, fun b hb => Or.inl ⟨b, hb, rfl, rfl⟩⟩
    · rw [hkeep] at hok
      cases hok
      exact rows_keepBlob ht
  have hg : Grows made w (made ++ [(keep.id, keep.hash, keep.size)])
      { w with db, drawn := w.drawn ++ [keep.id] } :=
    ⟨fun _ h => List.mem_append_left _ h, fun _ h => List.mem_append_left _ h, fun _ h => h,
      fun _ h => h, fun _ h => h, haccounted.2⟩
  refine ⟨rfl, _, hg, ?_, hflight _ _⟩
  exact {
    known := haccounted.1
    one := by
      rw [List.map_append]
      refine List.nodup_append.mpr ⟨h.one, List.nodup_singleton _, ?_⟩
      rintro id hid _ hsingle rfl
      obtain ⟨row, hrow, rfl⟩ := List.mem_map.mp hid
      have hkeep : row.1 = keep.id := List.mem_singleton.mp hsingle
      exact hnew (hkeep ▸ h.drawn row hrow)
    drawn := by
      intro row hrow
      rcases List.mem_append.mp hrow with hrow | hrow
      · exact List.mem_append_left _ (h.drawn row hrow)
      · rw [List.mem_singleton.mp hrow]
        exact List.mem_append_right _ (List.mem_singleton_self _)
    rows := by
      intro b hb
      rcases hrows.2 b hb with ⟨b', hb', hkey, _⟩ | ⟨hkey, _⟩
      · rw [hkey]
        exact List.mem_append_left _ (h.rows b' hb')
      · rw [hkey]
        exact List.mem_append_right _ (List.mem_singleton_self _)
    uploaded := by
      intro b hb hup
      rcases hrows.2 b hb with ⟨b', hb', hkey, hat⟩ | ⟨_, hnone⟩
      · have hid : b.id = b'.id := congrArg Prod.fst hkey
        rw [hid]
        exact h.uploaded b' hb' (hat ▸ hup)
      · exact absurd hnone hup
    stored := fun id bytes hid => hg.made _ (h.stored id bytes hid)
    served := h.served
    uploads := fun u hu => h.uploads u (hrows.1 ▸ hu)
    claimed := h.claimed
    once := h.once
    flights := fun flight hf => (h.flights flight hf).mono hg }

theorem Right.grant_on (h : Right config made w) {token id : JsString} {expires : Millis}
    {answer : JsString} {db : Db} (hnew : token ∉ w.granted.map Prod.fst)
    (hgrant : attempt (grantUpload token id expires) w.db = (some answer, db)) {flight : Flight}
    (hflight : ∀ made w, flight.Right made w) :
    Onward config made w (flight, { w with db, granted := w.granted ++ [(answer, id)] }) := by
  have haccounted : Accounted w.drawn (w.handed ++ []) db ∧ ∀ id ∈ accounted w.db w.handed,
      id ∈ accounted db (w.handed ++ []) := h.answered (.grantUpload token id expires) rfl rfl hgrant
  rw [List.append_nil] at haccounted
  obtain ⟨rfl, hblobs, huploads⟩ : answer = token ∧ db.blobs = w.db.blobs ∧
      db.blobUploads = w.db.blobUploads ++ [⟨token, id, expires⟩] := by
    rcases attempt_cases (grantUpload token id expires) w.db with hfail | ⟨a, t, ht, hok, _⟩
    · rw [hgrant] at hfail
      cases hfail
    · rw [hgrant] at hok
      cases hok
      exact grantUpload_ok ht
  have hg : Grows made w made { w with db, granted := w.granted ++ [(answer, id)] } :=
    ⟨fun _ h => h, fun _ h => h, fun _ h => h, fun _ h => h, fun _ h => h, haccounted.2⟩
  refine ⟨rfl, made, hg, ?_, hflight _ _⟩
  exact {
    known := haccounted.1
    one := h.one
    drawn := h.drawn
    rows := fun b hb => h.rows b (hblobs ▸ hb)
    uploaded := fun b hb => h.uploaded b (hblobs ▸ hb)
    stored := h.stored
    served := h.served
    uploads := by
      intro u hu
      have hu : u ∈ w.db.blobUploads ++ [⟨answer, id, expires⟩] := huploads ▸ hu
      rcases List.mem_append.mp hu with hu | hu
      · exact ⟨List.mem_append_left _ (h.uploads u hu).1, (h.uploads u hu).2⟩
      · rw [List.mem_singleton.mp hu]
        refine ⟨List.mem_append_right _ (List.mem_singleton_self _), fun hin => ?_⟩
        obtain ⟨claim, hclaim, htoken⟩ := List.mem_map.mp hin
        exact hnew (List.mem_map.mpr ⟨claim, h.claimed claim hclaim, htoken⟩)
    claimed := fun claim hclaim => List.mem_append_left _ (h.claimed claim hclaim)
    once := h.once
    flights := fun flight hf => (h.flights flight hf).mono hg }

theorem Right.claim_on (h : Right config made w) {id token : JsString} {declared : Binary64}
    {now : Millis} {found : Option UploadGrant} {db : Db}
    (hclaim : attempt (claimUpload token now) w.db = (some found, db)) :
    Onward config made w (begun id token declared found,
      { w with db, claimed := w.claimed ++ found.toList.map fun found => (token, found.id) }) := by
  have haccounted : Accounted w.drawn (w.handed ++ []) db ∧ ∀ id ∈ accounted w.db w.handed,
      id ∈ accounted db (w.handed ++ []) := h.answered (.claimUpload token now) rfl rfl hclaim
  rw [List.append_nil] at haccounted
  obtain ⟨hfound, hblobs, huploads⟩ : (∀ grant ∈ found,
      (∃ u ∈ w.db.blobUploads, u.token = token ∧ u.blobId = grant.id) ∧
        ∃ b ∈ w.db.blobs, grant = ⟨b.id, b.hash, b.size⟩) ∧
      db.blobs = w.db.blobs ∧ db.blobUploads = delete (·.token == token) w.db.blobUploads := by
    rcases attempt_cases (claimUpload token now) w.db with hfail | ⟨a, t, ht, hok, _⟩
    · rw [hclaim] at hfail
      cases hfail
    · rw [hclaim] at hok
      cases hok
      exact claimUpload_ok ht
  have hg : Grows made w made { w with
      db, claimed := w.claimed ++ found.toList.map fun found => (token, found.id) } :=
    ⟨fun _ h => h, fun _ h => h, fun _ h => h, fun _ h => List.mem_append_left _ h, fun _ h => h,
      haccounted.2⟩
  -- what was claimed was of an upload that is gone now
  have hnew : ∀ claim ∈ found.toList.map fun found => (token, found.id),
      claim ∈ w.granted ∧ token ∉ w.claimed.map Prod.fst := by
    intro claim hin
    obtain ⟨grant, hgrant, rfl⟩ := List.mem_map.mp hin
    obtain ⟨⟨u, hu, rfl, hid⟩, _⟩ := hfound grant (Option.mem_toList.mp hgrant)
    rw [← hid]
    exact h.uploads u hu
  refine ⟨rfl, made, hg, ?_, ?_⟩
  · exact {
      known := haccounted.1
      one := h.one
      drawn := h.drawn
      rows := fun b hb => h.rows b (hblobs ▸ hb)
      uploaded := fun b hb => h.uploaded b (hblobs ▸ hb)
      stored := h.stored
      served := h.served
      uploads := by
        intro u hu
        have hu : u ∈ delete (·.token == token) w.db.blobUploads := huploads ▸ hu
        obtain ⟨hu, hother⟩ := mem_delete.mp hu
        refine ⟨(h.uploads u hu).1, fun hin => ?_⟩
        rw [List.map_append, List.mem_append] at hin
        rcases hin with hin | hin
        · exact (h.uploads u hu).2 hin
        · obtain ⟨_, hin, heq⟩ := List.mem_map.mp hin
          obtain ⟨_, _, rfl⟩ := List.mem_map.mp hin
          exact (beq_eq_false_iff_ne.mp hother) heq.symm
      claimed := by
        intro claim hin
        rcases List.mem_append.mp hin with hin | hin
        · exact h.claimed claim hin
        · exact (hnew claim hin).1
      once := by
        rw [List.map_append]
        cases found with
        | none => simpa using h.once
        | some grant =>
            have hout := (hnew (token, grant.id) (by simp)).2
            refine List.nodup_append.mpr ⟨h.once, List.nodup_singleton _, ?_⟩
            rintro x hx _ hsingle rfl
            have htoken : x = token := List.mem_singleton.mp hsingle
            exact hout (htoken ▸ hx)
      flights := fun flight hf => (h.flights flight hf).mono hg }
  · cases found with
    | none => trivial
    | some grant =>
        rw [begun.eq_def]
        simp only
        split
        · trivial
        · next hid =>
          split
          · trivial
          · obtain ⟨b, hb, rfl⟩ := (hfound grant rfl).2
            rw [ne_eq, not_not] at hid
            subst hid
            refine ⟨h.rows b hb, List.mem_append_right _ (by simp), hg.known _ ?_⟩
            exact List.mem_append_left _ (List.mem_append_left _ (List.mem_map_of_mem hb))

theorem Right.mark_on (h : Right config made w) {id : JsString} {now : Millis} {u : Unit} {db : Db}
    (hid : w.backed id) (hmark : attempt (markUploaded id now) w.db = (some u, db))
    {flight : Flight} (hflight : ∀ made w, flight.Right made w) :
    Onward config made w (flight, { w with db }) := by
  have haccounted : Accounted w.drawn (w.handed ++ []) db ∧ ∀ id ∈ accounted w.db w.handed,
      id ∈ accounted db (w.handed ++ []) := h.answered (.markUploaded id now) rfl rfl hmark
  rw [List.append_nil] at haccounted
  obtain ⟨hblobs, huploads⟩ : db.blobs = update (fun b => b.id == id && b.uploadedAt.isNone)
      (fun b => { b with uploadedAt := some now }) w.db.blobs ∧
      db.blobUploads = w.db.blobUploads := by
    rcases attempt_cases (markUploaded id now) w.db with hfail | ⟨a, t, ht, hok, _⟩
    · rw [hmark] at hfail
      cases hfail
    · rw [hmark] at hok
      cases hok
      rw [modify_ok ht]
      exact ⟨rfl, rfl⟩
  have hg : Grows made w made { w with db } :=
    ⟨fun _ h => h, fun _ h => h, fun _ h => h, fun _ h => h, fun _ h => h, haccounted.2⟩
  have hrow : ∀ b ∈ db.blobs, (b.id, b.hash, b.size) ∈ made ∧
      (b.uploadedAt ≠ none → w.backed b.id) := by
    intro b hb
    rw [hblobs] at hb
    obtain ⟨b', hb', rfl⟩ := List.mem_map.mp hb
    split
    · next hof =>
      refine ⟨h.rows b' hb', fun _ => ?_⟩
      rw [Bool.and_eq_true, beq_iff_eq] at hof
      show w.backed b'.id
      rw [hof.1]
      exact hid
    · exact ⟨h.rows b' hb', h.uploaded b' hb'⟩
  refine ⟨rfl, made, hg, ?_, hflight _ _⟩
  exact {
    known := haccounted.1
    one := h.one
    drawn := h.drawn
    rows := fun b hb => (hrow b hb).1
    uploaded := fun b hb => (hrow b hb).2
    stored := h.stored
    served := h.served
    uploads := fun u hu => h.uploads u (huploads ▸ hu)
    claimed := h.claimed
    once := h.once
    flights := fun flight hf => (h.flights flight hf).mono hg }

theorem storagePut_eq_some {id hash : JsString} {size : Nat} {body : Option (List UInt8)}
    {stored stored' : OMap JsString (List UInt8)}
    (h : storagePut config id hash size body stored = some stored') :
    ∃ bytes, (bytes.length = size ∧ config.blobName bytes = hash) ∧ stored' = stored.set id bytes := by
  rw [storagePut.eq_def] at h
  split at h
  · cases h
  · split at h
    · next hok =>
      cases h
      exact ⟨_, hok, rfl⟩
    · cases h

theorem Right.land_on (h : Right config made w) {id token hash : JsString} {size : Nat}
    (hflight : (Flight.landing id token hash size).Right made w) {body : Option (List UInt8)}
    {stored : OMap JsString (List UInt8)}
    (hput : storagePut config id hash size body w.stored = some stored) :
    Onward config made w (.mark id, { w with stored }) := by
  obtain ⟨bytes, ⟨rfl, rfl⟩, rfl⟩ := storagePut_eq_some hput
  have hg : Grows made w made { w with stored := w.stored.set id bytes } :=
    ⟨fun _ h => h, fun _ h => h, fun _ h => h, fun _ h => h,
      fun x hx => hx.imp_left fun hin => OMap.mem_keys_set.mpr (Or.inl hin), fun _ h => h⟩
  refine ⟨rfl, made, hg, ?_, Or.inl (OMap.mem_keys_set.mpr (Or.inr rfl))⟩
  exact {
    known := h.known
    one := h.one
    drawn := h.drawn
    rows := h.rows
    uploaded := fun b hb hup => hg.backed _ (h.uploaded b hb hup)
    stored := by
      intro x read hx
      rw [OMap.get?_set] at hx
      split at hx
      · next heq =>
        cases hx
        rw [heq]
        exact hflight.1
      · exact h.stored x read hx
    served := h.served
    uploads := h.uploads
    claimed := h.claimed
    once := h.once
    flights := fun flight hf => (h.flights flight hf).mono hg }

theorem Right.erase_on (h : Right config made w) {id : JsString} (hid : id ∈ w.handed)
    {flight : Flight} (hflight : flight.Right made { w with stored := w.stored.erase id }) :
    Onward config made w (flight, { w with stored := w.stored.erase id }) := by
  have hg : Grows made w made { w with stored := w.stored.erase id } := by
    refine ⟨fun _ h => h, fun _ h => h, fun _ h => h, fun _ h => h, fun x hx => ?_, fun _ h => h⟩
    by_cases heq : x = id
    · exact Or.inr (heq ▸ hid)
    · exact hx.imp_left fun hin => OMap.mem_keys_erase.mpr ⟨hin, heq⟩
  refine ⟨rfl, made, hg, ?_, hflight⟩
  exact {
    known := h.known
    one := h.one
    drawn := h.drawn
    rows := h.rows
    uploaded := fun b hb hup => hg.backed _ (h.uploaded b hb hup)
    stored := by
      intro x read hx
      rw [OMap.get?_erase] at hx
      split at hx
      · cases hx
      · exact h.stored x read hx
    served := h.served
    uploads := h.uploads
    claimed := h.claimed
    once := h.once
    flights := fun flight hf => (h.flights flight hf).mono hg }

theorem attempt_none {α : Type} {batch : Batch α} {db db' : Db}
    (h : attempt batch db = (none, db')) : db' = db := by
  rcases attempt_cases batch db with hfail | ⟨a, t, ht, hok, _⟩
  · rw [h] at hfail
    cases hfail
    rfl
  · rw [h] at hok
    cases hok

/-- A call rests on nothing once its row was asked for. -/
theorem afterKeep_right (hash : JsString) (now : Millis) (outcome : Option KeepOutcome)
    (made : List (JsString × JsString × Nat)) (w : BlobWorld) :
    ((outcome.map (afterKeep config hash now)).getD (.done .threw)).Right made w := by
  cases outcome with
  | none => trivial
  | some outcome =>
      cases outcome with
      | kept blob =>
          simp only [Option.map_some, Option.getD_some, afterKeep]
          split <;> trivial
      | _ => trivial

/-- A call that ends, the world as it was. -/
theorem Right.ends (h : Right config made w) (outcome : BlobOutcome) :
    Onward config made w (.done outcome, w) := ⟨rfl, made, .refl, h, trivial⟩

/-- What one call does when it goes on keeps what holds. -/
theorem Right.goOn (h : Right config made w) {flight : Flight} (hin : flight ∈ w.flights)
    {luck : Luck} {r : Flight × BlobWorld} (hstep : flight.goOn config luck w = some r) :
    Onward config made w r := by
  have hflight := h.flights flight hin
  cases flight with
  | keep ownerDid hash size now =>
      rw [Flight.goOn] at hstep
      split at hstep
      · cases hstep
      · next hnew =>
        cases hstep
        exact h.keep_on hnew rfl (afterKeep_right hash now _)
  | grant id hash retainUntil expires =>
      rw [Flight.goOn] at hstep
      split at hstep
      · cases hstep
      next hnew =>
      rcases hok : attempt (grantUpload luck.random id expires) w.db with ⟨answer, db⟩
      rw [hok] at hstep
      cases answer with
      | none =>
          cases hstep
          rw [attempt_none hok]
          exact h.ends .threw
      | some token =>
          cases hstep
          exact h.grant_on hnew hok fun _ _ => trivial
  | drop ownerDid hash =>
      rw [Flight.goOn] at hstep
      have hfewer := @fewer_dropBlob w.db ownerDid hash
      rcases hok : attempt (dropBlob ownerDid hash) w.db with ⟨answer, db⟩
      rw [hok] at hstep hfewer
      match answer with
      | none =>
          cases hstep
          rw [attempt_none hok]
          exact h.ends .threw
      | some none =>
          cases hstep
          have haccounted : Accounted w.drawn (w.handed ++ []) db ∧ ∀ id ∈ accounted w.db w.handed,
              id ∈ accounted db (w.handed ++ []) := h.answered (.dropBlob ownerDid hash) rfl rfl hok
          rw [List.append_nil] at haccounted
          obtain ⟨hg, hright⟩ := h.fewer hfewer haccounted fun _ hid => hid
          exact ⟨rfl, made, hg, hright, trivial⟩
      | some (some id) =>
          cases hstep
          obtain ⟨hg, hright⟩ := @Right.fewer _ _ _ h _ (w.handed ++ [id]) hfewer
            (h.answered (.dropBlob ownerDid hash) rfl rfl hok) fun _ => List.mem_append_left _
          exact ⟨rfl, made, hg, hright, List.mem_append_right _ (List.mem_singleton_self _)⟩
  | erase id hash =>
      cases hstep
      exact h.erase_on hflight trivial
  | claim id token declared =>
      rw [Flight.goOn] at hstep
      rcases hok : attempt (claimUpload token luck.now) w.db with ⟨answer, db⟩
      rw [hok] at hstep
      cases answer with
      | none =>
          cases hstep
          rw [attempt_none hok]
          exact h.ends .threw
      | some found =>
          cases hstep
          exact h.claim_on hok
  | landing id token hash size =>
      rw [Flight.goOn, landOn] at hstep
      split at hstep
      · cases hstep
        exact h.ends _
      · next stored hput =>
        cases hstep
        exact h.land_on hflight hput
  | mark id =>
      rw [Flight.goOn] at hstep
      rcases hok : attempt (markUploaded id luck.now) w.db with ⟨answer, db⟩
      rw [hok] at hstep
      cases answer with
      | none =>
          cases hstep
          rw [attempt_none hok]
          exact h.ends .threw
      | some u =>
          cases hstep
          exact h.mark_on hflight hok fun _ _ => trivial
  | look id range head =>
      rw [Flight.goOn, lookOn] at hstep
      cases hstep
      split
      · exact h.ends _
      · next info hinfo =>
        split
        · exact h.ends _
        · exact ⟨rfl, made, .refl, h, h.rows info (List.mem_of_find?_eq_some hinfo)⟩
  | read info range head =>
      rw [Flight.goOn, readOn] at hstep
      split at hstep
      · cases hstep
        exact h.ends _
      · next bytes hbytes =>
        cases hstep
        refine ⟨rfl, made,
          ⟨fun _ h => h, fun _ h => h, fun _ h => h, fun _ h => h, fun _ h => h, fun _ h => h⟩,
          { h with served := fun s hs => ?_ }, trivial⟩
        rcases List.mem_append.mp hs with hs | hs
        · exact h.served s hs
        · rw [List.mem_singleton.mp hs]
          have heq := List.inj_on_of_nodup_map h.one (h.stored _ _ hbytes) hflight rfl
          exact ⟨congrArg (·.2.2) heq, congrArg (·.2.1) heq⟩
  | purge =>
      rw [Flight.goOn] at hstep
      have hfewer := @fewer_purgeBlobs w.db luck.now
      rcases hok : attempt (purgeBlobs luck.now) w.db with ⟨answer, db⟩
      rw [hok] at hstep hfewer
      cases answer with
      | none =>
          cases hstep
          rw [attempt_none hok]
          exact h.ends .threw
      | some gone =>
          cases hstep
          obtain ⟨hg, hright⟩ := @Right.fewer _ _ _ h _ (w.handed ++ gone) hfewer
            (h.answered (.purgeBlobs luck.now) rfl rfl hok) fun _ => List.mem_append_left _
          refine ⟨rfl, made, hg, hright, ?_⟩
          cases gone with
          | nil => trivial
          | cons id rest => exact fun x hx => List.mem_append_right _ hx
  | erasing id rest gone =>
      cases hstep
      refine h.erase_on (hflight id List.mem_cons_self) ?_
      cases rest with
      | nil => trivial
      | cons next rest => exact fun x hx => hflight x (List.mem_cons_of_mem _ hx)
  | done outcome => cases hstep

/-! ## Where bytes and debts go -/

/-- What a step of one call does to the bytes stored and to what it has yet to delete. -/
structure Moves (config : BlobConfig) (luck : Luck) (w : BlobWorld) (flight : Flight)
    (r : Flight × BlobWorld) : Prop where
  erased : ∀ id ∈ w.stored.keys, id ∈ r.2.stored.keys ∨ id ∈ flight.owed
  pays : ∀ id ∈ flight.owed, id ∈ r.1.owed ∨ id ∉ r.2.stored.keys
  hands : ∀ id ∈ r.2.handed, id ∈ w.handed ∨ id ∈ r.1.owed
  owes : ∀ id ∈ r.1.owed, id ∈ flight.owed ∨ id ∉ w.handed

theorem owed_purging (gone : Nat) (ids : List JsString) : (purging gone ids).owed = ids := by
  cases ids <;> rfl

theorem owed_afterKeep (hash : JsString) (now : Millis) (outcome : Option KeepOutcome) :
    ((outcome.map (afterKeep config hash now)).getD (.done .threw)).owed = [] := by
  cases outcome with
  | none => rfl
  | some outcome =>
      cases outcome with
      | kept blob =>
          simp only [Option.map_some, Option.getD_some, afterKeep]
          split <;> rfl
      | _ => rfl

theorem owed_begun (id token : JsString) (declared : Binary64) (found : Option UploadGrant) :
    (begun id token declared found).owed = [] := by
  rw [begun.eq_def]
  split
  · rfl
  · split
    · rfl
    · split <;> rfl

/-- Most steps leave the bytes, and what is owed, alone. -/
theorem moves_still {luck : Luck} {flight : Flight} {r : Flight × BlobWorld}
    (hstored : ∀ id ∈ w.stored.keys, id ∈ r.2.stored.keys) (hhanded : r.2.handed = w.handed)
    (howed : flight.owed = []) (howed' : r.1.owed = []) : Moves config luck w flight r where
  erased id hid := Or.inl (hstored id hid)
  pays id hid := by rw [howed] at hid; cases hid
  hands id hid := Or.inl (hhanded ▸ hid)
  owes id hid := by rw [howed'] at hid; cases hid

/-- IDs handed out are owed, and none of them was handed out before. -/
theorem moves_handed {luck : Luck} {flight : Flight} {r : Flight × BlobWorld}
    (hright : Right config made r.2) (hstored : r.2.stored = w.stored)
    (hhanded : r.2.handed = w.handed ++ r.1.owed) (howed : flight.owed = []) :
    Moves config luck w flight r where
  erased id hid := Or.inl (hstored ▸ hid)
  pays id hid := by rw [howed] at hid; cases hid
  hands id hid := List.mem_append.mp (hhanded ▸ hid)
  owes id hid := by
    refine Or.inr fun hold => ?_
    have honce := (List.nodup_append.mp hright.known.once).2.1
    rw [hhanded] at honce
    exact (List.nodup_append.mp honce).2.2 id hold id hid rfl

theorem moves_erase {luck : Luck} {flight flight' : Flight} {id : JsString}
    (howed : flight.owed = id :: flight'.owed) :
    Moves config luck w flight (flight', { w with stored := w.stored.erase id }) where
  erased x hx := by
    by_cases heq : x = id
    · exact Or.inr (howed ▸ heq ▸ List.mem_cons_self)
    · exact Or.inl (OMap.mem_keys_erase.mpr ⟨hx, heq⟩)
  pays x hx := by
    rw [howed] at hx
    rcases List.mem_cons.mp hx with rfl | hx
    · exact Or.inr fun hin => (OMap.mem_keys_erase.mp hin).2 rfl
    · exact Or.inl hx
  hands x hx := Or.inl hx
  owes x hx := Or.inl (howed ▸ List.mem_cons_of_mem _ hx)

theorem Right.moves (h : Right config made w) {flight : Flight} (hin : flight ∈ w.flights)
    {luck : Luck} {r : Flight × BlobWorld} (hstep : flight.goOn config luck w = some r) :
    Moves config luck w flight r := by
  obtain ⟨_, made', _, hright, _⟩ := h.goOn hin hstep
  cases flight with
  | keep ownerDid hash size now =>
      rw [Flight.goOn] at hstep
      split at hstep
      · cases hstep
      · cases hstep
        exact moves_still (fun _ hid => hid) rfl rfl (owed_afterKeep hash now _)
  | grant id hash retainUntil expires =>
      rw [Flight.goOn] at hstep
      split at hstep
      · cases hstep
      · cases hstep
        generalize attempt (grantUpload luck.random id expires) w.db = result
        obtain ⟨_ | token, db⟩ := result <;> exact moves_still (fun _ hid => hid) rfl rfl rfl
  | drop ownerDid hash =>
      cases hstep
      generalize attempt (dropBlob ownerDid hash) w.db = result at hright ⊢
      obtain ⟨_ | _ | id, db⟩ := result
      · exact moves_still (fun _ hid => hid) rfl rfl rfl
      · exact moves_still (fun _ hid => hid) rfl rfl rfl
      · exact moves_handed hright rfl rfl rfl
  | erase id hash =>
      cases hstep
      exact moves_erase rfl
  | claim id token declared =>
      cases hstep
      generalize attempt (claimUpload token luck.now) w.db = result
      obtain ⟨_ | found, db⟩ := result
      · exact moves_still (fun _ hid => hid) rfl rfl rfl
      · exact moves_still (fun _ hid => hid) rfl rfl (owed_begun id token declared found)
  | landing id token hash size =>
      rw [Flight.goOn, landOn] at hstep
      split at hstep
      · cases hstep
        exact moves_still (fun _ hid => hid) rfl rfl rfl
      · next stored hput =>
        cases hstep
        refine moves_still (fun x hx => ?_) rfl rfl rfl
        obtain ⟨bytes, _, rfl⟩ := storagePut_eq_some hput
        exact OMap.mem_keys_set.mpr (Or.inl hx)
  | mark id =>
      cases hstep
      generalize attempt (markUploaded id luck.now) w.db = result
      obtain ⟨_ | u, db⟩ := result <;> exact moves_still (fun _ hid => hid) rfl rfl rfl
  | look id range head =>
      rw [Flight.goOn, lookOn] at hstep
      cases hstep
      refine moves_still (fun _ hid => hid) rfl rfl ?_
      split
      · rfl
      · split <;> rfl
  | read info range head =>
      rw [Flight.goOn, readOn] at hstep
      split at hstep <;> cases hstep <;> exact moves_still (fun _ hid => hid) rfl rfl rfl
  | purge =>
      cases hstep
      generalize attempt (purgeBlobs luck.now) w.db = result at hright ⊢
      obtain ⟨_ | gone, db⟩ := result
      · exact moves_still (fun _ hid => hid) rfl rfl rfl
      · refine moves_handed hright rfl ?_ rfl
        rw [afterPurge, owed_purging]
  | erasing id rest gone =>
      cases hstep
      refine moves_erase ?_
      rw [owed_purging]
      rfl
  | done outcome => cases hstep

/-- What is stored after a step was stored before it, or landed. -/
theorem stored_or_lands {i : Nat} {flight : Flight} (hi : w.flights[i]? = some flight)
    {luck : Luck} {r : Flight × BlobWorld} (hstep : flight.goOn config luck w = some r) :
    ∀ id ∈ r.2.stored.keys, id ∈ w.stored.keys ∨
      (BlobStep.goOn i luck).lands config w = some id := by
  have hsame : r.2.stored = w.stored → ∀ id ∈ r.2.stored.keys, id ∈ w.stored.keys ∨
      (BlobStep.goOn i luck).lands config w = some id := fun heq id hid => Or.inl (heq ▸ hid)
  cases flight with
  | landing id token hash size =>
      rw [Flight.goOn, landOn] at hstep
      split at hstep
      · cases hstep
        exact hsame rfl
      · next stored hput =>
        cases hstep
        intro x hx
        have hlands : (BlobStep.goOn i luck).lands config w = some id := by
          rw [BlobStep.lands, hi]
          simp only [hput, Option.map_some]
        obtain ⟨bytes, _, rfl⟩ := storagePut_eq_some hput
        rcases OMap.mem_keys_set.mp hx with hx | rfl
        · exact Or.inl hx
        · exact Or.inr hlands
  | erase id hash =>
      cases hstep
      exact fun x hx => Or.inl (OMap.mem_keys_erase.mp hx).1
  | erasing id rest gone =>
      cases hstep
      exact fun x hx => Or.inl (OMap.mem_keys_erase.mp hx).1
  | keep ownerDid hash size now =>
      rw [Flight.goOn] at hstep
      split at hstep
      · cases hstep
      · cases hstep
        exact hsame rfl
  | grant id hash retainUntil expires =>
      rw [Flight.goOn] at hstep
      split at hstep
      · cases hstep
      · cases hstep
        refine hsame ?_
        generalize attempt (grantUpload luck.random id expires) w.db = result
        obtain ⟨_ | token, db⟩ := result <;> rfl
  | drop ownerDid hash =>
      cases hstep
      refine hsame ?_
      generalize attempt (dropBlob ownerDid hash) w.db = result
      obtain ⟨_ | _ | id, db⟩ := result <;> rfl
  | claim id token declared =>
      cases hstep
      refine hsame ?_
      generalize attempt (claimUpload token luck.now) w.db = result
      obtain ⟨_ | found, db⟩ := result <;> rfl
  | mark id =>
      cases hstep
      refine hsame ?_
      generalize attempt (markUploaded id luck.now) w.db = result
      obtain ⟨_ | u, db⟩ := result <;> rfl
  | look id range head =>
      cases hstep
      exact hsame rfl
  | read info range head =>
      rw [Flight.goOn, readOn] at hstep
      split at hstep <;> cases hstep <;> exact hsame rfl
  | purge =>
      cases hstep
      refine hsame ?_
      generalize attempt (purgeBlobs luck.now) w.db = result
      obtain ⟨_ | gone, db⟩ := result <;> rfl
  | done outcome => cases hstep

/-! ## Steps -/

variable {options : Options}

theorem owed_put (config : BlobConfig) (owner : Did) (hash size : EventStore.JsValue)
    (now : Millis) : (put config owner hash size now).owed = [] ∧
      ∀ made w, (put config owner hash size now).Right made w := by
  rw [put.eq_def]
  split
  · exact ⟨rfl, fun _ _ => trivial⟩
  · split
    · exact ⟨rfl, fun _ _ => trivial⟩
    · split <;> exact ⟨rfl, fun _ _ => trivial⟩

theorem owed_remove (owner : Did) (hash : EventStore.JsValue) :
    (remove owner hash).owed = [] ∧ ∀ made w, (remove owner hash).Right made w := by
  rw [remove.eq_def]
  split <;> exact ⟨rfl, fun _ _ => trivial⟩

/-- What a step can do: bring a call in flight, let another call of the store come in
between, or let a call go on. -/
inductive Stepped (config : BlobConfig) (options : Options) (w : BlobWorld) :
    BlobStep → BlobWorld → Prop where
  | called {step : BlobStep} (flight : Flight) (hlands : step.lands config w = none)
      (howed : flight.owed = []) (hright : ∀ made w, flight.Right made w) :
      Stepped config options w step (w.called flight)
  | mediation (call : Call) :
      Stepped config options w (.mediation call) { w with db := call.after options w.db }
  | goOn {i : Nat} {luck : Luck} {flight : Flight} {r : Flight × BlobWorld}
      (hi : w.flights[i]? = some flight) (hgo : flight.goOn config luck w = some r) :
      Stepped config options w (.goOn i luck) { r.2 with flights := w.flights.set i r.1 }

theorem stepped {step : BlobStep} (h : step.after config options w = some w') :
    Stepped config options w step w' := by
  cases step with
  | put owner hash size now =>
      cases h
      exact .called _ rfl (owed_put config owner hash size now).1 (owed_put config owner hash size now).2
  | remove owner hash =>
      cases h
      exact .called _ rfl (owed_remove owner hash).1 (owed_remove owner hash).2
  | upload id token contentLength =>
      cases h
      exact .called _ rfl rfl fun _ _ => trivial
  | serve id range head =>
      cases h
      exact .called _ rfl rfl fun _ _ => trivial
  | purge =>
      cases h
      exact .called _ rfl rfl fun _ _ => trivial
  | mediation call =>
      cases h
      exact .mediation call
  | goOn i luck =>
      rw [BlobStep.after] at h
      split at h
      · cases h
      · next flight hi =>
        obtain ⟨r, hr, rfl⟩ := Option.map_eq_some_iff.mp h
        exact .goOn hi hr

theorem Right.after (h : Right config made w) {step : BlobStep}
    (hstep : step.after config options w = some w') :
    ∃ made', Grows made w made' w' ∧ Right config made' w' := by
  cases stepped hstep with
  | called flight _ _ hright =>
      refine ⟨made, ⟨fun _ h => h, fun _ h => h, fun _ h => h, fun _ h => h, fun _ h => h,
        fun _ h => h⟩, { h with flights := fun f hf => ?_ }⟩
      rcases List.mem_append.mp hf with hf | hf
      · exact h.flights f hf
      · rw [List.mem_singleton.mp hf]
        exact hright made _
  | mediation call =>
      obtain ⟨hperm, haccounted⟩ := h.known.ended (ended_after options call w.db)
      obtain ⟨hg, hright⟩ := h.fewer (fewerBlobs_mediation options call w.db)
        ⟨haccounted, fun id hid => hperm.mem_iff.mpr hid⟩ fun _ hid => hid
      exact ⟨made, hg, hright⟩
  | @goOn i luck flight r hi hgo =>
      obtain ⟨hflights, made', hg, hright, hflight⟩ := h.goOn (List.mem_of_getElem? hi) hgo
      refine ⟨made', ⟨hg.made, hg.drawn, hg.handed, hg.claimed, hg.backed, hg.known⟩,
        { hright with flights := fun f hf => ?_ }⟩
      rcases List.mem_or_eq_of_mem_set hf with hf | rfl
      · exact hright.flights f (hflights ▸ hf)
      · exact hflight

/-- What a call owes was handed out. -/
theorem Flight.Right.owed_handed {flight : Flight} (h : flight.Right made w) :
    ∀ id ∈ flight.owed, id ∈ w.handed := by
  cases flight with
  | erase id hash => exact List.forall_mem_singleton.mpr h
  | erasing id rest gone => exact h
  | _ => exact fun _ hid => nomatch hid

theorem owed_of_set {flights : List Flight} {i : Nat} {flight : Flight} {id : JsString}
    (h : id ∈ (flights.set i flight).flatMap Flight.owed) :
    id ∈ flight.owed ∨ id ∈ flights.flatMap Flight.owed := by
  obtain ⟨f, hf, hid⟩ := List.mem_flatMap.mp h
  rcases List.mem_or_eq_of_mem_set hf with hf | rfl
  · exact Or.inr (List.mem_flatMap.mpr ⟨f, hf, hid⟩)
  · exact Or.inl hid

theorem owed_set {flights : List Flight} {i : Nat} {flight flight' : Flight} {id : JsString}
    (hi : flights[i]? = some flight) (h : id ∈ flights.flatMap Flight.owed)
    (hkept : id ∈ flight.owed → id ∈ flight'.owed) :
    id ∈ (flights.set i flight').flatMap Flight.owed := by
  obtain ⟨f, hf, hid⟩ := List.mem_flatMap.mp h
  obtain ⟨j, hj⟩ := List.mem_iff_getElem?.mp hf
  by_cases heq : j = i
  · subst heq
    rw [hi] at hj
    cases hj
    have hlen := (List.getElem?_eq_some_iff.mp hi).1
    refine List.mem_flatMap.mpr ⟨flight', ?_, hkept hid⟩
    exact List.mem_iff_getElem?.mpr ⟨j, by rw [List.getElem?_set_self hlen]⟩
  · refine List.mem_flatMap.mpr ⟨f, List.mem_iff_getElem?.mpr ⟨j, ?_⟩, hid⟩
    rw [List.getElem?_set_ne (Ne.symm heq)]
    exact hj

/-! ## What is stored is listed -/

/-- What is stored is of a blob that is listed, or that a call has yet to delete. -/
def BlobWorld.tidy (w : BlobWorld) : Prop := ∀ id ∈ w.stored.keys, w.lists id ∨ id ∈ w.owed

/-- Bytes that no call will delete: handed out, and no longer owed. -/
structure Stray (w : BlobWorld) (id : JsString) : Prop where
  stored : id ∈ w.stored.keys
  handed : id ∈ w.handed
  settled : id ∉ w.owed

theorem owed_called {flight : Flight} (h : flight.owed = []) (w : BlobWorld) :
    (w.called flight).owed = w.owed := by
  rw [BlobWorld.owed, BlobWorld.called, List.flatMap_append, List.flatMap_singleton, h,
    List.append_nil]
  rfl

/-- A listed ID that a step hands out is not listed any more, one that it does not is. -/
theorem Grows.lists (hg : Grows made w made' w') {id : JsString}
    (hid : w.lists id) : w'.lists id ∨ id ∈ w'.handed := by
  have haccounted : id ∈ accounted w.db w.handed := by
    rcases hid with hrow | hended
    · exact List.mem_append_left _ (List.mem_append_left _ hrow)
    · exact List.mem_append_left _ (List.mem_append_right _ hended)
  rcases List.mem_append.mp (hg.known id haccounted) with hin | hin
  · exact Or.inl (List.mem_append.mp hin)
  · exact Or.inr hin

theorem Right.tidy_after (h : Right config made w) (ht : w.tidy) {step : BlobStep}
    (hstep : step.after config options w = some w') (hprompt : step.prompt config w) :
    w'.tidy := by
  obtain ⟨made', hg, hright⟩ := h.after hstep
  cases stepped hstep with
  | called flight _ howed _ =>
      intro id hid
      rw [owed_called howed]
      exact ht id hid
  | mediation call =>
      intro id hid
      rcases ht id hid with hlists | howed
      · exact Or.inl ((hg.lists hlists).resolve_right fun hin => h.not_lists hin hlists)
      · exact Or.inr howed
  | @goOn i luck flight r hi hgo =>
      have hmoves := h.moves (List.mem_of_getElem? hi) hgo
      obtain ⟨_, _, hg, _, _⟩ := h.goOn (List.mem_of_getElem? hi) hgo
      have hlen := (List.getElem?_eq_some_iff.mp hi).1
      have hnew : ∀ id ∈ r.1.owed, id ∈ (w.flights.set i r.1).flatMap Flight.owed :=
        fun id hid => List.mem_flatMap.mpr ⟨r.1, List.mem_set hlen _, hid⟩
      intro id hid
      have hbefore : w.lists id ∨ id ∈ w.owed :=
        (stored_or_lands hi hgo id hid).elim (ht id) fun hlands => hprompt id hlands
      rcases hbefore with hlists | howed
      · rcases hg.lists hlists with hlists' | hhanded
        · exact Or.inl hlists'
        · rcases hmoves.hands id hhanded with hold | howed
          · exact absurd hlists (h.not_lists hold)
          · exact Or.inr (hnew id howed)
      · refine Or.inr (owed_set hi howed fun hof => ?_)
        exact (hmoves.pays id hof).resolve_right fun hout => hout hid

theorem Stray.after {id : JsString} (hs : Stray w id) (h : Right config made w) {step : BlobStep}
    (hstep : step.after config options w = some w') : Stray w' id := by
  cases stepped hstep with
  | called flight _ howed _ => exact ⟨hs.stored, hs.handed, by rw [owed_called howed]; exact hs.settled⟩
  | mediation call => exact ⟨hs.stored, hs.handed, hs.settled⟩
  | @goOn i luck flight r hi hgo =>
      have hin := List.mem_of_getElem? hi
      have hmoves := h.moves hin hgo
      obtain ⟨_, _, hg, _, _⟩ := h.goOn hin hgo
      have hout : id ∉ flight.owed := fun hof =>
        hs.settled (List.mem_flatMap.mpr ⟨flight, hin, hof⟩)
      refine ⟨(hmoves.erased id hs.stored).resolve_right hout, hg.handed id hs.handed, fun howed => ?_⟩
      rcases owed_of_set howed with hnew | hold
      · rcases hmoves.owes id hnew with hof | hfresh
        · exact hout hof
        · exact hfresh hs.handed
      · exact hs.settled hold

/-- What lands too late is stray. -/
theorem Right.stray_of_late (h : Right config made w) {step : BlobStep}
    (hstep : step.after config options w = some w') (hlate : ¬ step.prompt config w) :
    ∃ id, Stray w' id := by
  rw [BlobStep.prompt] at hlate
  simp only [not_forall, not_or] at hlate
  obtain ⟨id, hlands, hunlisted, hsettled⟩ := hlate
  cases stepped hstep with
  | called flight hnone _ _ =>
      rw [hnone] at hlands
      cases hlands
  | mediation call => cases hlands
  | @goOn i luck flight r hi hgo =>
      rw [BlobStep.lands, hi] at hlands
      cases flight with
      | landing id' token hash size =>
          obtain ⟨stored, hput, rfl⟩ := Option.map_eq_some_iff.mp hlands
          rw [Flight.goOn, landOn, hput] at hgo
          cases hgo
          obtain ⟨_, _, hknown⟩ := h.flights _ (List.mem_of_getElem? hi)
          obtain ⟨bytes, _, rfl⟩ := storagePut_eq_some hput
          refine ⟨id', OMap.mem_keys_set.mpr (Or.inr rfl), ?_, fun howed => ?_⟩
          · exact (List.mem_append.mp hknown).resolve_left fun hin =>
              hunlisted (List.mem_append.mp hin)
          · rcases owed_of_set howed with hnew | hold
            · cases hnew
            · exact hsettled hold
      | _ => cases hlands

/-! ## Runs -/

theorem blobRun_append (before after : List BlobStep) (w : BlobWorld) :
    blobRun config options (before ++ after) w =
      (blobRun config options before w).bind (blobRun config options after) := by
  induction before generalizing w with
  | nil => rfl
  | cons step before ih =>
      rw [List.cons_append, blobRun, blobRun]
      cases step.after config options w with
      | none => rfl
      | some w' => exact ih w'

theorem right_empty : Right config [] .empty where
  known := accounted_empty
  one := List.nodup_nil
  drawn _ h := nomatch h
  rows _ h := nomatch h
  uploaded _ h := nomatch h
  stored _ _ h := nomatch h
  served _ h := nomatch h
  uploads _ h := nomatch h
  claimed _ h := nomatch h
  once := List.nodup_nil
  flights _ h := nomatch h

theorem Right.run (h : Right config made w) {steps : List BlobStep}
    (hrun : blobRun config options steps w = some w') :
    ∃ made', Grows made w made' w' ∧ Right config made' w' := by
  induction steps generalizing made w with
  | nil =>
      cases hrun
      exact ⟨made, .refl, h⟩
  | cons step steps ih =>
      obtain ⟨w1, hstep, hrun⟩ := Option.bind_eq_some_iff.mp hrun
      obtain ⟨made1, hg1, h1⟩ := h.after hstep
      obtain ⟨made2, hg2, h2⟩ := ih h1 hrun
      exact ⟨made2, hg1.trans hg2, h2⟩

/-- Every step of the run that stores bytes does so while they are listed or owed. -/
def PromptRun (config : BlobConfig) (options : Options) (steps : List BlobStep)
    (w : BlobWorld) : Prop :=
  ∀ before step after w1, steps = before ++ step :: after →
    blobRun config options before w = some w1 → step.prompt config w1

theorem Right.tidy_run (h : Right config made w) (ht : w.tidy) {steps : List BlobStep}
    (hrun : blobRun config options steps w = some w')
    (hprompt : PromptRun config options steps w) : w'.tidy := by
  induction steps generalizing made w with
  | nil =>
      cases hrun
      exact ht
  | cons step steps ih =>
      obtain ⟨w1, hstep, hrun⟩ := Option.bind_eq_some_iff.mp hrun
      obtain ⟨made1, _, h1⟩ := h.after hstep
      refine ih h1 (h.tidy_after ht hstep (hprompt [] step steps w rfl rfl)) hrun ?_
      intro before step' after w2 hsplit hbefore
      refine hprompt (step :: before) step' after w2 (by rw [hsplit]; rfl) ?_
      rw [blobRun, hstep]
      exact hbefore

theorem Stray.run {id : JsString} (hs : Stray w id) (h : Right config made w)
    {steps : List BlobStep} (hrun : blobRun config options steps w = some w') : Stray w' id := by
  induction steps generalizing made w with
  | nil =>
      cases hrun
      exact hs
  | cons step steps ih =>
      obtain ⟨w1, hstep, hrun⟩ := Option.bind_eq_some_iff.mp hrun
      obtain ⟨made1, _, h1⟩ := h.after hstep
      exact ih (hs.after h hstep) h1 hrun

end

/-- Over any run: what is served is of the size and the name of its row; an uploaded row has
its bytes until its ID was handed out; no step deletes bytes under the ID of a row; a token
is claimed once at most, for the blob it was granted for, and bytes land for a token that
was claimed. Where the run has come to rest, what is stored is listed exactly if no bytes
landed after their blob had gone and its delete was done. -/
theorem bytes_follow_rows (config : BlobConfig) (options : Options) {steps : List BlobStep}
    {w : BlobWorld} (h : blobRun config options steps .empty = some w) :
    (∀ s ∈ w.served, s.2.length = s.1.size ∧ config.blobName s.2 = s.1.hash) ∧
    (∀ before after w1, steps = before ++ after →
      blobRun config options before .empty = some w1 →
      ∀ b ∈ w1.db.blobs, b.uploadedAt ≠ none → b.id ∉ w.handed → b.id ∈ w.stored.keys) ∧
    (∀ before step after w1 w2, steps = before ++ step :: after →
      blobRun config options before .empty = some w1 → step.after config options w1 = some w2 →
      ∀ id ∈ w1.stored.keys, id ∉ w2.stored.keys → id ∉ w1.db.blobs.map Blob.id) ∧
    ((w.claimed.map Prod.fst).Nodup ∧ (∀ claim ∈ w.claimed, claim ∈ w.granted) ∧
      ∀ id token hash size, .landing id token hash size ∈ w.flights → (token, id) ∈ w.claimed) ∧
    (w.idle →
      ((∀ id ∈ w.stored.keys, w.lists id) ↔ PromptRun config options steps .empty)) := by
  obtain ⟨made, _, hright⟩ := (@right_empty config).run h
  have hsplit : ∀ {before after : List BlobStep} {w1 : BlobWorld}, steps = before ++ after →
      blobRun config options before .empty = some w1 →
      blobRun config options after w1 = some w := by
    intro before after w1 hsteps hbefore
    rw [hsteps, blobRun_append, hbefore] at h
    exact h
  refine ⟨hright.served, ?_, ?_, ⟨hright.once, hright.claimed, ?_⟩, ?_⟩
  · intro before after w1 hsteps hbefore b hb hup hkept
    obtain ⟨made1, _, hright1⟩ := (@right_empty config).run hbefore
    obtain ⟨_, hg, _⟩ := hright1.run (hsplit hsteps hbefore)
    exact (hg.backed b.id (hright1.uploaded b hb hup)).resolve_right hkept
  · intro before step after w1 w2 hsteps hbefore hstep id hid hgone
    obtain ⟨made1, _, hright1⟩ := (@right_empty config).run hbefore
    cases stepped hstep with
    | called flight _ _ _ => exact absurd hid hgone
    | mediation call => exact absurd hid hgone
    | @goOn i luck flight r hi hgo =>
        have hin := List.mem_of_getElem? hi
        have howed := ((hright1.moves hin hgo).erased id hid).resolve_left hgone
        have hhanded := (hright1.flights flight hin).owed_handed id howed
        exact fun hrow => hright1.not_lists hhanded (Or.inl hrow)
  · intro id token hash size hin
    exact (hright.flights _ hin).2.1
  · intro hidle
    have hnone : w.owed = [] := by
      rw [BlobWorld.owed, List.flatMap_eq_nil_iff]
      intro flight hin
      have hdone := hidle flight hin
      cases flight <;> first | rfl | cases hdone
    constructor
    · intro hlisted before step after w1 hsteps hbefore
      by_contra hlate
      obtain ⟨made1, _, hright1⟩ := (@right_empty config).run hbefore
      obtain ⟨w2, hstep, hrest⟩ := Option.bind_eq_some_iff.mp (hsplit hsteps hbefore)
      obtain ⟨id, hstray⟩ := hright1.stray_of_late hstep hlate
      obtain ⟨made2, _, hright2⟩ := hright1.after hstep
      have hstray := hstray.run hright2 hrest
      exact hright.not_lists hstray.handed (hlisted id hstray.stored)
    · intro hprompt id hid
      have htidy : w.tidy := (@right_empty config).tidy_run (fun _ hid => nomatch hid) h hprompt
      refine (htidy id hid).resolve_right fun howed => ?_
      rw [hnone] at howed
      cases howed

instance decidableLists (w : BlobWorld) (id : JsString) : Decidable (w.lists id) :=
  inferInstanceAs (Decidable (_ ∨ _))

instance decidableIdle (w : BlobWorld) : Decidable w.idle :=
  inferInstanceAs (Decidable (∀ flight ∈ w.flights, flight.isDone = true))

/-- The name of the two bytes of the examples. -/
def exampleName : JsString := lit "bciqi6q2dizsi624w36e53kibyulwwefg3a4wdxj4dleiwwns3qzhvja"

def exampleBlobs : BlobConfig := ⟨⟨60, 10, 10⟩, lit "https://m.example/", fun _ => exampleName⟩

def exampleOwner : Did := lit "did:web:a"

/-- A client is granted an upload, and its token is claimed. -/
def exampleUpload : List BlobStep :=
  [.mediation (.grantMediation exampleOwner 0),
    .put exampleOwner (.str exampleName) (.scalar (.number (Binary64.ofInt 2))) 0,
    .goOn 0 ⟨0, lit "id", none⟩, .goOn 0 ⟨0, lit "token", none⟩,
    .upload (lit "id") (lit "token") (Binary64.ofInt 2), .goOn 1 ⟨1, [], none⟩]

/-- The bytes of the upload arrive. -/
def exampleBytes : List BlobStep := [.goOn 1 ⟨2, [], some [0x68, 0x69]⟩, .goOn 1 ⟨3, [], none⟩]

/-- A blob uploaded and served, and what holds of it. -/
theorem bytes_follow_rows_example :
    let steps := exampleUpload ++ exampleBytes ++
      [.serve (lit "id") none false, .goOn 2 ⟨4, [], none⟩, .goOn 2 ⟨4, [], none⟩]
    ∃ w, blobRun exampleBlobs ⟨1000, 10⟩ steps .empty = some w ∧
      w.served.map Prod.snd = [[0x68, 0x69]] ∧
      ∀ s ∈ w.served, s.2.length = s.1.size ∧ exampleBlobs.blobName s.2 = s.1.hash := by
  intro steps
  obtain ⟨w, hw⟩ : ∃ w, blobRun exampleBlobs ⟨1000, 10⟩ steps .empty = some w :=
    Option.isSome_iff_exists.mp (by decide +kernel)
  have hserved : ((blobRun exampleBlobs ⟨1000, 10⟩ steps .empty).map fun w =>
      w.served.map Prod.snd) = some [[0x68, 0x69]] := by decide +kernel
  rw [hw] at hserved
  exact ⟨w, hw, Option.some.inj hserved, (bytes_follow_rows exampleBlobs ⟨1000, 10⟩ hw).1⟩

/-- A client removes its blob while it uploads it: the row goes, nothing is there to delete,
and then the bytes land. No call is in flight, and storage holds bytes that nothing lists. -/
theorem bytes_outlive_row :
    let steps := exampleUpload ++ [.remove exampleOwner (.str exampleName),
      .goOn 2 ⟨2, [], none⟩, .goOn 2 ⟨2, [], none⟩] ++ exampleBytes
    ∃ w, blobRun exampleBlobs ⟨1000, 10⟩ steps .empty = some w ∧ w.idle ∧
      ¬ ∀ id ∈ w.stored.keys, w.lists id := by
  intro steps
  obtain ⟨w, hw⟩ : ∃ w, blobRun exampleBlobs ⟨1000, 10⟩ steps .empty = some w :=
    Option.isSome_iff_exists.mp (by decide +kernel)
  have hend : ((blobRun exampleBlobs ⟨1000, 10⟩ steps .empty).any fun w =>
      decide (w.idle ∧ ¬ ∀ id ∈ w.stored.keys, w.lists id)) = true := by decide +kernel
  rw [hw, Option.any_some, decide_eq_true_eq] at hend
  exact ⟨w, hw, hend⟩

end Estoc.Mediator
