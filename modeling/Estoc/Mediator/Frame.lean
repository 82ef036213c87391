import Estoc.Mediator.Service

/-!
# What the other calls leave alone

Replica accounts, their replicas and their packages are written by the calls of mediation
alone. Each other call, an execution registered or purged or a blob put or ended, leaves
the three tables as they are, and so a property of them is followed through a run by
following the mediation calls.
-/

set_option linter.unusedSectionVars false

namespace Estoc.Mediator

open Utf16 (JsString)
open Checked (bind_eq_ok)
open Sql (select Keeps keeps_pure keeps_select_bind keeps_write keeps_bind insert)

/-- The replica accounts, their replicas and what is kept for them. -/
def mailRows (db : Db) : List ReplicaAccount × List Replica × List Package :=
  (db.replicaAccounts, db.replicas, db.packages)

theorem keeps_change {change : Db → Except Sql.Fault Db}
    (h : ∀ db db', change db = .ok db' → mailRows db' = mailRows db) : Keeps mailRows (write change) :=
  keeps_write h

theorem keeps_modify {change : Db → Db} (h : ∀ db, mailRows (change db) = mailRows db) :
    Keeps mailRows (modify change) := by
  refine keeps_change fun db db' hchange => ?_
  obtain rfl := Except.ok.inj hchange
  exact h db

/-- One statement between a read and the end. -/
theorem keeps_modify_once {α β : Type} {read : Db → α} {change : Db → Db} {made : α → β}
    (h : ∀ db, mailRows (change db) = mailRows db) :
    Keeps mailRows (do let a ← select read; modify change; pure (made a)) :=
  keeps_select_bind fun _ => keeps_bind (keeps_modify h) fun _ => keeps_pure _

theorem keeps_registerExecution (id : JsString) (r : ExecutionRegistration) (now : Millis) :
    Keeps mailRows (registerExecution id r now) := by
  refine keeps_select_bind fun caller => keeps_bind (keeps_change fun db db' h => ?_) fun _ =>
    keeps_bind (keeps_modify fun db => ?_) fun _ => keeps_select_bind fun _ => keeps_pure _
  · split at h
    · obtain rfl := Except.ok.inj h
      rfl
    · split at h
      · obtain ⟨executions, -, h⟩ := bind_eq_ok.mp h
        obtain rfl := Except.ok.inj h
        rfl
      · obtain rfl := Except.ok.inj h
        rfl
  · split
    · rfl
    · split
      · rfl
      · dsimp only
        split <;> rfl

theorem keeps_purgeExecutions (now : Millis) : Keeps mailRows (purgeExecutions now) := by
  unfold purgeExecutions
  exact keeps_modify_once fun _ => rfl

theorem keeps_keepBlob (keep : BlobKeep) (quotaBytes : Nat) (now : Millis) :
    Keeps mailRows (keepBlob keep quotaBytes now) := by
  refine keeps_select_bind fun held => keeps_select_bind fun created =>
    keeps_bind (keeps_change fun db db' h => ?_) fun _ => keeps_select_bind fun renewed =>
      keeps_bind (keeps_modify fun db => rfl) fun _ => keeps_select_bind fun kept => keeps_pure _
  split at h
  · obtain ⟨blobs, -, h⟩ := bind_eq_ok.mp h
    obtain rfl := Except.ok.inj h
    rfl
  · obtain rfl := Except.ok.inj h
    rfl

theorem keeps_grantUpload (token id : JsString) (expiresAt : Millis) :
    Keeps mailRows (grantUpload token id expiresAt) := by
  refine keeps_bind (keeps_change fun db db' h => ?_) fun _ => keeps_pure _
  obtain ⟨uploads, -, h⟩ := bind_eq_ok.mp h
  obtain rfl := Except.ok.inj h
  rfl

theorem keeps_dropBlob (owner : Did) (hash : JsString) : Keeps mailRows (dropBlob owner hash) := by
  unfold dropBlob
  exact keeps_modify_once fun _ => rfl

theorem keeps_claimUpload (token : JsString) (now : Millis) :
    Keeps mailRows (claimUpload token now) := by
  unfold claimUpload
  exact keeps_modify_once fun _ => rfl

theorem keeps_markUploaded (id : JsString) (now : Millis) :
    Keeps mailRows (markUploaded id now) := by
  unfold markUploaded
  exact keeps_modify fun _ => rfl

theorem keeps_purgeBlobs (now : Millis) : Keeps mailRows (purgeBlobs now) := by
  refine keeps_select_bind fun _ => keeps_bind (keeps_modify fun _ => ?_) fun _ =>
    keeps_bind (keeps_modify fun _ => ?_) fun _ => keeps_bind (keeps_modify fun _ => ?_) fun _ =>
      keeps_pure _
  all_goals rfl

theorem mailRows_answering {α : Type} {answer : α → StoreAnswer} {batch : Batch α}
    (h : Keeps mailRows batch) (db : Db) : mailRows (answering answer batch db).2 = mailRows db := by
  rw [answering]
  rcases attempt_cases batch db with hfailed | ⟨a, t, ht, hlanded, -⟩
  · rw [hfailed]
  · rw [hlanded]
    exact h _ a t ht

/-- A call is one of mediation or leaves the replica accounts and their mail alone. -/
theorem serve_cases (options : Options) (call : StoreCall) (db : Db) :
    (∃ made, call = .mediation made ∧ (call.serve options db).2 = made.after options db) ∨
      mailRows (call.serve options db).2 = mailRows db := by
  cases call with
  | mediation made => exact .inl ⟨made, rfl, rfl⟩
  | registerExecution id registration now =>
      exact .inr (mailRows_answering (keeps_registerExecution id registration now) db)
  | purgeExecutions now => exact .inr (mailRows_answering (keeps_purgeExecutions now) db)
  | keepBlob keep quotaBytes now => exact .inr (mailRows_answering (keeps_keepBlob keep quotaBytes now) db)
  | dropBlob owner hash => exact .inr (mailRows_answering (keeps_dropBlob owner hash) db)
  | grantUpload token id expiresAt =>
      exact .inr (mailRows_answering (keeps_grantUpload token id expiresAt) db)
  | claimUpload token now => exact .inr (mailRows_answering (keeps_claimUpload token now) db)
  | markUploaded id now => exact .inr (mailRows_answering (keeps_markUploaded id now) db)
  | purgeBlobs now => exact .inr (mailRows_answering (keeps_purgeBlobs now) db)

end Estoc.Mediator
