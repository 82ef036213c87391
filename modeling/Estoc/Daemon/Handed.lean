import Estoc.Daemon.Notified

/-!
# What a session hands to its port

A call or a refresh hands one frame to the port at most, and leaves what is shown. Of what comes in,
only a welcome has a frame handed to the port, the attachment.
-/

set_option linter.unusedSectionVars false

namespace Estoc.Daemon

open Json (lit)
open Utf16 (JsString)

namespace Says

variable {Data Input Raw Limits S L V : Type} {sdk : Sdk Data Input Raw Limits S L V}
  {client client' : Client Data Limits S L V}

/-- Nothing was handed to the port, or the frame of one call. -/
def Handed (sdk : Sdk Data Input Raw Limits S L V) (name : JsString) (input : Input)
    (client client' : Client Data Limits S L V) : Prop :=
  client'.sent = client.sent ∨ ∃ limits id frame, sdk.writeCall limits id name input = .ok frame ∧
    client'.sent = client.sent ++ [(some id, frame)]

theorem handed_send (sdk : Sdk Data Input Raw Limits S L V) (client : Client Data Limits S L V)
    (name : JsString) (input : Input) (answered : Pending Limits) :
    Handed sdk name input client (Client.send sdk client name input answered).2 ∧
      (Client.send sdk client name input answered).2.state = client.state ∧
      (Client.send sdk client name input answered).2.lines = client.lines := by
  unfold Client.send
  split
  · exact ⟨.inl rfl, rfl, rfl⟩
  · next limits _ =>
      dsimp only
      split
      · exact ⟨.inl rfl, rfl, rfl⟩
      · next frame hwrite => exact ⟨.inr ⟨limits, _, frame, hwrite, rfl⟩, rfl, rfl⟩

/-- What is asked of a session: what it shows stays. -/
structure Leaves (sdk : Sdk Data Input Raw Limits S L V) (name : JsString) (input : Input)
    (client client' : Client Data Limits S L V) : Prop where
  handed : Handed sdk name input client client'
  state : client'.state = client.state
  lines : client'.lines = client.lines

theorem leaves_handSettled {name : JsString} {input : Input} {outcome : Outcome V} :
    Leaves sdk name input client (client.handSettled outcome) := ⟨.inl rfl, rfl, rfl⟩

theorem leaves_dispatch {name : JsString} {input : Input} {answered : Nat → Pending Limits} :
    Leaves sdk name input client (client.dispatch sdk name input answered) := by
  unfold Client.dispatch
  dsimp only
  obtain ⟨hhanded, hstate, hlines⟩ := handed_send sdk { client with ledger := client.ledger.hand } name
    input (answered client.ledger.handed)
  split
  · next refused client' hsend =>
      rw [hsend] at hhanded hstate hlines
      exact ⟨hhanded, hstate, hlines⟩
  · next client' hsend =>
      rw [hsend] at hhanded hstate hlines
      exact ⟨hhanded, hstate, hlines⟩

theorem leaves_call {name : JsString} {input : Input} :
    Leaves sdk name input client (client.call sdk name input) := by
  unfold Client.call
  split
  · exact leaves_handSettled
  · split
    · exact leaves_handSettled
    · exact leaves_dispatch

theorem leaves_refresh : Leaves sdk (lit "refresh") sdk.noInput client (client.refresh sdk) := by
  unfold Client.refresh
  split
  · exact leaves_handSettled
  · exact leaves_dispatch

/-! ## What comes in -/

/-- What nothing but a call and a welcome changes. -/
def kept (client : Client Data Limits S L V) : List (Option Nat × Data) × Nat × Option Limits :=
  (client.sent, client.nextId, client.limits)

theorem kept_finish (connection : Connection Limits) :
    kept (finish client connection).1 = kept client := by
  unfold finish
  split
  · rfl
  · rfl

theorem kept_rejectCall (pending : Pending Limits) (error : CallError) :
    kept (rejectCall client pending error).1 = kept client := by
  cases pending with
  | attach connection => exact kept_finish _
  | refresh promise => rfl
  | call name promise => rfl

theorem kept_protocolError (message : JsString) (culprit : Option (Pending Limits)) :
    kept (protocolError client message culprit).1 = kept client := by
  cases culprit with
  | none => exact kept_finish _
  | some pending => exact (kept_finish _).trans (kept_rejectCall _ _)

theorem kept_replied (limits : Limits) (pending : Pending Limits) (value : Raw) :
    kept (replied sdk client limits pending value).1 = kept client := by
  unfold replied
  cases pending with
  | attach connection =>
      dsimp only
      split
      · exact kept_protocolError _ _
      · unfold attached
        split
        · exact kept_protocolError _ _
        · rfl
  | refresh promise =>
      dsimp only
      split
      · exact kept_protocolError _ _
      · unfold Client.refreshed
        split
        · rfl
        · rfl
  | call name promise =>
      dsimp only
      split
      · exact kept_protocolError _ _
      · rfl

theorem kept_failed (pending : Pending Limits) (error : Raw) :
    kept (failed sdk client pending error).1 = kept client := by
  unfold failed
  split
  · exact kept_protocolError _ _
  · exact kept_rejectCall _ _

theorem kept_answer {reply : Client Data Limits S L V → Pending Limits → Change Data Limits S L V}
    (h : ∀ client' pending, kept (reply client' pending).1 = kept client') (id : Nat) :
    kept (answer client id reply).1 = kept client := by
  unfold answer
  split
  · rfl
  · exact h _ _

theorem kept_publish (name : EventName) (value : Raw) :
    kept (publish sdk client name value).1 = kept client := by
  unfold publish
  dsimp only
  split
  · exact kept_protocolError _ _
  · cases name with
    | state =>
        dsimp only
        split
        · exact kept_protocolError _ _
        · unfold applyState
          split
          · exact kept_protocolError _ _
          · split
            · rfl
            · rfl
    | lines =>
        dsimp only
        split
        · exact kept_protocolError _ _
        · unfold applyLines
          split
          · exact kept_protocolError _ _
          · split
            · exact kept_protocolError _ _
            · split
              · rfl
              · rfl
    | log =>
        dsimp only
        split
        · exact kept_protocolError _ _
        · unfold applyLog
          split
          · exact kept_protocolError _ _
          · rfl

theorem kept_faulted (error : Raw) : kept (faulted sdk client error).1 = kept client := by
  unfold faulted
  split
  · exact kept_protocolError _ _
  · exact kept_finish _

theorem sent_finish (connection : Connection Limits) :
    (finish client connection).1.sent = client.sent :=
  congrArg Prod.fst (kept_finish connection)

theorem sent_protocolError (message : JsString) (culprit : Option (Pending Limits)) :
    (protocolError client message culprit).1.sent = client.sent :=
  congrArg Prod.fst (kept_protocolError message culprit)

/-- A frame that comes in once the session has its limits. -/
theorem kept_receive {limits : Limits} (hlimits : client.limits = some limits) (data : Data) :
    kept (receive sdk client data).1 = kept client := by
  unfold receive
  rw [hlimits]
  split
  · rfl
  · dsimp only
    split
    · exact kept_protocolError _ _
    · exact kept_answer (fun client' pending => kept_replied _ _ _) _
    · exact kept_answer (fun client' pending => kept_failed _ _) _
    · exact kept_publish _ _
    · exact kept_faulted _
    · exact kept_protocolError _ _

theorem handed_negotiate (data : Data) :
    Handed sdk (lit "attach") sdk.noInput client (negotiate sdk client data).1 := by
  unfold negotiate
  split
  · exact .inl (sent_protocolError _ _)
  · exact .inl (sent_protocolError _ _)
  · exact .inl (sent_finish _)
  · next api implementation limits _ =>
      split
      · exact .inl (sent_protocolError _ _)
      · have hhanded := (handed_send sdk { client with limits := some limits } (lit "attach") sdk.noInput
          (.attach (.connected implementation limits))).1
        split
        · next refused client' hsend =>
            rw [hsend] at hhanded
            unfold Handed
            rw [sent_finish]
            exact hhanded
        · next client' hsend =>
            rw [hsend] at hhanded
            exact hhanded

theorem handed_receive (data : Data) :
    Handed sdk (lit "attach") sdk.noInput client (receive sdk client data).1 := by
  cases hlimits : client.limits with
  | none =>
      unfold receive
      rw [hlimits]
      split
      · exact .inl rfl
      · exact handed_negotiate data
  | some limits => exact .inl (congrArg Prod.fst (kept_receive hlimits data))

end Says

end Estoc.Daemon
