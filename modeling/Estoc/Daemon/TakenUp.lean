import Estoc.Daemon.Answered
import Estoc.Daemon.Calls
import Estoc.Daemon.Handed

/-!
# What a view's session sends, the daemon's takes up

A view's session hands its port a hello and then calls, each under an ID of its own and within the
limits it was welcomed with, whatever comes in and whatever its listeners do. A served session that
receives these frames in their order, between whatever else it does, finds a call in each but the
first, under an ID it has not in flight: what the view's end let through is never why it closes.
-/

set_option linter.unusedSectionVars false

namespace Estoc.Daemon

open Json (lit NumberText)
open Utf16 (JsString)

/-! ## What a view's session sends -/

namespace Says

variable {F Data Input Raw Limits S L V : Type} [DecidableEq F]
  {sdk : Sdk Data Input Raw Limits S L V} {limits : Limits}
  {client client' : Client Data Limits S L V}

/-- What was handed to the port: the hello, then calls within `limits`, each under its own ID. -/
structure Writing (sdk : Sdk Data Input Raw Limits S L V) (limits : Limits)
    (client : Client Data Limits S L V) : Prop where
  positive : 0 < client.nextId
  told : ∀ told, client.limits = some told → told = limits
  calls : ∃ calls : List (Nat × Data),
    client.sent = (none, sdk.hello) :: calls.map (fun call => (some call.1, call.2)) ∧
    (calls.map Prod.fst).Nodup ∧ ∀ call ∈ calls, 0 < call.1 ∧ call.1 < client.nextId ∧
      ∃ name input, sdk.writeCall limits call.1 name input = .ok call.2

theorem Writing.congr (h : Writing sdk limits client) (hkept : kept client' = kept client) :
    Writing sdk limits client' := by
  obtain ⟨hsent, hrest⟩ := Prod.mk.inj hkept
  obtain ⟨hnextId, hlimits⟩ := Prod.mk.inj hrest
  refine ⟨hnextId ▸ h.positive, hlimits ▸ h.told, ?_⟩
  rw [hsent, hnextId]
  exact h.calls

/-- An ID is used, by a call that is sent or not. -/
theorem Writing.next (h : Writing sdk limits client) :
    Writing sdk limits { client with nextId := client.nextId + 1 } := by
  obtain ⟨calls, hsent, hnodup, hcalls⟩ := h.calls
  refine ⟨Nat.succ_pos _, h.told, calls, hsent, hnodup, fun call hcall => ?_⟩
  obtain ⟨hpos, hlt, hwritten⟩ := hcalls call hcall
  exact ⟨hpos, Nat.lt_succ_of_lt hlt, hwritten⟩

theorem Writing.sent {name : JsString} {input : Input} {pending : OMap Nat (Pending Limits)}
    {data : Data} (h : Writing sdk limits client)
    (hwrite : sdk.writeCall limits client.nextId name input = .ok data) :
    Writing sdk limits { client with
      nextId := client.nextId + 1
      pending := pending
      sent := client.sent ++ [(some client.nextId, data)] } := by
  obtain ⟨calls, hsent, hnodup, hcalls⟩ := h.calls
  refine ⟨Nat.succ_pos _, h.told, calls ++ [(client.nextId, data)], ?_, ?_, ?_⟩
  · rw [hsent, List.map_append]
    rfl
  · rw [List.map_append]
    refine hnodup.append (List.nodup_singleton _) ?_
    intro id hid hid'
    obtain ⟨call, hcall, rfl⟩ := List.mem_map.mp hid
    exact Nat.ne_of_lt (hcalls call hcall).2.1 (List.mem_singleton.mp hid')
  · intro call hcall
    rcases List.mem_append.mp hcall with hcall | hcall
    · obtain ⟨hpos, hlt, hwritten⟩ := hcalls call hcall
      exact ⟨hpos, Nat.lt_succ_of_lt hlt, hwritten⟩
    · obtain rfl := List.mem_singleton.mp hcall
      exact ⟨h.positive, Nat.lt_succ_self _, name, input, hwrite⟩

theorem Writing.send {name : JsString} {input : Input} {answered : Pending Limits}
    (h : Writing sdk limits client) :
    Writing sdk limits (Client.send sdk client name input answered).2 := by
  unfold Client.send
  split
  · exact h
  · next told hlimits =>
      dsimp only
      split
      · exact h.next
      · next data hwrite =>
          obtain rfl := h.told told hlimits
          exact h.sent hwrite

theorem Writing.dispatch {name : JsString} {input : Input} {answered : Nat → Pending Limits}
    (h : Writing sdk limits client) :
    Writing sdk limits (client.dispatch sdk name input answered) := by
  have hhanded : Writing sdk limits { client with ledger := client.ledger.hand } := h.congr rfl
  have hsend : Writing sdk limits (Client.send sdk { client with ledger := client.ledger.hand } name
      input (answered client.ledger.handed)).2 := hhanded.send
  unfold Client.dispatch
  dsimp only
  split
  · next refused client' heq =>
      rw [heq] at hsend
      exact hsend.congr rfl
  · next client' heq =>
      rw [heq] at hsend
      exact hsend

theorem Writing.call {name : JsString} {input : Input} (h : Writing sdk limits client) :
    Writing sdk limits (client.call sdk name input) := by
  unfold Client.call
  split
  · exact h.congr rfl
  · split
    · exact h.congr rfl
    · exact h.dispatch

theorem Writing.refresh (h : Writing sdk limits client) :
    Writing sdk limits (client.refresh sdk) := by
  unfold Client.refresh
  split
  · exact h.congr rfl
  · exact h.dispatch

theorem Writing.connected (h : Writing sdk limits client) :
    Writing sdk limits client.connected := by
  unfold Client.connected
  split
  · exact h.congr rfl
  · split
    · exact h.congr rfl
    · exact h.congr rfl

/-- Every welcome tells the limits `limits`. -/
def Welcomes (sdk : Sdk Data Input Raw Limits S L V) (limits : Limits) : Prop :=
  ∀ data api implementation told,
    sdk.readBootstrap data = some (.welcome api implementation told) → told = limits

theorem Writing.negotiate (hwelcomes : Welcomes sdk limits) (h : Writing sdk limits client)
    (data : Data) : Writing sdk limits (negotiate sdk client data).1 := by
  unfold Says.negotiate
  split
  · exact h.congr (kept_protocolError _ _)
  · exact h.congr (kept_protocolError _ _)
  · exact h.congr (kept_finish _)
  · next api implementation told hwelcome =>
      split
      · exact h.congr (kept_protocolError _ _)
      · obtain rfl := hwelcomes data api implementation told hwelcome
        have htold : Writing sdk told { client with limits := some told } :=
          ⟨h.positive, fun other hother => (Option.some.inj hother).symm, h.calls⟩
        have hsend : Writing sdk told (Client.send sdk { client with limits := some told }
            (lit "attach") sdk.noInput (.attach (.connected implementation told))).2 := htold.send
        split
        · next refused client' heq =>
            rw [heq] at hsend
            exact hsend.congr (kept_finish _)
        · next client' heq =>
            rw [heq] at hsend
            exact hsend

theorem Writing.receive (hwelcomes : Welcomes sdk limits) (h : Writing sdk limits client)
    (data : Data) : Writing sdk limits (receive sdk client data).1 := by
  cases hlimits : client.limits with
  | some told => exact h.congr (kept_receive hlimits data)
  | none =>
      unfold Says.receive
      rw [hlimits]
      split
      · exact h
      · exact h.negotiate hwelcomes data

theorem writing_after (hwelcomes : Welcomes sdk limits) (listeners : Kind → Listeners F)
    (moves : List (Reentry.Move (Notified.Event F Data Input) (List (Notified.Act F Input)))) :
    Writing sdk limits (Notified.after sdk listeners moves).state.session := by
  have hact {s : Notified F Data Limits S L V} (act : Notified.Act F Input)
      (h : Writing sdk limits s.session) : Writing sdk limits (s.act sdk act).1.session := by
    cases act with
    | call name input => exact h.call
    | refresh => exact h.refresh
    | connected => exact h.connected
    | close => exact h.congr (kept_finish _)
    | on kind listener => exact h
    | off kind listener => exact h
  have hkeeps : (Notified.machine (F := F) sdk).Keeps (fun _ => True)
      fun s _ => Writing sdk limits s.session := by
    refine ⟨fun event _ h => ?_, fun {s due rest} acts _ h => ?_⟩
    · cases event with
      | receives data => exact h.receive hwelcomes data
      | portCloses => exact h.congr (kept_finish _)
      | sendFails => exact h.congr (kept_finish _)
      | acts act => exact hact act h
    · cases due with
      | emits said => exact h
      | tells listener said => exact h
      | does act => exact hact act h
  refine hkeeps.run (Reentry.Machine.meets_all _ moves)
    ⟨Nat.one_pos, fun told htold => ?_, [], rfl, ?_⟩
  · cases htold
  · exact ⟨List.nodup_nil, fun call hcall => (List.not_mem_nil hcall).elim⟩

end Says

/-! ## What a served session reads -/

namespace Serving.Session

section
variable {Data : Type} {options : Options Data} {s : Session} {entry : Entry}

/-- The frames received in some turns. -/
def received (turns : List (Turn Data)) : List Data :=
  turns.filterMap fun
    | .receives data _ => some data
    | _ => none

/-- What nothing but a frame received changes. -/
def read (s : Session) : Bool × List Nat := (s.negotiated, s.calls)

theorem read_finish : s.finish.read = s.read := by
  unfold finish
  split
  · rfl
  · rfl

theorem read_sendOrClose : (s.sendOrClose entry).read = s.read := by
  unfold sendOrClose
  split
  · rfl
  · exact read_finish

theorem read_unwritable : (s.unwritable entry).read = s.read := by
  unfold unwritable
  split
  · exact read_sendOrClose
  · split
    · exact read_sendOrClose
    · exact read_finish

theorem read_pump : s.pump.read = s.read := by
  unfold pump
  split
  · rfl
  · split
    · rfl
    · dsimp only
      split
      · rfl
      · exact read_unwritable

theorem read_endWith : (s.endWith entry).read = s.read := read_pump

theorem read_enqueue : (s.enqueue options entry).read = s.read := by
  unfold enqueue
  split
  · rfl
  · dsimp only
    split
    · split
      · exact read_finish
      · exact read_pump
    · exact read_pump

theorem read_fault (error : ApiError) : (s.fault error).read = s.read := by
  unfold fault
  split
  · rfl
  · exact read_endWith

theorem read_act (act : Act) : (s.act options act).read = s.read := by
  cases act with
  | event event =>
      change (Session.event options s event).read = s.read
      unfold Session.event
      split
      · exact read_enqueue
      · rfl
  | fault error => exact read_fault error
  | close => exact read_finish

theorem read_acts (acts : List Act) : (acts.foldl (act options) s).read = s.read := by
  induction acts generalizing s with
  | nil => rfl
  | cons act acts ih => exact ih.trans (read_act act)

theorem read_reply {id : Nat} : (s.reply options id entry).read = s.read := read_enqueue

theorem read_serve (call : Call) (attaching : Attaching) :
    (s.serve options call attaching).read = s.read := by
  unfold serve
  split
  · exact read_reply
  · split
    · exact read_reply
    · split
      · exact read_reply
      · split
        · exact read_reply
        · split
          · unfold attach
            dsimp only
            split
            · exact read_reply.trans (read_acts _)
            · exact read_reply.trans (read_acts _)
          · rfl

theorem read_settles (id : Nat) (settled : Settled) :
    (s.settles options id settled).read = s.read := by
  unfold settles
  split
  · rfl
  · cases settled with
    | resolves value => exact read_reply
    | refuses error => exact read_reply
    | throws => exact read_reply

/-- What a frame received comes to: nothing read, the hello, or a call read where there was one. -/
theorem read_receive (options : Options Data) (s : Session) (data : Data) (attaching : Attaching) :
    (s.receive options data attaching).read = s.read ∨
      (s.negotiated = false ∧ (s.receive options data attaching).calls = s.calls) ∨
      s.negotiated = true ∧ ∃ call, options.readCall data = some call ∧
        (s.receive options data attaching).read = (true, s.calls ++ [call.id]) := by
  unfold receive
  split
  · exact .inl rfl
  · split
    · next hnegotiated =>
        refine .inr (.inl ⟨hnegotiated, ?_⟩)
        unfold negotiate
        split
        · exact congrArg Prod.snd read_finish
        · dsimp only
          split
          · exact congrArg Prod.snd read_endWith
          · exact congrArg Prod.snd read_enqueue
    · next hnegotiated =>
        split
        · exact .inl (read_fault _)
        · split
          · exact .inl read_finish
          · next call hcall =>
              split
              · exact .inl read_finish
              · have hnegotiated : s.negotiated = true := by simpa using hnegotiated
                refine .inr (.inr ⟨hnegotiated, call, hcall, (read_serve call attaching).trans ?_⟩)
                rw [read, hnegotiated]

/-- The calls a session read came after the first frame, which was the hello. -/
structure Heeds (options : Options Data) (frames : List Data) (s : Session) : Prop where
  greeted : s.negotiated = true → frames ≠ []
  calls : s.calls.Sublist ((frames.drop 1).filterMap fun data =>
    (options.readCall data).map Call.id)

theorem Heeds.congr {frames : List Data} {s' : Session} (h : Heeds options frames s)
    (hread : s'.read = s.read) : Heeds options frames s' := by
  obtain ⟨hnegotiated, hcalls⟩ := Prod.mk.inj hread
  refine ⟨fun hgreeted => h.greeted (hnegotiated ▸ hgreeted), ?_⟩
  rw [hcalls]
  exact h.calls

theorem Heeds.receive {frames : List Data} (h : Heeds options frames s) (data : Data)
    (attaching : Attaching) :
    Heeds options (frames ++ [data]) (s.receive options data attaching) := by
  have hmore : s.calls.Sublist (((frames ++ [data]).drop 1).filterMap fun data =>
      (options.readCall data).map Call.id) := by
    refine h.calls.trans (List.Sublist.filterMap _ ?_)
    exact (List.sublist_append_left frames [data]).drop 1
  have hsome : frames ++ [data] ≠ [] := List.append_ne_nil_of_right_ne_nil _ (List.cons_ne_nil _ _)
  rcases read_receive options s data attaching with
    hread | ⟨-, hcalls⟩ | ⟨hnegotiated, call, hcall, hread⟩
  · exact ⟨fun _ => hsome, (Prod.mk.inj hread).2 ▸ hmore⟩
  · exact ⟨fun _ => hsome, hcalls ▸ hmore⟩
  · obtain ⟨-, hcalls⟩ := Prod.mk.inj hread
    refine ⟨fun _ => hsome, ?_⟩
    have hpos : 1 ≤ frames.length := List.length_pos_of_ne_nil (h.greeted hnegotiated)
    rw [hcalls, List.drop_append_of_le_length hpos, List.filterMap_append]
    refine h.calls.append ?_
    simp [hcall]

theorem heeds_after (options : Options Data) (turns : List (Turn Data)) :
    Heeds options (received turns) (after options turns) := by
  induction turns using List.reverseRecOn with
  | nil => exact ⟨fun h => (Bool.false_ne_true h).elim, .refl _⟩
  | append_singleton turns turn ih =>
      have hafter : after options (turns ++ [turn]) = (after options turns).turn options turn :=
        List.foldl_append
      have hquiet (hnone : received [turn] = [])
          (hread : ((after options turns).turn options turn).read = (after options turns).read) :
          Heeds options (received (turns ++ [turn])) (after options (turns ++ [turn])) := by
        rw [hafter, received, List.filterMap_append, ← received, ← received, hnone, List.append_nil]
        exact ih.congr hread
      cases turn with
      | receives data attaching =>
          rw [hafter, received, List.filterMap_append]
          exact ih.receive data attaching
      | settles id settled => exact hquiet rfl (read_settles id settled)
      | acts act => exact hquiet rfl (read_act act)
      | sent =>
          refine hquiet rfl ?_
          unfold Session.turn Session.sent
          dsimp only
          split
          · rfl
          · split
            · exact read_finish
            · exact read_pump
      | sendFails =>
          refine hquiet rfl ?_
          unfold Session.turn Session.sendFails
          dsimp only
          split
          · rfl
          · exact read_finish
      | portCloses => exact hquiet rfl read_finish
      | timesOut =>
          refine hquiet rfl ?_
          unfold Session.turn
          dsimp only
          split
          · rfl
          · exact read_finish

/-- What is in flight was read. -/
theorem mem_calls_of_inFlight {turns : List (Turn Data)} {id : Nat}
    (h : id ∈ (after options turns).inFlight) : id ∈ (after options turns).calls := by
  have hle := (kept_after options turns).2.atMost id
  have hpos := List.count_pos_iff.mpr h
  exact List.count_pos_iff.mp (by omega)

end

end Serving.Session

/-! ## From one to the other -/

namespace Calls

open Estoc.Wire
open Serving (Options)
open Serving.Session (received Heeds heeds_after mem_calls_of_inFlight)

/-- What a view gives as an input: the properties of an object have different names. -/
abbrev Input := { raw : Raw // raw.Distinct }

section
variable {F I R S L V : Type} [DecidableEq F] (N : NumberText) (limits : Limits)
  (transport : Transport) (methods : JsString → Option (Method I))

/-- The frame of a call, or its local refusal. A method that is not in the contract is never asked
for, and nothing is ever thrown (`send_not_thrown`). -/
def writeCall (limits : Limits) (id : Nat) (name : JsString) (input : Input) :
    Except CallError Raw :=
  match methods name with
  | none =>
    .error (clientError (lit "InvalidArgument") (name ++ lit " is no method a view calls") .none)
  | some method => (send N limits transport method id name input.1).mapError fun
    | .refused refused => clientError (codeText refused.code) refused.message .none
    | .thrown message => clientError (lit "InvalidArgument") message .none

/-- A view's end that writes its calls so. -/
def writing (sdk : Sdk Raw Input R Limits S L V) : Sdk Raw Input R Limits S L V :=
  { sdk with writeCall := writeCall N transport methods }

variable {N limits transport methods}

theorem writeCall_eq_ok {id : Nat} {name : JsString} {input : Input} {data : Raw} :
    writeCall N transport methods limits id name input = .ok data ↔
      ∃ method, methods name = some method ∧
        send N limits transport method id name input.1 = .ok data := by
  unfold writeCall
  cases methods name with
  | none => simp
  | some method => simp [mapError_ok]

/-- Whatever comes in and whatever its listeners do, what a view's session sent is taken up: a
served session that received all that was handed over before, in its order and between whatever else
it did, and that has negotiated and is open, serves the next frame as the call it was sent as and
refuses nothing in it. -/
theorem calls_are_taken_up {sdk : Sdk Raw Input R Limits S L V} {data : Raw} {rest : List Raw}
    (listeners : Kind → Listeners F)
    (moves : List (Reentry.Move (Notified.Event F Raw Input) (List (Notified.Act F Input))))
    (turns : List (Serving.Session.Turn Raw)) (readHello : Raw → Option (List Nat))
    (maxQueuedFrames : Option Nat) (attaching : Serving.Session.Attaching)
    (hwelcomes : Says.Welcomes sdk limits) :
    let view := (Notified.after (writing N transport methods sdk) listeners moves).state.session
    let options := options N limits transport methods readHello maxQueuedFrames
    let s := Serving.Session.after options turns
    view.nextId ≤ 2 ^ 53 → view.sent.map Prod.snd = received turns ++ data :: rest →
    s.closed = false ∧ s.ending = false ∧ s.negotiated = true →
      ∃ id name method, ∃ input : Input, (some id, data) ∈ view.sent ∧
        methods name = some method ∧ send N limits transport method id name input.1 = .ok data ∧
        s.receive options data attaching = Serving.Session.serve options
          { s with inFlight := id :: s.inFlight, calls := s.calls ++ [id] } ⟨id, name, none⟩
          attaching := by
  intro view options s hids hframes hopen
  have hwelcomes : Says.Welcomes (writing N transport methods sdk) limits := hwelcomes
  obtain ⟨calls, hsent, hnodup, hcalls⟩ := (Says.writing_after hwelcomes listeners moves).calls
  have hsent : view.sent = (none, sdk.hello) :: calls.map fun call => (some call.1, call.2) := hsent
  have hreads : ∀ call ∈ calls, ∃ name method, ∃ input : Input, methods name = some method ∧
      send N limits transport method call.1 name input.1 = .ok call.2 ∧
      Serving.Session.tooLarge options call.2 = none ∧
      options.readCall call.2 = some ⟨call.1, name, none⟩ := by
    intro call hcall
    obtain ⟨hpos, hlt, name, input, hwrite⟩ := hcalls call hcall
    obtain ⟨method, hmethod, hsend⟩ := writeCall_eq_ok.mp hwrite
    obtain ⟨_, _, _, _, _, -, -, -, -, hfits, hread⟩ := sent_call_reads readHello maxQueuedFrames hpos
      (Nat.lt_of_lt_of_le hlt hids) input.2 hmethod hsend
    exact ⟨name, method, input, hmethod, hsend, hfits, hread⟩
  have hheeds : Heeds options (received turns) s := heeds_after options turns
  -- the first frame is the hello, and a session that has negotiated has received it
  obtain ⟨frames, hreceived, hlater⟩ : ∃ frames, received turns = sdk.hello :: frames ∧
      calls.map Prod.snd = frames ++ data :: rest := by
    rw [hsent, List.map_cons, List.map_map] at hframes
    cases hcase : received turns with
    | nil => exact absurd hcase (hheeds.greeted hopen.2.2)
    | cons hello frames =>
        rw [hcase] at hframes
        obtain ⟨rfl, hrest⟩ := List.cons.inj hframes
        exact ⟨frames, rfl, hrest⟩
  obtain ⟨before, later, rfl, hbefore, hlater⟩ := List.map_eq_append_iff.mp hlater
  obtain ⟨call, after, rfl, rfl, hafter⟩ := List.map_eq_cons_iff.mp hlater
  obtain ⟨name, method, input, hmethod, hsend, hfits, hread⟩ := hreads call (by simp)
  have hids : frames.filterMap (fun data => (options.readCall data).map Serving.Call.id) =
      before.map Prod.fst := by
    rw [← hbefore, List.filterMap_map, ← List.filterMap_eq_map]
    refine List.filterMap_congr fun call hcall => ?_
    obtain ⟨name, _, _, -, -, -, hread⟩ := hreads call (List.mem_append_left _ hcall)
    rw [Function.comp_apply, hread]
    rfl
  have hnew : call.1 ∉ s.inFlight := by
    intro hin
    have hmem : call.1 ∈ before.map Prod.fst := by
      have hcalls := hheeds.calls
      rw [hreceived, List.drop_one, List.tail_cons, hids] at hcalls
      exact hcalls.subset (mem_calls_of_inFlight hin)
    rw [List.map_append, List.map_cons] at hnodup
    exact (List.nodup_append.mp hnodup).2.2 _ hmem _ List.mem_cons_self rfl
  refine ⟨call.1, name, method, input, ?_, hmethod, hsend, ?_⟩
  · rw [hsent]
    exact List.mem_cons_of_mem _ (List.mem_map_of_mem (by simp))
  · exact receive_of_readCall hopen hfits hread hnew

end

/-! ## A session that is welcomed -/

/-- A method that takes whatever it is given. -/
def attachMethod : Method Unit where
  inputBytes := []
  resultBytes := []
  input _ := .ok ()
  places _ _ _ _ _ _ hmember := (List.not_mem_nil hmember).elim

def attachOnly (name : JsString) : Option (Method Unit) :=
  if name = lit "attach" then some attachMethod else none

/-- A view's end that is welcomed by what is not there, and reads nothing else. -/
def exampleSdk : Sdk Raw Input Unit Limits Unit Unit Unit where
  API_VERSION := 1
  isMethodName name := (attachOnly name).isSome
  hello := .scalar .null
  noInput := ⟨.record none true [], .record List.nodup_nil (by simp)⟩
  readBootstrap
    | .undefined => some (.welcome 1 [] exampleLimits)
    | _ => none
  readFrame _ := none
  writeCall _ _ _ _ := .error NOT_CONNECTED
  baseline _ _ := .error none
  marker _ _ := .error none
  result _ _ _ := .error none
  apiError _ := .error none
  state _ := .error none
  lines _ := .error none
  log _ := .error none

def exampleOptions : Options Raw :=
  options EventStore.patternNumbers exampleLimits .clone attachOnly (fun _ => some [1]) none

def unheard : Kind → Listeners Unit := fun _ => ⟨[], List.nodup_nil⟩

/-- A view that nobody listens to, welcomed. -/
def welcomedView : Client Raw Limits Unit Unit Unit :=
  (Notified.after (writing EventStore.patternNumbers .clone attachOnly exampleSdk) unheard
    [.event (.receives .undefined)]).state.session

/-- A session that received the hello. -/
def greeted : Serving.Session :=
  Serving.Session.after exampleOptions [.receives exampleSdk.hello ⟨[], none⟩]

theorem calls_are_taken_up_example : ∃ id name data, (some id, data) ∈ welcomedView.sent ∧
    greeted.receive exampleOptions data ⟨[], none⟩ =
      Serving.Session.serve exampleOptions { greeted with inFlight := [id], calls := [id] }
        ⟨id, name, none⟩ ⟨[], none⟩ := by
  have hwelcomes : Says.Welcomes exampleSdk exampleLimits := by
    intro data api implementation told h
    cases data with
    | undefined =>
        cases h
        rfl
    | _ => cases h
  obtain ⟨data, hsent⟩ : ∃ data, welcomedView.sent.map Prod.snd = [exampleSdk.hello, data] :=
    ⟨_, rfl⟩
  obtain ⟨id, name, _, _, hmem, -, -, hserved⟩ := calls_are_taken_up unheard
    [.event (.receives .undefined)] [.receives exampleSdk.hello ⟨[], none⟩] (fun _ => some [1]) none
    ⟨[], none⟩ hwelcomes (show welcomedView.nextId ≤ 2 ^ 53 by decide) hsent ⟨rfl, rfl, rfl⟩
  exact ⟨id, name, data, hmem, hserved⟩

end Calls


end Estoc.Daemon
