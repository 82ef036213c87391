import Estoc.Daemon.Converge

/-!
# The publisher, a session and a view in step

Each turn of the publisher, of the session served, of the port and of the view keeps the
session right for the view.
-/

set_option linter.unusedSectionVars false

namespace Estoc.Daemon

variable {S L E R : Type}

open Served (Steps)

/-! ## What hearing leaves alone -/

namespace Served

variable {options : ServeOptions S L R} {served : Served S L R}

/-- What no publication changes. -/
def Kept (served next : Served S L R) : Prop :=
  next.attached = served.attached ∧ next.inFlight = served.inFlight ∧ Tidy next.queue

theorem kept_hear (options : ServeOptions S L R) (htidy : Tidy served.queue) (damaged : E → Bool) (effect : Effect S L E) :
    Kept served (served.hear options damaged effect) := by
  have hself : Kept served served := ⟨rfl, rfl, htidy⟩
  have hevent (event : Event S L) : Kept served (served.event options event) := by
    unfold Served.event
    split
    · by_cases hlive : served.Live
      · have hsteps := steps_enqueue options served hlive htidy (Formed.event event)
        exact ⟨hsteps.attached, hsteps.inFlight, hsteps.tidy⟩
      · rw [enqueue_dead hlive]
        exact hself
    · exact hself
  unfold hear
  split
  · split
    · exact hevent _
    · exact hself
  · split
    · exact hevent _
    · exact hself
  · split
    · exact hevent _
    · exact hself
  · split
    · have hsteps := steps_fault options served htidy unavailable
      exact ⟨hsteps.attached, hsteps.inFlight, hsteps.tidy⟩
    · exact hself
  · exact hself

theorem kept_hears (options : ServeOptions S L R) (htidy : Tidy served.queue)
    (damaged : E → Bool) (effects : List (Effect S L E)) :
    Kept served (effects.foldl (fun served effect => served.hear options damaged effect) served) := by
  induction effects generalizing served with
  | nil => exact ⟨rfl, rfl, htidy⟩
  | cons effect effects ih =>
      obtain ⟨hattached, hinFlight, htidy'⟩ := kept_hear options htidy damaged effect
      obtain ⟨hattached', hinFlight', htidy''⟩ := ih htidy'
      exact ⟨hattached'.trans hattached, hinFlight'.trans hinFlight, htidy''⟩

theorem reply_kept (options : ServeOptions S L R) (served : Served S L R)
    (htidy : Tidy served.queue) (id : Nat) {entry : Queued S L R} (hentry : Formed entry) :
    (served.reply options id entry).attached = served.attached ∧
      (served.reply options id entry).inFlight = served.inFlight.erase id := by
  unfold reply
  by_cases hlive : served.Live
  · have hsteps := steps_enqueue options
      { served with inFlight := served.inFlight.erase id } hlive htidy hentry
    exact ⟨hsteps.attached, hsteps.inFlight⟩
  · have hdead : ¬Live { served with inFlight := served.inFlight.erase id } := hlive
    rw [enqueue_dead hdead]
    exact ⟨rfl, rfl⟩

end Served

/-! ## The whole -/

namespace World

variable {wire : Wire S L E R} {w : World S L E R} {start : Publisher S L E}

/-- A state the publisher has had since the start. -/
def Had (start p : Publisher S L E) (state : StateOf S) : Prop := state ∈ statesOf start.current p.effects

structure Fine (start : Publisher S L E) (w : World S L E R) : Prop where
  since : start.Since w.publisher w.publisher.effects
  ok : w.session.Ok
  honest : w.session.Honest (Had start w.publisher)
  right : Right (Had start w.publisher) w.served w.session.face w.session.port w.publisher.current

/-- With each call answered of a session that is not attached. -/
structure Good (start : Publisher S L E) (w : World S L E R) : Prop extends Fine start w where
  idle : w.served.attached = false → w.served.inFlight = [] ∧ w.refreshes = []

theorem had_grows {p q : Publisher S L E} {effects : List (Effect S L E)}
    (h : q.effects = p.effects ++ effects) {state : StateOf S} (hstate : Had start p state) :
    Had start q state := by
  unfold Had statesOf at hstate ⊢
  rw [h, List.filterMap_append, ← List.cons_append]
  exact List.mem_append_left _ hstate

theorem had_told {p q : Publisher S L E} {effects : List (Effect S L E)}
    (h : q.effects = p.effects ++ effects) {state : StateOf S} (hstate : .state state ∈ effects) :
    Had start q state := by
  unfold Had statesOf
  rw [h, List.filterMap_append]
  exact List.mem_cons_of_mem _ (List.mem_append_right _ (List.mem_filterMap.mpr ⟨_, hstate, rfl⟩))

/-- The publisher goes on, and the session hears what it does. -/
theorem Fine.publishes (h : Fine start w) (wire : Wire S L E R) {p : Publisher S L E} (htells : w.publisher.Tells p) :
    Fine start (w.publishes wire p) ∧ (w.publishes wire p).served.attached = w.served.attached ∧
      (w.publishes wire p).served.inFlight = w.served.inFlight := by
  obtain ⟨effects, hsince⟩ := htells h.since.level
  have hdrop : p.effects.drop w.publisher.effects.length = effects := by
    rw [hsince.did]
    exact List.drop_left
  have hhad : ∀ state, Had start w.publisher state → Had start p state := fun state hstate =>
    had_grows hsince.did hstate
  have hkept := Served.kept_hears wire.serve h.right.tidy wire.damaged effects
  unfold World.publishes
  rw [hdrop]
  refine ⟨⟨?_, h.ok, h.honest.mono hhad, ?_⟩, hkept.1, hkept.2.1⟩
  · have htrans := h.since.trans hsince
    rw [← hsince.did] at htrans
    exact htrans
  · have hright := (h.right.mono hhad).hears wire.serve wire.damaged hsince.inOrder
      fun state hstate => had_told hsince.did hstate
    rw [← hsince.current] at hright
    exact hright

theorem Good.publishes (h : Good start w) {p : Publisher S L E} (htells : w.publisher.Tells p) :
    Good start (w.publishes wire p) := by
  obtain ⟨hfine, hattached, hinFlight⟩ := h.toFine.publishes wire htells
  refine ⟨hfine, fun hnot => ?_⟩
  rw [hinFlight]
  exact h.idle (hattached.symm.trans hnot)

/-- The session takes a step of its own. -/
theorem Good.serves (h : Good start w) {served : Served S L R}
    (hsteps : Steps w.served.frames w.served served) : Good start { w with served } where
  since := h.since
  ok := h.ok
  honest := h.honest
  right := h.right.steps hsteps
  idle hattached := by
    obtain ⟨hinFlight, hrefreshes⟩ := h.idle (hsteps.attached.symm.trans hattached)
    exact ⟨hsteps.inFlight.trans hinFlight, hrefreshes⟩

/-- A call is answered, while the session is attached or nothing else is asked. -/
theorem Fine.replies (h : Fine start w) (id : Nat) {entry : Queued S L R} (hentry : Formed entry)
    (hreplaces : entry.replaces = none) (hcarried : carried entry.frame = none)
    (hshows : ∀ shown : BaselineOf S L, (Face.shows shown).after entry.frame = .shows shown)
    (htakes : ∀ face : Face S L, face.Takes entry.frame)
    (hasks : w.served.attached = false → (w.session.face = .greeted → w.session.port = []) ∧
      w.session.face ≠ .waiting ∧ ∀ id value, entry.frame ≠ .result id value) (refreshes : List (Nat × Nat))
    (hidle : w.served.attached = false → w.served.inFlight.erase id = [] ∧ refreshes = []) :
    Good start { w with served := w.served.reply wire.serve id entry, refreshes } where
  since := h.since
  ok := h.ok
  honest := h.honest
  right := h.right.reply id hentry hreplaces hcarried hshows htakes hasks
  idle hattached := by
    obtain ⟨hsame, herase⟩ := Served.reply_kept wire.serve w.served h.right.tidy id hentry
    obtain ⟨hinFlight, hnone⟩ := hidle (hsame.symm.trans hattached)
    exact ⟨herase.trans hinFlight, hnone⟩

theorem Good.answered (h : Good start w) (hattached : w.served.attached = true) (id : Nat)
    {entry : Queued S L R} (hentry : Formed entry) (hreplaces : entry.replaces = none)
    (hcarried : carried entry.frame = none)
    (hshows : ∀ shown : BaselineOf S L, (Face.shows shown).after entry.frame = .shows shown)
    (htakes : ∀ face : Face S L, face.Takes entry.frame) (refreshes : List (Nat × Nat)) :
    Good start { w with served := w.served.reply wire.serve id entry, refreshes } := by
  refine h.toFine.replies id hentry hreplaces hcarried hshows htakes ?_ refreshes ?_
  · intro hnot
    rw [hattached] at hnot
    cases hnot
  · intro hnot
    rw [hattached] at hnot
    cases hnot

theorem Good.turnReplies (h : Good start w) (id : Nat) (outcome : Except ApiError R) :
    Good start (w.replies wire id outcome) := by
  unfold World.replies
  split
  · next hflight =>
      have hattached : w.served.attached = true := by
        by_contra hnot
        rw [(h.idle (by simpa using hnot)).1] at hflight
        cases hflight.1
      cases outcome with
      | ok value =>
          exact h.answered hattached id (.other id value) rfl rfl (fun _ => rfl)
            (fun face => by cases face <;> exact trivial) w.refreshes
      | error error =>
          exact h.answered hattached id (.error id error) rfl rfl (fun _ => rfl)
            (fun face => by cases face <;> exact trivial) w.refreshes
  · exact h

theorem Good.turnAnswers (h : Good start w) (id : Nat) : Good start (w.answers wire id) := by
  unfold World.answers
  split
  · exact h
  · next call hfind =>
      have hattached : w.served.attached = true := by
        by_contra hnot
        rw [(h.idle (by simpa using hnot)).2] at hfind
        cases hfind
      split
      · exact h
      · next outcome _ =>
          cases outcome with
          | ok marker =>
              exact h.answered hattached id (.marker id marker) rfl rfl (fun _ => rfl)
                (fun face => by cases face <;> exact trivial) _
          | error error =>
              exact h.answered hattached id (.error id error) rfl rfl (fun _ => rfl)
                (fun face => by cases face <;> exact trivial) _

/-! ## Requests -/

/-- A request that the view made is received. -/
theorem fine_popped (h : Fine start w) {id : Nat} {method : Method} {port : List Request}
    (hport : w.session.port = .call id method :: port) (inFlight : List Nat) :
    Fine start { w with
      session := { w.session with port }
      served := { w.served with inFlight } } ∧
      (w.served.Live → w.served.attached = false → w.session.face ≠ .waiting ∧
        (w.session.face = .greeted → port = [] ∧ id = 1 ∧ method = .attach ∧
          w.session.face.afterAll w.served.frames = .greeted)) := by
  have hwaiting (hlive : w.served.Live) : w.session.face ≠ .waiting := by
    intro hface
    obtain ⟨-, ⟨hrequests, -⟩ | ⟨hrequests, -⟩⟩ := (h.right.stage hlive).waiting hface
    · rw [hport] at hrequests
      cases hrequests
    · rw [hport] at hrequests
      cases hrequests
  have hgreeted (hlive : w.served.Live) (hattached : w.served.attached = false)
      (hface : w.session.face = .greeted) : port = [] ∧ id = 1 ∧ method = .attach ∧
        w.session.face.afterAll w.served.frames = .greeted := by
    obtain hrequests | ⟨hrequests, hafter⟩ := (h.right.stage hlive).greeted hface hattached
    · rw [hport] at hrequests
      cases hrequests
    · rw [hport] at hrequests
      obtain ⟨hcall, hrest⟩ := List.cons.inj hrequests
      obtain ⟨hid, hmethod⟩ := Request.call.inj hcall
      exact ⟨hrest, hid, hmethod, hafter⟩
  have hok : Session.Ok { w.session with port } := by
    cases h.ok with
    | «over» because hended hconnection hbecause => exact .over because hended hconnection hbecause
    | waiting hended hlimits hstate hnextId hpending hconnection =>
        exact .waiting hended hlimits hstate hnextId hpending hconnection
    | greeted hended hlimits hstate hpending hconnection =>
        exact .greeted hended hlimits hstate hpending hconnection
    | shows shown hended hlimits hstate hlines hpending hconnection =>
        exact .shows shown hended hlimits hstate hlines hpending hconnection
  refine ⟨⟨h.since, hok, h.honest.unseen rfl rfl rfl, ?_⟩, fun hlive hattached =>
    ⟨hwaiting hlive, hgreeted hlive hattached⟩⟩
  refine ⟨h.right.tidy, h.right.takes, h.right.silent, h.right.carries, fun hlive => ?_⟩
  have hstage := h.right.stage hlive
  refine ⟨hstage.attached, ?_, ?_, hstage.shows, hstage.unanswered⟩
  · intro hface
    exact absurd hface (hwaiting hlive)
  · intro hface hattached
    exact .inl (hgreeted hlive hattached hface).1

theorem ok_port {session : Session S L} (h : session.Ok) (port : List Request) :
    Session.Ok { session with port } := by
  cases h with
  | «over» because hended hconnection hbecause => exact .over because hended hconnection hbecause
  | waiting hended hlimits hstate hnextId hpending hconnection =>
      exact .waiting hended hlimits hstate hnextId hpending hconnection
  | greeted hended hlimits hstate hpending hconnection =>
      exact .greeted hended hlimits hstate hpending hconnection
  | shows shown hended hlimits hstate hlines hpending hconnection =>
      exact .shows shown hended hlimits hstate hlines hpending hconnection

/-- What is asked of a session that is not live goes unread. -/
theorem Good.unread (h : Good start w) (hdead : ¬w.served.Live) (port : List Request) :
    Good start { w with session := { w.session with port } } :=
  ⟨⟨h.since, ok_port h.ok port, h.honest.unseen rfl rfl rfl, h.right.dead hdead port⟩, h.idle⟩

theorem close_dead (served : Served S L R) : ¬served.close.Live := by
  intro hlive
  have hclosed := hlive.1
  unfold Served.close Served.finish at hclosed
  split at hclosed
  · next hwas =>
      rw [hwas] at hclosed
      cases hclosed
  · cases hclosed

theorem Good.closed (h : Good start w) (port : List Request) :
    Good start { w with session := { w.session with port }, served := w.served.close } :=
  Good.unread (h.serves (Served.steps_close w.served h.right.tidy (.inl rfl))) (close_dead w.served) port

theorem Good.hello (h : Good start w) (hlive : w.served.Live) {port : List Request}
    (hport : w.session.port = .hello :: port) (hnegotiated : w.served.negotiated = false) :
    Good start { w with
      session := { w.session with port }
      served := Served.enqueue wire.serve { w.served with negotiated := true } .welcome } := by
  have hright := h.right
  rw [hport] at hright
  refine ⟨⟨h.since, ok_port h.ok port, h.honest.unseen rfl rfl rfl, hright.welcome hlive hnegotiated⟩, ?_⟩
  have hsteps := Served.steps_append wire.serve { w.served with negotiated := true }
    hlive h.right.tidy Formed.welcome rfl
  intro hattached
  obtain ⟨hinFlight, hrefreshes⟩ := h.idle (hsteps.attached.symm.trans hattached)
  exact ⟨hsteps.inFlight.trans hinFlight, hrefreshes⟩

/-- A session that could not attach is ended, its call answered or not. -/
theorem Fine.notAttached (h : Fine start w) (id : Nat)
    (hidle : w.served.inFlight.erase id = [] ∧ w.refreshes = []) :
    Good start { w with served :=
      (w.served.fault wire.serve unavailable).reply wire.serve id (.error id couldNotAttach) } := by
  have hsteps := Served.steps_fault wire.serve w.served h.right.tidy unavailable
  have hright := h.right.steps hsteps
  have hdead : ¬Served.Live { w.served.fault wire.serve unavailable with
      inFlight := (w.served.fault wire.serve unavailable).inFlight.erase id } :=
    Served.fault_dead w.served h.right.tidy unavailable
  have hreply : (w.served.fault wire.serve unavailable).reply wire.serve id (.error id couldNotAttach) =
      { w.served.fault wire.serve unavailable with
        inFlight := (w.served.fault wire.serve unavailable).inFlight.erase id } :=
    Served.enqueue_dead hdead _
  rw [hreply]
  refine ⟨⟨h.since, h.ok, h.honest, hright.tidy, hright.takes, hright.silent, hright.carries,
    fun hlive => absurd hlive hdead⟩, fun _ => ?_⟩
  refine ⟨?_, hidle.2⟩
  show (w.served.fault wire.serve unavailable).inFlight.erase id = []
  rw [hsteps.inFlight]
  exact hidle.1

theorem Good.called (h : Good start w) (hlive : w.served.Live) (hnegotiated : w.served.negotiated = true)
    {id : Nat} {method : Method} {port : List Request} (hport : w.session.port = .call id method :: port) :
    Good start (serveCall wire { w with
      session := { w.session with port }
      served := { w.served with inFlight := w.served.inFlight ++ [id] } } id method) := by
  obtain ⟨hfine, hasked⟩ := fine_popped h.toFine hport (w.served.inFlight ++ [id])
  have hasked := hasked hlive
  have herased (hattached : w.served.attached = false) : (w.served.inFlight ++ [id]).erase id = [] := by
    rw [(h.idle hattached).1]
    exact List.erase_cons_head id []
  generalize hw : ({ w with
    session := { w.session with port }
    served := { w.served with inFlight := w.served.inFlight ++ [id] } } : World S L E R) = v at hfine ⊢
  have hattached : v.served.attached = w.served.attached := by rw [← hw]
  have hface : v.session.face = w.session.face := by rw [← hw]; rfl
  have hvport : v.session.port = port := by rw [← hw]
  have hflight : v.served.inFlight = w.served.inFlight ++ [id] := by rw [← hw]
  have hrefreshes : v.refreshes = w.refreshes := by rw [← hw]
  have hframes : v.served.frames = w.served.frames := by rw [← hw]; rfl
  have hvlive : v.served.Live := by rw [← hw]; exact hlive
  have hvnegotiated : v.served.negotiated = true := by rw [← hw]; exact hnegotiated
  have hrefuse (error : ApiError) :
      Good start { v with served := v.served.reply wire.serve id (.error id error) } := by
    refine hfine.replies id (.error id error) rfl rfl (fun _ => rfl)
      (fun face => by cases face <;> exact trivial) ?_ v.refreshes ?_
    · intro hnot
      rw [hattached] at hnot
      obtain ⟨hwaiting, hgreeted⟩ := hasked hnot
      rw [hface, hvport]
      refine ⟨fun hg => (hgreeted hg).1, hwaiting, ?_⟩
      intro id' value heq
      cases heq
    · intro hnot
      rw [hattached] at hnot
      rw [hflight, hrefreshes]
      exact ⟨herased hnot, (h.idle hnot).2⟩
  unfold serveCall
  dsimp only
  split
  · exact hrefuse alreadyAttached
  · next hnotAgain =>
      split
      · exact hrefuse notAttached
      · next hnotYet =>
          split
          · exact hrefuse _
          · cases method with
            | attach =>
                have hnot : v.served.attached = false := by
                  by_contra hyes
                  exact hnotAgain ⟨rfl, by simpa using hyes⟩
                have hnotW : w.served.attached = false := hattached.symm.trans hnot
                show Good start (v.attachTo wire id)
                unfold attachTo
                cases hattach : v.publisher.attach with
                | ok baseline =>
                    have hbaseline : baseline = v.publisher.current := by
                      unfold Publisher.attach at hattach
                      split at hattach
                      · cases hattach
                      · exact (Except.ok.inj hattach).symm
                    obtain ⟨hwaiting, hgreeted⟩ := hasked hnotW
                    have hright := hfine.right.attach wire.serve hvlive hnot hvnegotiated
                      hfine.since.level.epochs.symm ?_ id ?_ (hface ▸ hwaiting)
                    · refine ⟨⟨hfine.since, hfine.ok, hfine.honest, ?_⟩, ?_⟩
                      · rw [hbaseline]
                        exact hright
                      · intro hnot'
                        have hyes := (Served.reply_kept wire.serve
                          { v.served with attached := true, subscribed := true }
                          hfine.right.tidy id (.baseline id baseline)).1
                        have hattached' : (v.served.attach wire.serve id baseline).attached = true := hyes
                        rw [hattached'] at hnot'
                        cases hnot'
                    · unfold Had
                      rw [show v.publisher.current.state = (v.publisher.effects.foldl .told start.current).state from
                        congrArg BaselineOf.state hfine.since.current]
                      exact told_state _ _
                    · rw [hface, hframes]
                      intro hg
                      exact ⟨(hgreeted hg).2.1, (hgreeted hg).2.2.2⟩
                | error error =>
                    have htells : v.publisher.Tells v.publisher.refresh :=
                  Publisher.tells_step wire.publisher .refresh
                    obtain ⟨hpublished, hattached', hinFlight'⟩ := hfine.publishes wire htells
                    have hidle : (v.publishes wire v.publisher.refresh).served.inFlight.erase id = [] ∧
                        (v.publishes wire v.publisher.refresh).refreshes = [] := by
                      rw [hinFlight', hflight]
                      exact ⟨herased hnotW, hrefreshes.trans (h.idle hnotW).2⟩
                    exact hpublished.notAttached id hidle
            | refresh =>
                have hyes : v.served.attached = true := by
                  by_contra hno
                  exact hnotYet ⟨by simp, by simpa using hno⟩
                have htells : v.publisher.Tells v.publisher.refresh :=
                  Publisher.tells_step wire.publisher .refresh
                have hasking : Fine start { v with refreshes := v.refreshes ++ [(id, v.publisher.refreshes)] } :=
                  ⟨hfine.since, hfine.ok, hfine.honest, hfine.right⟩
                obtain ⟨hpublished, hattached', -⟩ := hasking.publishes wire htells
                refine ⟨hpublished, fun hno => ?_⟩
                rw [hattached', hyes] at hno
                cases hno
            | other name =>
                have hyes : v.served.attached = true := by
                  by_contra hno
                  exact hnotYet ⟨by simp, by simpa using hno⟩
                refine ⟨hfine, fun hno => ?_⟩
                rw [hyes] at hno
                cases hno

theorem Good.requested (h : Good start w) {request : Request} {port : List Request}
    (hport : w.session.port = request :: port) :
    Good start (World.request wire { w with session := { w.session with port } } request) := by
  unfold World.request
  split
  · next hdead =>
      refine h.unread ?_ port
      intro hlive
      rw [hlive.1, hlive.2] at hdead
      cases hdead
  · next hnot =>
      have hlive : w.served.Live := by
        obtain ⟨hclosed, hending⟩ := Bool.or_eq_false_iff.mp (Bool.eq_false_of_not_eq_true hnot)
        exact ⟨hclosed, hending⟩
      cases request with
      | hello =>
          dsimp only
          split
          · exact h.closed port
          · next hnegotiated => exact h.hello hlive hport (by simpa using hnegotiated)
      | call id method =>
          dsimp only
          split
          · exact h.closed port
          · next hfresh =>
              have hnegotiated : w.served.negotiated = true := by
                by_contra hno
                exact hfresh (.inl (by simpa using hno))
              exact h.called hlive hnegotiated hport

/-! ## The view's turns -/

theorem Good.viewReceived (h : Good start w) {frame : Frame S L R} {port : List (Frame S L R)}
    (hport : w.served.port = frame :: port) :
    Good start { w with
      served := { w.served with port }
      session := w.session.receive wire.reads frame } := by
  have htakes : w.session.face.Takes frame := by
    have htakes := h.right.takes
    unfold Served.frames at htakes
    rw [hport] at htakes
    exact htakes.1
  have hmem : frame ∈ w.served.frames := by
    unfold Served.frames
    rw [hport]
    exact List.mem_cons_self
  obtain ⟨hok, hface⟩ := Session.follows_receive wire.reads h.ok htakes
  obtain ⟨hwelcome, hsame⟩ := Session.receive_port wire.reads w.session frame
  have hreceived : Right (Had start w.publisher) { w.served with port } (w.session.face.after frame)
      (w.session.receive wire.reads frame).port w.publisher.current := by
    refine h.right.received hport ?_ hsame
    intro hwaiting hframe
    rw [hwelcome hwaiting hframe]
    cases h.ok with
    | «over» because hended => rw [Session.face_over hended] at hwaiting; cases hwaiting
    | waiting _ _ _ hnextId => rw [hnextId]
    | greeted hended hlimits hstate =>
        rw [Session.face_greeted hended hlimits hstate] at hwaiting
        cases hwaiting
    | shows shown hended hlimits hstate hlines =>
        rw [Session.face_shows hended hlimits hstate hlines] at hwaiting
        cases hwaiting
  refine ⟨⟨h.since, hok, ?_, ?_⟩, h.idle⟩
  · exact Session.honest_receive h.honest h.ok htakes (h.right.carries frame hmem)
  · obtain heq | hover := hface
    · show Right _ _ (w.session.receive wire.reads frame).face _ _
      rw [heq]
      exact hreceived
    · show Right _ _ (w.session.receive wire.reads frame).face _ _
      rw [hover]
      exact hreceived.over _

theorem Good.viewCalled (h : Good start w) (method : Method) :
    Good start { w with session := w.session.call method } := by
  unfold Session.call
  split
  · next hcalls =>
      obtain ⟨hmethod, hconnected⟩ := hcalls
      obtain ⟨shown, hended, hlimits, hstate, hlines, hpending⟩ : ∃ shown : BaselineOf S L,
          w.session.ended = false ∧ w.session.limits = true ∧ w.session.state = some shown.state ∧
            w.session.lines = some shown.lines ∧ ∀ call ∈ w.session.pending, call.2 ≠ .attach := by
        cases h.ok with
        | «over» because _ hconnection => rw [hconnected] at hconnection; cases hconnection
        | waiting _ _ _ _ _ hconnection => rw [hconnected] at hconnection; cases hconnection
        | greeted _ _ _ _ hconnection => rw [hconnected] at hconnection; cases hconnection
        | shows shown hended hlimits hstate hlines hpending =>
            exact ⟨shown, hended, hlimits, hstate, hlines, hpending⟩
      have hface : w.session.face = .shows shown := Session.face_shows hended hlimits hstate hlines
      have hsent : (w.session.send method).face = .shows shown :=
        Session.face_shows hended hlimits hstate hlines
      have hok : (w.session.send method).Ok := by
        refine .shows shown hended hlimits hstate hlines ?_ hconnected
        intro call hcall
        obtain hcall | hcall := List.mem_append.mp hcall
        · exact hpending call hcall
        · obtain rfl := List.mem_singleton.mp hcall
          exact hmethod
      refine ⟨⟨h.since, hok, h.honest.unseen rfl rfl rfl, ?_⟩, h.idle⟩
      show Right _ _ (w.session.send method).face _ _
      have hright := h.right
      rw [hface] at hright
      rw [hsent]
      refine ⟨hright.tidy, hright.takes, hright.silent, hright.carries, fun hlive => ?_⟩
      have hstage := hright.stage hlive
      refine ⟨hstage.attached, ?_, ?_, hstage.shows, hstage.unanswered⟩
      · intro hwaiting
        cases hwaiting
      · intro hgreeted
        cases hgreeted
  · exact h

theorem Good.viewEnded (h : Good start w) {because : Because}
    (hbecause : ∀ error, because = .protocol error → error.published = false) :
    Good start { w with session := w.session.finish because } := by
  cases hended : w.session.ended with
  | true =>
      have hsame : w.session.finish because = w.session := by
        unfold Session.finish
        exact if_pos hended
      rw [hsame]
      exact h
  | false =>
      obtain ⟨hok, hface⟩ := Session.ok_finish hended hbecause
      refine ⟨⟨h.since, hok, h.honest.finish because, ?_⟩, h.idle⟩
      show Right _ _ (w.session.finish because).face _ _
      rw [hface]
      exact h.right.over _

/-! ## Every turn -/

theorem Good.step (h : Good start w) (turn : Turn S L E R) : Good start (w.step wire turn) := by
  cases turn with
  | publisher op => exact h.publishes (Publisher.tells_step wire.publisher op)
  | receives =>
      unfold World.step
      dsimp only
      split
      · exact h
      · next request port hport => exact h.requested hport
  | replies id outcome => exact h.turnReplies id outcome
  | answers id => exact h.turnAnswers id
  | sent => exact h.serves (Served.steps_sent w.served h.right.tidy)
  | sendFails =>
      show Good start (if w.served.writing.isSome = true then _ else w)
      split
      · exact h.serves (Served.steps_close w.served h.right.tidy (.inl rfl))
      · exact h
  | times =>
      show Good start (if w.served.negotiated = true then w else _)
      split
      · exact h
      · exact h.serves (Served.steps_close w.served h.right.tidy (.inl rfl))
  | faults error => exact h.serves (Served.steps_fault wire.serve w.served h.right.tidy error)
  | closes => exact h.serves (Served.steps_close w.served h.right.tidy (.inl rfl))
  | viewReceives =>
      unfold World.step
      dsimp only
      split
      · exact h
      · next frame port hport => exact h.viewReceived hport
  | viewCalls method => exact h.viewCalled method
  | viewCloses => exact h.viewEnded fun error heq => by cases heq
  | viewPortCloses => exact h.viewEnded fun error heq => by cases heq

theorem good_new (wire : Wire S L E R) (initial : NonOpenValue) :
    Good (Publisher.new wire.publisher initial) (World.new wire initial) := by
  refine ⟨⟨⟨rfl, trivial, rfl, Publisher.level_new initial⟩, Session.ok_new, Session.honest_new, ?_⟩,
    fun _ => ⟨rfl, rfl⟩⟩
  refine ⟨tidy_nil, trivial, fun _ => rfl, ?_, fun _ => ?_⟩
  · intro frame hframe
    cases hframe
  · refine ⟨?_, ?_, ?_, ?_, ?_⟩
    · intro hattached
      cases hattached
    · intro _
      exact ⟨rfl, .inl ⟨rfl, rfl⟩⟩
    · intro hface
      cases hface
    · intro shown hface
      cases hface
    · intro _ id value hmem
      cases hmem

/-- Hello, the welcome, the call to attach and its baseline. -/
example :
    (run (⟨⟨0, 9⟩, ⟨64, fun _ => true, fun _ _ => none⟩, fun _ => true, fun _ => false⟩ : Wire Nat Nat Nat Nat)
      ⟨.booting, none, none⟩ [.receives, .sent, .viewReceives, .receives, .viewReceives]).session.connection =
        .connected := by
  decide

end World

end Estoc.Daemon
