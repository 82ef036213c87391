import Estoc.Daemon.Views

/-!
# Every view converges on what is published

While the session served is live, the frames on their way leave a view that attached with
exactly what the publisher has published last. It is so when the baseline is queued, and
every step of the publisher, of the session, of the port and of the view keeps it; so a
view that has received all there is shows it.
-/

set_option linter.unusedSectionVars false

namespace Estoc.Daemon

variable {S L E R : Type}

open Served (Steps Brings Excuse)

/-! ## A session and the view it serves -/

/-- How far a live session and its view have come together: what `frames` leave a view of
this face with, and what the view has asked. -/
structure Stage (served : Served S L R) (frames : List (Frame S L R)) (face : Face S L)
    (requests : List Request) (current : BaselineOf S L) : Prop where
  attached : served.attached = true → served.negotiated = true ∧ served.subscribed = true ∧
    (face = .over ∨ face.afterAll frames = .shows current)
  waiting : face = .waiting → served.attached = false ∧
    ((requests = [.hello] ∧ face.afterAll frames = .waiting) ∨
      (requests = [] ∧ face.afterAll frames = .greeted))
  greeted : face = .greeted → served.attached = false →
    requests = [] ∨ (requests = [.call 1 .attach] ∧ face.afterAll frames = .greeted)
  shows : ∀ shown, face = .shows shown → served.attached = true
  unanswered : served.attached = false → ∀ id value, .result id value ∉ frames

structure Right (had : StateOf S → Prop) (served : Served S L R) (face : Face S L)
    (requests : List Request) (current : BaselineOf S L) : Prop where
  tidy : Tidy served.queue
  takes : face.TakesAll served.frames
  silent : served.attached = false → served.subscribed = false
  carries : ∀ frame ∈ served.frames, ∀ state, carried frame = some state → had state
  stage : served.Live → Stage served served.frames face requests current

variable {had had' : StateOf S → Prop} {served next : Served S L R} {face : Face S L}
  {requests : List Request} {current : BaselineOf S L} {frames : List (Frame S L R)}
  {options : ServeOptions S L R}

theorem Stage.steps (hstage : Stage served frames face requests current) (hsteps : Steps frames served next)
    (htakes : face.TakesAll frames) (hlive : next.Live) :
    Stage next next.frames face requests current := by
  have hafter : face.afterAll next.frames = face.afterAll frames := (hsteps.brings face htakes).2 hlive
  have hsubscribed : next.subscribed = served.subscribed := (hsteps.live hlive).2
  refine ⟨?_, ?_, ?_, ?_, ?_⟩
  · rw [hsteps.attached, hsteps.negotiated, hsubscribed, hafter]
    exact hstage.attached
  · rw [hsteps.attached, hafter]
    exact hstage.waiting
  · rw [hsteps.attached, hafter]
    exact hstage.greeted
  · rw [hsteps.attached]
    exact hstage.shows
  · rw [hsteps.attached]
    intro hattached id value hmem
    obtain hframe | hexcuse := hsteps.origin _ hmem
    · exact hstage.unanswered hattached id value hframe
    · exact hexcuse

/-- A session that takes a step towards frames that are right for the view. -/
theorem right_of_steps (hsteps : Steps frames served next) (htakes : face.TakesAll frames)
    (hsilent : served.attached = false → served.subscribed = false)
    (hcarries : ∀ frame ∈ frames, ∀ state, carried frame = some state → had state)
    (hstage : served.Live → Stage served frames face requests current) :
    Right had next face requests current where
  tidy := hsteps.tidy
  takes := (hsteps.brings face htakes).1
  silent hattached := by
    by_contra hsubscribed
    have hwas := hsilent (hsteps.attached.symm.trans hattached)
    rw [hsteps.subscribed (by simpa using hsubscribed)] at hwas
    cases hwas
  carries frame hframe state hstate := by
    obtain hmem | hexcuse := hsteps.origin frame hframe
    · exact hcarries frame hmem state hstate
    · cases frame with
      | error _ _ => cases hstate
      | fault _ => cases hstate
      | _ => exact hexcuse.elim
  stage hlive := (hstage (hsteps.live hlive).1).steps hsteps htakes hlive

theorem Right.steps (h : Right had served face requests current) (hsteps : Steps served.frames served next) :
    Right had next face requests current :=
  right_of_steps hsteps h.takes h.silent h.carries h.stage

theorem Right.mono (h : Right had served face requests current) (hhad : ∀ state, had state → had' state) :
    Right had' served face requests current :=
  ⟨h.tidy, h.takes, h.silent, fun frame hframe state hstate => hhad _ (h.carries frame hframe state hstate),
    h.stage⟩

/-- A view that is over hears nothing any more. -/
theorem Right.over (h : Right had served face requests current) (requests' : List Request) :
    Right had served .over requests' current where
  tidy := h.tidy
  takes := Face.takesAll_over _
  silent := h.silent
  carries := h.carries
  stage hlive := by
    have hstage := h.stage hlive
    refine ⟨?_, ?_, ?_, ?_, hstage.unanswered⟩
    · intro hattached
      obtain ⟨hnegotiated, hsubscribed, -⟩ := hstage.attached hattached
      exact ⟨hnegotiated, hsubscribed, .inl rfl⟩
    · intro hface
      cases hface
    · intro hface
      cases hface
    · intro shown hface
      cases hface

/-! ## Publications -/

theorem carried_event (event : Event S L) {state : StateOf S}
    (h : carried (.event event : Frame S L R) = some state) : event = .state state := by
  cases event with
  | state said =>
      obtain rfl := Option.some.inj h
      rfl
  | lines said => cases h
  | log line => cases h

/-- An event told to a session that is attached. -/
theorem Right.event (h : Right had served face requests current) (hsubscribed : served.subscribed = true)
    {event : Event S L} (hhears : current.Hears event) (hhad : ∀ state, event = .state state → had state) :
    Right had (served.event options event) face requests (current.heard event) := by
  have hattached : served.attached = true := by
    by_contra hnot
    rw [h.silent (by simpa using hnot)] at hsubscribed
    cases hsubscribed
  unfold Served.event
  rw [if_pos hattached]
  by_cases hlive : served.Live
  · have hstage := h.stage hlive
    obtain ⟨hnegotiated, -, hshown⟩ := hstage.attached hattached
    have hplaced : face.TakesAll (served.port ++ Served.framesOf ((Queued.event event).place served.queue)) ∧
        (face = .over ∨
          face.afterAll (served.port ++ Served.framesOf ((Queued.event event).place served.queue)) =
            .shows (current.heard event)) := by
      obtain rfl | hafter := hshown
      · exact ⟨Face.takesAll_over _, .inl rfl⟩
      · obtain ⟨htakes, hafter⟩ := Served.takesAll_place h.tidy h.takes hafter hhears
        exact ⟨htakes, .inr hafter⟩
    refine right_of_steps (Served.steps_enqueue options served hlive h.tidy (.event event)) hplaced.1 h.silent ?_ ?_
    · intro frame hframe state hstate
      have hmem : frame ∈ served.frames ∨ frame = .event event := by
        obtain hframe | hframe := List.mem_append.mp hframe
        · exact .inl (List.mem_append_left _ hframe)
        · obtain ⟨queued, hqueued, rfl⟩ := List.mem_map.mp hframe
          obtain ⟨hplace, -⟩ | ⟨front, old, rear, key, hqueue, hplace, -, -⟩ :=
            place_cases (.event event) served.queue
          · rw [hplace] at hqueued
            obtain hqueued | hqueued := List.mem_append.mp hqueued
            · exact .inl (List.mem_append_right _ (List.mem_map_of_mem hqueued))
            · obtain rfl := List.mem_singleton.mp hqueued
              exact .inr rfl
          · rw [hplace] at hqueued
            obtain hqueued | hqueued := List.mem_append.mp hqueued
            · refine .inl (List.mem_append_right _ (List.mem_map_of_mem ?_))
              rw [hqueue]
              exact List.mem_append_left _ hqueued
            · obtain rfl | hqueued := List.mem_cons.mp hqueued
              · exact .inr rfl
              · refine .inl (List.mem_append_right _ (List.mem_map_of_mem ?_))
                rw [hqueue]
                exact List.mem_append_right _ (List.mem_cons_of_mem _ hqueued)
      obtain hframe | rfl := hmem
      · exact h.carries frame hframe state hstate
      · exact hhad state (carried_event event hstate)
    · intro _
      refine ⟨fun _ => ⟨hnegotiated, hsubscribed, hplaced.2⟩, ?_, ?_, fun _ _ => hattached, ?_⟩
      · intro hface
        exact absurd (hattached.symm.trans (hstage.waiting hface).1) (by simp)
      · intro _ hnot
        exact absurd (hattached.symm.trans hnot) (by simp)
      · intro hnot
        exact absurd (hattached.symm.trans hnot) (by simp)
  · rw [Served.enqueue_dead hlive]
    exact ⟨h.tidy, h.takes, h.silent, h.carries, fun hlive' => absurd hlive' hlive⟩

/-- What the publisher says while the session is not told of it. -/
theorem Right.unheard (h : Right had served face requests current) (hsubscribed : ¬served.subscribed = true)
    (later : BaselineOf S L) : Right had served face requests later where
  tidy := h.tidy
  takes := h.takes
  silent := h.silent
  carries := h.carries
  stage hlive := by
    have hstage := h.stage hlive
    refine ⟨?_, hstage.waiting, hstage.greeted, hstage.shows, hstage.unanswered⟩
    intro hattached
    exact absurd (hstage.attached hattached).2.1 hsubscribed

theorem Right.hear (h : Right had served face requests current) (damaged : E → Bool) {effect : Effect S L E}
    (hfits : Fits current effect) (hhad : ∀ state, effect = .state state → had state) :
    Right had (served.hear options damaged effect) face requests (current.told effect) := by
  cases effect with
  | state state =>
      show Right had (if _ then _ else _) face requests (current.heard (.state state))
      split
      · next hsubscribed =>
          refine h.event hsubscribed (Next.newer hfits) ?_
          intro said heq
          obtain rfl := Event.state.inj heq
          exact hhad state rfl
      · next hsubscribed => exact h.unheard hsubscribed _
  | lines lines =>
      show Right had (if _ then _ else _) face requests (current.heard (.lines lines))
      split
      · next hsubscribed =>
          refine h.event hsubscribed ⟨hfits.1, hfits.2.newer⟩ ?_
          intro said heq
          cases heq
      · next hsubscribed => exact h.unheard hsubscribed _
  | log line =>
      show Right had (if _ then _ else _) face requests (current.heard (.log line))
      split
      · next hsubscribed =>
          refine h.event hsubscribed hfits ?_
          intro said heq
          cases heq
      · next hsubscribed => exact h.unheard hsubscribed _
  | unavailable error =>
      show Right had (if _ then _ else _) face requests current
      split
      · exact h.steps (Served.steps_fault options served h.tidy unavailable)
      · exact h
  | _ => exact h

theorem Right.hears (h : Right had served face requests current) (options : ServeOptions S L R)
    (damaged : E → Bool)
    {effects : List (Effect S L E)} (hinOrder : InOrder current effects)
    (hhad : ∀ state, .state state ∈ effects → had state) :
    Right had (effects.foldl (fun served effect => served.hear options damaged effect) served) face requests
      (effects.foldl .told current) := by
  induction effects generalizing served current with
  | nil => exact h
  | cons effect effects ih =>
      obtain ⟨hfits, hrest⟩ := hinOrder
      refine ih (h.hear damaged hfits ?_) hrest ?_
      · intro state heq
        exact hhad state (heq ▸ List.mem_cons_self)
      · intro state hstate
        exact hhad state (List.mem_cons_of_mem _ hstate)

/-! ## Replies -/

/-- A reply that is no baseline changes nothing for the view, unless it waits for one. -/
theorem Right.reply (h : Right had served face requests current) (id : Nat) {entry : Queued S L R}
    (hentry : Formed entry) (hreplaces : entry.replaces = none) (hcarried : carried entry.frame = none)
    (hshows : ∀ shown : BaselineOf S L, (Face.shows shown).after entry.frame = .shows shown)
    (htakes : ∀ face : Face S L, face.Takes entry.frame)
    (hasks : served.attached = false → (face = .greeted → requests = []) ∧ face ≠ .waiting ∧
      ∀ id value, entry.frame ≠ .result id value) :
    Right had (served.reply options id entry) face requests current := by
  unfold Served.reply
  by_cases hlive : served.Live
  · have hstage := h.stage hlive
    have hsteps := Served.steps_append options
      { served with inFlight := served.inFlight.erase id } hlive h.tidy hentry hreplaces
    refine right_of_steps hsteps ?_ h.silent ?_ ?_
    · exact Face.takesAll_append.mpr ⟨h.takes, htakes _, trivial⟩
    · intro frame hframe state hstate
      obtain hframe | hframe := List.mem_append.mp hframe
      · exact h.carries frame hframe state hstate
      · obtain rfl := List.mem_singleton.mp hframe
        rw [hcarried] at hstate
        cases hstate
    · intro _
      refine ⟨?_, ?_, ?_, hstage.shows, ?_⟩
      · intro hattached
        obtain ⟨hnegotiated, hsubscribed, hshown⟩ := hstage.attached hattached
        refine ⟨hnegotiated, hsubscribed, ?_⟩
        obtain rfl | hafter := hshown
        · exact .inl rfl
        · have hshows' : face.afterAll served.frames = .shows current := hafter
          refine .inr ?_
          show face.afterAll (served.frames ++ [entry.frame]) = _
          rw [Face.afterAll_append, hshows']
          exact hshows current
      · intro hface
        exact absurd hface (hasks (hstage.waiting hface).1).2.1
      · intro hface hattached
        exact .inl ((hasks hattached).1 hface)
      · intro hattached id value hmem
        obtain hmem | hmem := List.mem_append.mp hmem
        · exact hstage.unanswered hattached id value hmem
        · exact (hasks hattached).2.2 id value (List.mem_singleton.mp hmem).symm
  · have hdead : ¬Served.Live { served with inFlight := served.inFlight.erase id } := hlive
    rw [Served.enqueue_dead hdead]
    exact ⟨h.tidy, h.takes, h.silent, h.carries, fun hlive' => absurd hlive' hlive⟩

/-- The baseline is queued before anything is published to the session. -/
theorem Right.attach (h : Right had served face requests current) (options : ServeOptions S L R)
    (hlive : served.Live)
    (hattached : served.attached = false) (hnegotiated : served.negotiated = true)
    (hlevel : current.state.epoch = current.lines.epoch) (hhad : had current.state) (id : Nat)
    (hasks : face = .greeted → id = 1 ∧ face.afterAll served.frames = .greeted) (hwaiting : face ≠ .waiting) :
    Right had (served.attach options id current) face requests current := by
  have hstage := h.stage hlive
  have htakes : face.TakesAll (served.frames ++ [.result id (.baseline current)]) ∧
      (face = .over ∨ face.afterAll (served.frames ++ [.result id (.baseline current)]) = .shows current) := by
    cases face with
    | waiting => exact absurd rfl hwaiting
    | shows shown =>
        rw [hstage.shows shown rfl] at hattached
        cases hattached
    | «over» => exact ⟨Face.takesAll_over _, .inl rfl⟩
    | greeted =>
        obtain ⟨rfl, hafter⟩ := hasks rfl
        refine ⟨Face.takesAll_append.mpr ⟨h.takes, ?_, trivial⟩, .inr ?_⟩
        · rw [hafter]
          exact hlevel
        · rw [Face.afterAll_append, hafter]
          rfl
  have hsteps := Served.steps_append options
    { served with
      attached := true
      subscribed := true
      inFlight := served.inFlight.erase id } hlive h.tidy (.baseline id current) rfl
  refine right_of_steps hsteps htakes.1 (fun hnot => by cases hnot) ?_ ?_
  · intro frame hframe state hstate
    obtain hframe | hframe := List.mem_append.mp hframe
    · exact h.carries frame hframe state hstate
    · obtain rfl := List.mem_singleton.mp hframe
      obtain rfl := Option.some.inj hstate
      exact hhad
  · intro _
    refine ⟨fun _ => ⟨hnegotiated, rfl, htakes.2⟩, ?_, ?_, fun _ _ => rfl, ?_⟩
    · intro hface
      exact absurd hface hwaiting
    · intro _ hnot
      cases hnot
    · intro hnot
      cases hnot

theorem takes_welcome (face : Face S L) : face.Takes (.welcome : Frame S L R) := by
  cases face <;> exact trivial

/-- The welcome, said once. -/
theorem Right.welcome {port : List Request} (h : Right had served face (.hello :: port) current)
    (hlive : served.Live) (hnegotiated : served.negotiated = false) :
    Right had (Served.enqueue options { served with negotiated := true } .welcome) face port current := by
  have hstage := h.stage hlive
  have hattached : served.attached = false := by
    by_contra hnot
    rw [(hstage.attached (by simpa using hnot)).1] at hnegotiated
    cases hnegotiated
  have hsteps := Served.steps_append options { served with negotiated := true }
    hlive h.tidy Formed.welcome rfl
  refine right_of_steps hsteps ?_ h.silent ?_ ?_
  · exact Face.takesAll_append.mpr ⟨h.takes, takes_welcome _, trivial⟩
  · intro frame hframe state hstate
    obtain hframe | hframe := List.mem_append.mp hframe
    · exact h.carries frame hframe state hstate
    · obtain rfl := List.mem_singleton.mp hframe
      cases hstate
  · intro _
    refine ⟨?_, ?_, ?_, hstage.shows, ?_⟩
    · intro hnot
      exact absurd (hattached.symm.trans hnot) (by simp)
    · intro hface
      obtain ⟨-, ⟨hrequests, hafter⟩ | ⟨hrequests, -⟩⟩ := hstage.waiting hface
      · refine ⟨hattached, .inr ⟨(List.cons.inj hrequests).2, ?_⟩⟩
        show face.afterAll (served.frames ++ [.welcome]) = .greeted
        rw [Face.afterAll_append, hafter]
        rfl
      · cases hrequests
    · intro hface _
      obtain hrequests | ⟨hrequests, -⟩ := hstage.greeted hface hattached
      · cases hrequests
      · cases hrequests
    · intro _ id value hmem
      obtain hmem | hmem := List.mem_append.mp hmem
      · exact hstage.unanswered hattached id value hmem
      · cases List.mem_singleton.mp hmem

theorem Right.dead (h : Right had served face requests current) (hdead : ¬served.Live)
    (requests' : List Request) : Right had served face requests' current :=
  ⟨h.tidy, h.takes, h.silent, h.carries, fun hlive => absurd hlive hdead⟩

/-! ## Frames received -/

theorem after_ne_waiting (face : Face S L) (frame : Frame S L R) : face.after frame ≠ .waiting := by
  cases face with
  | waiting => cases frame <;> simp [Face.after]
  | greeted =>
      cases frame with
      | result id value =>
          show (if id = 1 then _ else _) ≠ _
          split
          · cases value <;> simp
          · simp
      | error id error =>
          show (if id = 1 then _ else _) ≠ _
          split <;> simp
      | _ => simp [Face.after]
  | shows shown => cases frame <;> simp [Face.after]
  | «over» => simp [Face.after]

theorem afterAll_ne_waiting (face : Face S L) (frame : Frame S L R) (frames : List (Frame S L R)) :
    face.afterAll (frame :: frames) ≠ .waiting := by
  induction frames generalizing face frame with
  | nil => exact after_ne_waiting face frame
  | cons next frames ih => exact ih (face.after frame) next

theorem after_greeted {face : Face S L} {frame : Frame S L R} (h : face.after frame = .greeted) :
    (face = .waiting ∧ frame = .welcome) ∨ face = .greeted := by
  cases face with
  | waiting =>
      cases frame with
      | welcome => exact .inl ⟨rfl, rfl⟩
      | _ => cases h
  | greeted => exact .inr rfl
  | shows shown => cases frame <;> cases h
  | «over» => cases h

theorem after_shows {face : Face S L} {frame : Frame S L R} {shown : BaselineOf S L}
    (h : face.after frame = .shows shown) :
    (face = .greeted ∧ ∃ id value, frame = .result id value) ∨ ∃ before, face = .shows before := by
  cases face with
  | waiting => cases frame <;> cases h
  | greeted =>
      cases frame with
      | result id value => exact .inl ⟨rfl, id, value, rfl⟩
      | error id error =>
          have hite : (if id = 1 then Face.over else Face.greeted) = Face.shows shown := h
          split at hite <;> cases hite
      | _ => cases h
  | shows before => exact .inr ⟨before, rfl⟩
  | «over» => cases h

/-- The view receives the first of the frames on their way. -/
theorem Right.received {frame : Frame S L R} {port : List (Frame S L R)}
    (h : Right had served face requests current) (hport : served.port = frame :: port)
    {requests' : List Request} (hwelcome : face = .waiting → frame = .welcome →
      requests' = requests ++ [.call 1 .attach]) (hsame : face ≠ .waiting → requests' = requests) :
    Right had { served with port } (face.after frame) requests' current := by
  have hframes : served.frames = frame :: Served.frames { served with port } := by
    unfold Served.frames
    rw [hport]
    rfl
  have htakes := h.takes
  rw [hframes] at htakes
  refine ⟨h.tidy, htakes.2, h.silent, ?_, fun hlive => ?_⟩
  · intro other hother
    exact h.carries other (hframes ▸ List.mem_cons_of_mem _ hother)
  · have hstage := h.stage hlive
    rw [hframes] at hstage
    refine ⟨?_, ?_, ?_, ?_, ?_⟩
    · intro hattached
      obtain ⟨hnegotiated, hsubscribed, hshown⟩ := hstage.attached hattached
      refine ⟨hnegotiated, hsubscribed, ?_⟩
      obtain rfl | hafter := hshown
      · exact .inl rfl
      · exact .inr hafter
    · intro hface
      exact absurd hface (after_ne_waiting face frame)
    · intro hface hattached
      obtain ⟨rfl, rfl⟩ | rfl := after_greeted hface
      · obtain ⟨-, ⟨-, hafter⟩ | ⟨hrequests, hafter⟩⟩ := hstage.waiting rfl
        · exact absurd hafter (afterAll_ne_waiting _ _ _)
        · refine .inr ⟨?_, hafter⟩
          rw [hwelcome rfl rfl, hrequests]
          rfl
      · rw [hsame (by simp)]
        obtain hrequests | ⟨hrequests, hafter⟩ := hstage.greeted rfl hattached
        · exact .inl hrequests
        · exact .inr ⟨hrequests, hafter⟩
    · intro shown hface
      obtain ⟨rfl, id, value, rfl⟩ | ⟨before, rfl⟩ := after_shows hface
      · by_contra hnot
        exact hstage.unanswered (by simpa using hnot) id value List.mem_cons_self
      · exact hstage.shows before rfl
    · intro hattached id value hmem
      exact hstage.unanswered hattached id value (List.mem_cons_of_mem _ hmem)

end Estoc.Daemon
