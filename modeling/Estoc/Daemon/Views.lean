import Estoc.Daemon.Queue

/-!
# What a view shows

A view that is told its frames in order never finds the daemon at odds with the contract
over what it published; it shows newer and newer states, and a refresh is met while the
state it shows is not before the one named.
-/

set_option linter.unusedSectionVars false

namespace Estoc.Daemon

variable {S L E R : Type}

/-- The state a frame would have a view show. -/
def carried : Frame S L R → Option (StateOf S)
  | .event (.state state) => some state
  | .result _ (.baseline baseline) => some baseline.state
  | _ => none

namespace Session

def face (session : Session S L) : Face S L :=
  if session.ended then .over
  else if session.limits = false then .waiting
  else
    match session.state, session.lines with
    | some state, some lines => .shows ⟨state, lines⟩
    | _, _ => .greeted

/-- How far a session has come: over, for no fault of what was published; before the
welcome; before the baseline; or shown a state and lines. -/
inductive Ok (session : Session S L) : Prop
  | over (because : Because) (hended : session.ended = true)
      (hconnection : session.connection = .disconnected because)
      (hbecause : ∀ error, because = .protocol error → error.published = false)
  | waiting (hended : session.ended = false) (hlimits : session.limits = false)
      (hstate : session.state = none) (hnextId : session.nextId = 1) (hpending : session.pending = [])
      (hconnection : session.connection = .connecting)
  | greeted (hended : session.ended = false) (hlimits : session.limits = true)
      (hstate : session.state = none) (hpending : session.pending = [(1, .attach)])
      (hconnection : session.connection = .connecting)
  | shows (shown : BaselineOf S L) (hended : session.ended = false) (hlimits : session.limits = true)
      (hstate : session.state = some shown.state) (hlines : session.lines = some shown.lines)
      (hpending : ∀ call ∈ session.pending, call.2 ≠ .attach)
      (hconnection : session.connection = .connected)

variable {session : Session S L} {reads : Frame S L R → Bool}

theorem face_over (hended : session.ended = true) : session.face = .over := by
  unfold face
  exact if_pos hended

theorem face_waiting (hended : session.ended = false) (hlimits : session.limits = false) :
    session.face = .waiting := by
  unfold face
  rw [hended, hlimits]
  rfl

theorem face_greeted (hended : session.ended = false) (hlimits : session.limits = true)
    (hstate : session.state = none) : session.face = .greeted := by
  unfold face
  rw [hended, hlimits, hstate]
  rfl

theorem face_shows {shown : BaselineOf S L} (hended : session.ended = false)
    (hlimits : session.limits = true) (hstate : session.state = some shown.state)
    (hlines : session.lines = some shown.lines) : session.face = .shows shown := by
  unfold face
  rw [hended, hlimits, hstate, hlines]
  rfl

theorem ok_new : (new : Session S L).Ok := .waiting rfl rfl rfl rfl rfl rfl

/-- A session that takes a frame as it should: it is left as the frame leaves it, or it is
over for another reason. -/
def Follows (face : Face S L) (next : Session S L) (frame : Frame S L R) : Prop :=
  next.Ok ∧ (next.face = face.after frame ∨ next.face = .over)

theorem ok_finish (hended : session.ended = false) {because : Because}
    (hbecause : ∀ error, because = .protocol error → error.published = false) :
    (session.finish because).Ok ∧ (session.finish because).face = .over := by
  unfold finish
  rw [hended]
  exact ⟨.over because rfl rfl hbecause, rfl⟩

theorem follows_finish (hended : session.ended = false) {because : Because} (face : Face S L)
    (frame : Frame S L R) (hbecause : ∀ error, because = .protocol error → error.published = false) :
    Follows face (session.finish because) frame := by
  obtain ⟨hok, hface⟩ := ok_finish hended hbecause
  exact ⟨hok, .inr hface⟩

theorem follows_unreadable (hended : session.ended = false) (face : Face S L) (frame : Frame S L R) :
    Follows face (session.protocolError .unreadable) frame := by
  refine follows_finish hended _ frame ?_
  intro error heq
  rw [← Because.protocol.inj heq]
  rfl

/-- The session with a call taken off those that wait. -/
theorem taken_unreadable (hended : session.ended = false) (face : Face S L) (frame : Frame S L R)
    (pending : List (Nat × Method)) :
    Follows face (protocolError { session with pending } .unreadable) frame := by
  have hopen : ({ session with pending } : Session S L).ended = false := hended
  exact follows_unreadable hopen face frame

theorem taken_eq {id : Nat} {method : Method} {next : Session S L}
    (h : session.taken id = some (method, next)) :
    (id, method) ∈ session.pending ∧
      next = { session with pending := session.pending.filter fun call => call.1 ≠ id } := by
  unfold taken at h
  obtain ⟨call, hfind, heq⟩ := Option.map_eq_some_iff.mp h
  obtain ⟨rfl, rfl⟩ := Prod.mk.inj heq
  have hid : call.1 = id := by simpa using List.find?_some hfind
  refine ⟨?_, rfl⟩
  rw [← hid]
  exact List.mem_of_find?_eq_some hfind

theorem taken_none {id : Nat} (h : session.taken id = none) : ∀ call ∈ session.pending, call.1 ≠ id := by
  unfold taken at h
  have hfind := Option.map_eq_none_iff.mp h
  intro call hcall hid
  exact absurd (List.find?_eq_none.mp hfind call hcall) (by simpa using hid)

/-! ## The welcome and the baseline -/

theorem follows_negotiate (hended : session.ended = false) (hlimits : session.limits = false)
    (hstate : session.state = none) (hnextId : session.nextId = 1) (hpending : session.pending = [])
    (hconnection : session.connection = .connecting) (frame : Frame S L R) :
    Follows session.face (session.negotiate frame) frame := by
  cases frame with
  | welcome =>
      have hpending' : ((send { session with limits := true } .attach).pending) = [(1, .attach)] := by
        unfold send
        rw [hpending, hnextId]
        rfl
      refine ⟨.greeted hended rfl hstate hpending' hconnection, .inl ?_⟩
      rw [face_waiting hended hlimits]
      exact face_greeted hended rfl hstate
  | _ =>
      refine follows_finish hended _ _ ?_
      intro error heq
      rw [← Because.protocol.inj heq]
      rfl

theorem follows_answer_greeted (hended : session.ended = false) (hlimits : session.limits = true)
    (hstate : session.state = none) (hpending : session.pending = [(1, .attach)])
    (hconnection : session.connection = .connecting) (id : Nat) (value : Result S L R)
    (htakes : session.face.Takes (.result id value : Frame S L R)) :
    Follows session.face (session.answer reads id value) (.result id value) := by
  have hface : session.face = .greeted := face_greeted hended hlimits hstate
  unfold answer
  split
  · next htaken =>
      have hid : id ≠ 1 := by
        have hnone := taken_none htaken (1, .attach) (by rw [hpending]; exact List.mem_singleton_self _)
        exact fun h => hnone h.symm
      refine ⟨.greeted hended hlimits hstate hpending hconnection, .inl ?_⟩
      rw [hface]
      exact (if_neg hid).symm
  · next method next htaken =>
      obtain ⟨hmem, rfl⟩ := taken_eq htaken
      rw [hpending] at hmem
      obtain ⟨rfl, rfl⟩ := Prod.mk.inj (List.mem_singleton.mp hmem)
      split
      · cases value with
        | baseline baseline =>
            rw [hface] at htakes
            have hepoch : baseline.state.epoch = baseline.lines.epoch := htakes
            show Follows session.face (attached _ baseline) _
            unfold attached
            rw [if_neg (not_not.mpr hepoch)]
            refine ⟨.shows baseline hended hlimits rfl rfl ?_ rfl, .inl ?_⟩
            · intro call hcall
              obtain ⟨hcall, hid⟩ := List.mem_filter.mp hcall
              rw [hpending] at hcall
              rw [List.mem_singleton.mp hcall] at hid
              simp at hid
            · rw [hface]
              exact face_shows hended hlimits rfl rfl
        | marker marker => exact taken_unreadable hended _ _ _
        | other value => exact taken_unreadable hended _ _ _
      · exact taken_unreadable hended _ _ _

theorem follows_refused_greeted (hended : session.ended = false) (hlimits : session.limits = true)
    (hstate : session.state = none) (hpending : session.pending = [(1, .attach)])
    (hconnection : session.connection = .connecting) (id : Nat) (error : ApiError) :
    Follows session.face (session.refused reads id error) (.error id error : Frame S L R) := by
  have hface : session.face = .greeted := face_greeted hended hlimits hstate
  unfold refused
  split
  · next htaken =>
      have hid : id ≠ 1 := by
        have hnone := taken_none htaken (1, .attach) (by rw [hpending]; exact List.mem_singleton_self _)
        exact fun h => hnone h.symm
      refine ⟨.greeted hended hlimits hstate hpending hconnection, .inl ?_⟩
      rw [hface]
      exact (if_neg hid).symm
  · next method next htaken =>
      obtain ⟨hmem, rfl⟩ := taken_eq htaken
      rw [hpending] at hmem
      obtain ⟨rfl, rfl⟩ := Prod.mk.inj (List.mem_singleton.mp hmem)
      split
      · have hnot : ∀ error' : ProtocolError, Because.daemon error = .protocol error' →
            error'.published = false := by
          intro error' heq
          cases heq
        have hopen : ({ session with
            pending := session.pending.filter fun call => call.1 ≠ 1 } : Session S L).ended = false := hended
        exact follows_finish hopen _ _ hnot
      · exact taken_unreadable hended _ _ _

/-! ## While a state and lines are shown -/

section

variable {shown : BaselineOf S L} (hended : session.ended = false) (hlimits : session.limits = true)
  (hstate : session.state = some shown.state) (hlines : session.lines = some shown.lines)
  (hpending : ∀ call ∈ session.pending, call.2 ≠ .attach) (hconnection : session.connection = .connected)

include hended hlimits hstate hlines hpending hconnection

theorem follows_sees (seen : List (Seen S L)) {frame : Frame S L R}
    (hafter : (Face.shows shown).after frame = .shows shown) : Follows session.face (session.sees seen) frame := by
  refine ⟨.shows shown hended hlimits hstate hlines hpending hconnection, .inl ?_⟩
  rw [face_shows hended hlimits hstate hlines, hafter]
  exact face_shows hended hlimits hstate hlines

theorem follows_answer_shows (id : Nat) (value : Result S L R) :
    Follows session.face (session.answer reads id value) (.result id value) := by
  have hface : session.face = .shows shown := face_shows hended hlimits hstate hlines
  have hkept (pending : List (Nat × Method)) (hsub : pending ⊆ session.pending)
      (barriers : List RevisionMarker) (seen : List (Seen S L)) :
      Follows session.face { session with pending, barriers, seen } (.result id value) := by
    refine ⟨.shows shown hended hlimits hstate hlines (fun call h => hpending call (hsub h)) hconnection,
      .inl ?_⟩
    rw [hface]
    exact face_shows hended hlimits hstate hlines
  have hfilter : (session.pending.filter fun call => call.1 ≠ id) ⊆ session.pending :=
    List.filter_subset_self _
  unfold answer
  split
  · exact hkept session.pending (List.Subset.refl _) session.barriers session.seen
  · next method next htaken =>
      obtain ⟨hmem, rfl⟩ := taken_eq htaken
      split
      · split
        · exact absurd rfl (hpending _ hmem)
        · unfold refreshed
          split
          · exact hkept _ hfilter _ _
          · exact hkept _ hfilter _ _
        · exact hkept _ hfilter _ _
        · exact taken_unreadable hended _ _ _
      · exact taken_unreadable hended _ _ _

theorem follows_refused_shows (id : Nat) (error : ApiError) :
    Follows session.face (session.refused reads id error) (.error id error : Frame S L R) := by
  have hface : session.face = .shows shown := face_shows hended hlimits hstate hlines
  have hkept (pending : List (Nat × Method)) (hsub : pending ⊆ session.pending) (seen : List (Seen S L)) :
      Follows session.face { session with pending, seen } (.error id error : Frame S L R) := by
    refine ⟨.shows shown hended hlimits hstate hlines (fun call h => hpending call (hsub h)) hconnection,
      .inl ?_⟩
    rw [hface]
    exact face_shows hended hlimits hstate hlines
  have hfilter : (session.pending.filter fun call => call.1 ≠ id) ⊆ session.pending :=
    List.filter_subset_self _
  unfold refused
  split
  · exact hkept session.pending (List.Subset.refl _) session.seen
  · next method next htaken =>
      obtain ⟨hmem, rfl⟩ := taken_eq htaken
      split
      · split
        · exact absurd rfl (hpending _ hmem)
        · exact hkept _ hfilter _
        · exact hkept _ hfilter _
      · exact taken_unreadable hended _ _ _

theorem follows_state {state : StateOf S} (hnewer : Newer (markerOf shown.state) (markerOf state)) :
    Follows session.face (session.applyState shown.state state) (.event (.state state) : Frame S L R) := by
  have hshows : session.applyState shown.state state = session.shows state := by
    unfold applyState
    obtain hlater | ⟨hepoch, hrevision⟩ := hnewer
    · exact if_neg (Nat.ne_of_gt hlater)
    · have hsame : state.epoch = shown.state.epoch := hepoch.symm
      have hlater : shown.state.revision < state.revision := hrevision
      rw [if_pos hsame, if_neg (Nat.not_lt_of_gt hlater), if_neg (Nat.ne_of_gt hlater)]
  rw [hshows]
  refine ⟨.shows { shown with state } hended hlimits rfl hlines hpending hconnection, .inl ?_⟩
  rw [face_shows hended hlimits hstate hlines]
  show _ = Face.shows { shown with state }
  exact face_shows hended hlimits rfl hlines

theorem follows_lines {lines : LinesStateOf L} (hepoch : lines.epoch = shown.state.epoch)
    (hnewer : Newer shown.lines.marker lines.marker) :
    Follows session.face (session.applyLines shown.state lines) (.event (.lines lines) : Frame S L R) := by
  have hshows : session.applyLines shown.state lines = session.showsLines lines := by
    unfold applyLines
    rw [if_neg (not_not.mpr hepoch), hlines]
    obtain hlater | ⟨hsame, hrevision⟩ := hnewer
    · exact if_neg (Nat.ne_of_gt hlater)
    · have hsame : lines.epoch = shown.lines.epoch := hsame.symm
      have hlater : shown.lines.revision < lines.revision := hrevision
      show (if lines.epoch = shown.lines.epoch then _ else _) = _
      rw [if_pos hsame, if_neg (Nat.not_lt_of_gt hlater), if_neg (Nat.ne_of_gt hlater)]
  rw [hshows]
  refine ⟨.shows { shown with lines } hended hlimits hstate rfl hpending hconnection, .inl ?_⟩
  rw [face_shows hended hlimits hstate hlines]
  show _ = Face.shows { shown with lines }
  exact face_shows hended hlimits hstate rfl

theorem follows_publish {event : Event S L} (hhears : shown.Hears event) :
    Follows session.face (session.publish reads event) (.event event : Frame S L R) := by
  unfold publish
  rw [hstate]
  dsimp only
  split
  · cases event with
    | state state => exact follows_state hended hlimits hstate hlines hpending hconnection hhears
    | lines lines => exact follows_lines hended hlimits hstate hlines hpending hconnection hhears.1 hhears.2
    | log line =>
        have hepoch : line.epoch = shown.state.epoch := hhears
        show Follows session.face (session.applyLog shown.state line) _
        unfold applyLog
        rw [if_neg (not_not.mpr hepoch)]
        exact follows_sees hended hlimits hstate hlines hpending hconnection [.log line] rfl
  · exact follows_unreadable hended _ _

end

/-- A session told a frame it may be told. -/
theorem follows_receive (reads : Frame S L R → Bool) (hok : session.Ok) {frame : Frame S L R} (htakes : session.face.Takes frame) :
    Follows session.face (session.receive reads frame) frame := by
  unfold receive
  cases hok with
  | «over» because hended hconnection hbecause =>
      rw [hended]
      refine ⟨.over because hended hconnection hbecause, .inr (face_over hended)⟩
  | waiting hended hlimits hstate hnextId hpending hconnection =>
      rw [hended, hlimits]
      exact follows_negotiate hended hlimits hstate hnextId hpending hconnection frame
  | greeted hended hlimits hstate hpending hconnection =>
      rw [hended, hlimits]
      cases frame with
      | welcome => exact follows_unreadable hended _ _
      | result id value =>
          exact follows_answer_greeted hended hlimits hstate hpending hconnection id value htakes
      | error id error => exact follows_refused_greeted hended hlimits hstate hpending hconnection id error
      | event event =>
          rw [face_greeted hended hlimits hstate] at htakes
          exact htakes.elim
      | fault error =>
          show Follows session.face (if reads (.fault error) then _ else _) _
          split
          · exact follows_finish hended _ _ (fun error heq => by cases heq)
          · exact follows_unreadable hended _ _
  | shows shown hended hlimits hstate hlines hpending hconnection =>
      rw [hended, hlimits]
      cases frame with
      | welcome => exact follows_unreadable hended _ _
      | result id value =>
          exact follows_answer_shows hended hlimits hstate hlines hpending hconnection id value
      | error id error =>
          exact follows_refused_shows hended hlimits hstate hlines hpending hconnection id error
      | event event =>
          rw [face_shows hended hlimits hstate hlines] at htakes
          exact follows_publish hended hlimits hstate hlines hpending hconnection htakes
      | fault error =>
          show Follows session.face (if reads (.fault error) then _ else _) _
          split
          · exact follows_finish hended _ _ (fun error heq => by cases heq)
          · exact follows_unreadable hended _ _

/-! ## What was seen -/

def stateSeen : Seen S L → Option (StateOf S)
  | .state state => some state
  | _ => none

def statesSeen (seen : List (Seen S L)) : List (StateOf S) := seen.filterMap stateSeen

/-- A state that meets a refresh. -/
def Meets (state : StateOf S) (target : RevisionMarker) : Prop :=
  state.epoch = target.epoch ∧ target.revision ≤ state.revision

/-- Each refresh is met by the state shown at that point. -/
def Met (seen : List (Seen S L)) : Prop :=
  ∀ before target after, seen = before ++ .refreshed target :: after →
    ∃ state ∈ (statesSeen before).getLast?, Meets state target

/-- What is shown is what was seen last; it grew newer all along, was had by the publisher,
and refreshes were met. -/
structure Honest (session : Session S L) (had : StateOf S → Prop) : Prop where
  last : session.ended = false → session.state = (statesSeen session.seen).getLast?
  climbs : ((statesSeen session.seen).map markerOf).Pairwise Newer
  met : Met session.seen
  had : ∀ state ∈ statesSeen session.seen, had state

variable {had had' : StateOf S → Prop}

theorem Honest.mono (h : session.Honest had) (hhad : ∀ state, had state → had' state) :
    session.Honest had' :=
  ⟨h.last, h.climbs, h.met, fun state hstate => hhad state (h.had state hstate)⟩

theorem honest_new : (new : Session S L).Honest had where
  last _ := rfl
  climbs := List.Pairwise.nil
  met before target after h := by simp [new] at h
  had state h := by cases h

theorem met_append {seen more : List (Seen S L)} (h : Met seen) (hstates : statesSeen more = [])
    (hmore : ∀ target, .refreshed target ∈ more → ∃ state ∈ (statesSeen seen).getLast?, Meets state target) :
    Met (seen ++ more) := by
  intro before target after heq
  obtain ⟨middle, hbefore, hafter⟩ | ⟨middle, hbefore, hafter⟩ := List.append_eq_append_iff.mp heq
  · have hmem : .refreshed target ∈ more := by
      rw [hafter]
      exact List.mem_append_right _ List.mem_cons_self
    obtain ⟨state, hstate, hmeets⟩ := hmore target hmem
    refine ⟨state, ?_, hmeets⟩
    have hnone : statesSeen middle = [] := by
      rw [hafter] at hstates
      unfold statesSeen at hstates ⊢
      rw [List.filterMap_append] at hstates
      exact (List.append_eq_nil_iff.mp hstates).1
    unfold statesSeen at hnone ⊢
    rw [hbefore, List.filterMap_append, hnone, List.append_nil]
    exact hstate
  · cases middle with
    | nil =>
        rw [List.append_nil] at hbefore
        have hmem : .refreshed target ∈ more := by
          rw [List.nil_append] at hafter
          rw [← hafter]
          exact List.mem_cons_self
        exact hbefore ▸ hmore target hmem
    | cons seen' middle =>
        obtain ⟨hseen, -⟩ := List.cons.inj hafter
        exact h before target middle (by rw [hbefore, hseen])

/-- Nothing new is shown; refreshes met are met by what is. -/
theorem Honest.quiet {next : Session S L} (h : session.Honest had) (more : List (Seen S L))
    (hseen : next.seen = session.seen ++ more) (hstates : statesSeen more = [])
    (hlast : next.ended = false → session.ended = false ∧ next.state = session.state)
    (hmore : ∀ target, .refreshed target ∈ more →
      ∃ state ∈ (statesSeen session.seen).getLast?, Meets state target) : next.Honest had := by
  have hsame : statesSeen next.seen = statesSeen session.seen := by
    unfold statesSeen at hstates ⊢
    rw [hseen, List.filterMap_append, hstates, List.append_nil]
  refine ⟨?_, ?_, ?_, ?_⟩
  · intro hended
    obtain ⟨hopen, hstate⟩ := hlast hended
    rw [hstate, hsame]
    exact h.last hopen
  · rw [hsame]
    exact h.climbs
  · rw [hseen]
    exact met_append h.met hstates hmore
  · rw [hsame]
    exact h.had

/-- A state newer than the one shown, and the refreshes it meets. -/
theorem Honest.newer {next : Session S L} (h : session.Honest had) (state : StateOf S) (more : List (Seen S L))
    (hseen : next.seen = session.seen ++ .state state :: more) (hstates : statesSeen more = [])
    (hstate : next.state = some state)
    (hnewer : ∀ shown ∈ (statesSeen session.seen).getLast?, Newer (markerOf shown) (markerOf state))
    (hmore : ∀ target, .refreshed target ∈ more → Meets state target) (hhad : had state) :
    next.Honest had := by
  have hsplit : next.seen = (session.seen ++ [.state state]) ++ more := by
    rw [hseen, List.append_assoc]
    rfl
  have hlast : statesSeen (session.seen ++ [.state state]) = statesSeen session.seen ++ [state] :=
    List.filterMap_append
  have hsame : statesSeen next.seen = statesSeen session.seen ++ [state] := by
    rw [← hlast]
    unfold statesSeen at hstates ⊢
    rw [hsplit, List.filterMap_append, hstates, List.append_nil]
  refine ⟨?_, ?_, ?_, ?_⟩
  · intro _
    rw [hstate, hsame, List.getLast?_concat]
  · rw [hsame, List.map_append]
    refine List.pairwise_append.mpr ⟨h.climbs, List.pairwise_singleton _ _, ?_⟩
    intro marker hmarker marker' hmarker'
    obtain rfl := List.mem_singleton.mp hmarker'
    obtain ⟨earlier, hearlier, rfl⟩ := List.mem_map.mp hmarker
    obtain ⟨front, shown, hfront⟩ := List.eq_nil_or_concat (statesSeen session.seen) |>.resolve_left
      (List.ne_nil_of_mem hearlier)
    rw [List.concat_eq_append] at hfront
    have hshown : Newer (markerOf shown) (markerOf state) := by
      refine hnewer shown ?_
      rw [hfront, List.getLast?_concat]
      rfl
    rw [hfront] at hearlier
    obtain hearlier | hearlier := List.mem_append.mp hearlier
    · have hclimbs := h.climbs
      rw [hfront, List.map_append] at hclimbs
      have hbefore := (List.pairwise_append.mp hclimbs).2.2 (markerOf earlier)
        (List.mem_map_of_mem hearlier) (markerOf shown) List.mem_cons_self
      exact hbefore.trans hshown
    · exact List.mem_singleton.mp hearlier ▸ hshown
  · rw [hsplit]
    have hmet : Met (session.seen ++ [.state state]) := by
      intro before target after heq
      obtain ⟨middle, hbefore, hafter⟩ | ⟨middle, hbefore, hafter⟩ := List.append_eq_append_iff.mp heq
      · cases middle with
        | nil => cases hafter
        | cons _ _ => simp at hafter
      · cases middle with
        | nil => cases hafter
        | cons seen' middle =>
            obtain ⟨hseen', -⟩ := List.cons.inj hafter
            exact h.met before target middle (by rw [hbefore, hseen'])
    refine met_append hmet hstates ?_
    intro target htarget
    refine ⟨state, ?_, hmore target htarget⟩
    rw [hlast, List.getLast?_concat]
    rfl
  · rw [hsame]
    intro earlier hearlier
    obtain hearlier | hearlier := List.mem_append.mp hearlier
    · exact h.had earlier hearlier
    · exact List.mem_singleton.mp hearlier ▸ hhad

/-- What a barrier comes to is no state, and is met by the one shown. -/
theorem settled_spec {target : RevisionMarker} {seen : Seen S L} (h : session.settled target = some seen) :
    stateSeen seen = none ∧ ∀ target', seen = .refreshed target' →
      ∃ state, session.state = some state ∧ Meets state target' := by
  unfold settled at h
  split at h
  · cases h
  · next shown hshown =>
      split at h
      · obtain rfl := Option.some.inj h
        refine ⟨rfl, ?_⟩
        intro target' heq
        cases heq
      · next hepoch =>
          split at h
          · cases h
          · next hrevision =>
              obtain rfl := Option.some.inj h
              refine ⟨rfl, ?_⟩
              intro target' heq
              obtain rfl := Seen.refreshed.inj heq
              exact ⟨shown, hshown, not_not.mp hepoch, Nat.le_of_not_lt hrevision⟩

theorem Honest.finish (h : session.Honest had) (because : Because) : (session.finish because).Honest had := by
  unfold Session.finish
  split
  · exact h
  · refine h.quiet _ rfl ?_ ?_ ?_
    · refine List.filterMap_eq_nil_iff.mpr ?_
      intro seen hseen
      obtain ⟨-, -, rfl⟩ := List.mem_map.mp hseen
      rfl
    · intro hended
      cases hended
    · intro target htarget
      obtain ⟨-, -, heq⟩ := List.mem_map.mp htarget
      cases heq

theorem Honest.shows (h : session.Honest had) {state : StateOf S}
    (hnewer : ∀ shown ∈ (statesSeen session.seen).getLast?, Newer (markerOf shown) (markerOf state))
    (hhad : had state) : (session.shows state).Honest had := by
  refine h.newer state (session.barriers.filterMap
    (sees { session with state := some state } [.state state]).settled) ?_ ?_ rfl hnewer ?_ hhad
  · show (session.seen ++ [.state state]) ++ _ = _
    rw [List.append_assoc]
    rfl
  · refine List.filterMap_eq_nil_iff.mpr ?_
    intro seen hseen
    obtain ⟨target, -, hsettled⟩ := List.mem_filterMap.mp hseen
    exact (settled_spec hsettled).1
  · intro target htarget
    obtain ⟨target', -, hsettled⟩ := List.mem_filterMap.mp htarget
    obtain ⟨shown, hshown, hmeets⟩ := (settled_spec hsettled).2 target rfl
    obtain rfl := Option.some.inj hshown
    exact hmeets

theorem Honest.protocolError (h : session.Honest had) (error : ProtocolError) :
    (session.protocolError error).Honest had := h.finish _

/-- Calls and barriers taken or added are not seen. -/
theorem Honest.unseen {next : Session S L} (h : session.Honest had) (hseen : next.seen = session.seen)
    (hended : next.ended = session.ended) (hstate : next.state = session.state) : next.Honest had := by
  refine h.quiet [] (by rw [hseen, List.append_nil]) rfl ?_ ?_
  · intro hopen
    exact ⟨hended.symm.trans hopen, hstate⟩
  · intro target htarget
    cases htarget

theorem Honest.sees (h : session.Honest had) (hended : session.ended = false) {seen : Seen S L}
    (hstate : stateSeen seen = none) (hmeets : ∀ target, seen = .refreshed target →
      ∃ state, session.state = some state ∧ Meets state target) : (session.sees [seen]).Honest had := by
  refine h.quiet _ rfl ?_ ?_ ?_
  · exact List.filterMap_eq_nil_iff.mpr (List.forall_mem_singleton.mpr hstate)
  · intro _
    exact ⟨hended, rfl⟩
  · intro target htarget
    obtain ⟨state, hshown, hmeets⟩ := hmeets target (List.mem_singleton.mp htarget).symm
    refine ⟨state, ?_, hmeets⟩
    rw [← h.last hended, hshown]
    rfl

theorem Honest.answer (h : session.Honest had) (hok : session.Ok) (hended : session.ended = false) (id : Nat)
    (value : Result S L R) (hhad : ∀ baseline, value = .baseline baseline → had baseline.state) :
    (session.answer reads id value).Honest had := by
  unfold Session.answer
  split
  · exact h
  · next method next htaken =>
      obtain ⟨hmem, rfl⟩ := taken_eq htaken
      have hrest : Honest { session with pending := session.pending.filter fun call => call.1 ≠ id } had :=
        h.unseen rfl rfl rfl
      split
      · split
        · next baseline _ =>
            unfold attached
            split
            · exact hrest.protocolError _
            · -- the baseline comes before any state was shown
              have hnone : session.state = none := by
                cases hok with
                | «over» because hover => rw [hover] at hended; cases hended
                | waiting _ _ hstate => exact hstate
                | greeted _ _ hstate => exact hstate
                | shows _ _ _ _ _ hpending => exact absurd rfl (hpending _ hmem)
              refine hrest.newer baseline.state [.lines baseline.lines] rfl rfl rfl ?_ ?_
                (hhad baseline rfl)
              · intro shown hshown
                rw [show (statesSeen session.seen).getLast? = none from (h.last hended).symm.trans hnone]
                  at hshown
                cases hshown
              · intro target htarget
                cases List.mem_singleton.mp htarget
        · unfold refreshed
          split
          · next seen hsettled =>
              exact hrest.sees hended (settled_spec hsettled).1 (settled_spec hsettled).2
          · exact hrest.unseen rfl rfl rfl
        · exact hrest
        · exact hrest.protocolError _
      · exact hrest.protocolError _

theorem Honest.refused (h : session.Honest had) (hended : session.ended = false) (id : Nat) (error : ApiError) :
    (session.refused reads id error).Honest had := by
  unfold Session.refused
  split
  · exact h
  · next method next htaken =>
      obtain ⟨-, rfl⟩ := taken_eq htaken
      have hrest : Honest { session with pending := session.pending.filter fun call => call.1 ≠ id } had :=
        h.unseen rfl rfl rfl
      split
      · split
        · exact hrest.finish _
        · refine hrest.sees hended rfl ?_
          intro target heq
          cases heq
        · exact hrest
      · exact hrest.protocolError _

theorem Honest.publish (h : session.Honest had) (hended : session.ended = false) {event : Event S L}
    (hhears : ∀ state shown, session.state = some shown → event = .state state →
      Newer (markerOf shown) (markerOf state)) (hhad : ∀ state, event = .state state → had state) :
    (session.publish reads event).Honest had := by
  unfold Session.publish
  split
  · exact h.protocolError _
  · next shown hshown =>
      split
      · cases event with
        | state state =>
            have hnewer : ∀ earlier ∈ (statesSeen session.seen).getLast?,
                Newer (markerOf earlier) (markerOf state) := by
              intro earlier hearlier
              rw [← h.last hended, hshown] at hearlier
              obtain rfl := Option.some.inj hearlier
              exact hhears state shown hshown rfl
            show (session.applyState shown state).Honest had
            unfold applyState
            split
            · split
              · exact h.protocolError _
              · split
                · exact h
                · exact h.shows hnewer (hhad state rfl)
            · exact h.shows hnewer (hhad state rfl)
        | lines lines =>
            have hlines : (session.showsLines lines).Honest had := by
              have hshown : ({ session with lines := some lines } : Session S L).Honest had :=
                h.unseen rfl rfl rfl
              refine hshown.sees hended rfl ?_
              intro target heq
              cases heq
            show (session.applyLines shown lines).Honest had
            unfold applyLines
            split
            · exact h.protocolError _
            · split
              · split
                · split
                  · exact h.protocolError _
                  · split
                    · exact h
                    · exact hlines
                · exact hlines
              · exact hlines
        | log line =>
            show (session.applyLog shown line).Honest had
            unfold applyLog
            split
            · exact h.protocolError _
            · refine h.sees hended rfl ?_
              intro target heq
              cases heq
      · exact h.protocolError _

theorem honest_receive (h : session.Honest had) (hok : session.Ok) {frame : Frame S L R}
    (htakes : session.face.Takes frame) (hhad : ∀ state, carried frame = some state → had state) :
    (session.receive reads frame).Honest had := by
  unfold receive
  split
  · exact h
  · next hended =>
      have hended : session.ended = false := by simpa using hended
      split
      · cases frame with
        | welcome => exact h.unseen rfl rfl rfl
        | _ => exact h.protocolError _
      · cases frame with
        | welcome => exact h.protocolError _
        | result id value => exact h.answer hok hended id value fun baseline heq => hhad _ (by rw [heq]; rfl)
        | error id error => exact h.refused hended id error
        | event event =>
            refine h.publish hended ?_ fun state heq => hhad state (by rw [heq]; rfl)
            intro state shown hshown heq
            cases hok with
            | «over» because hover => rw [hover] at hended; cases hended
            | waiting _ _ hstate => rw [hstate] at hshown; cases hshown
            | greeted _ _ hstate => rw [hstate] at hshown; cases hshown
            | shows shown' _ hlimits hstate hlines =>
                rw [face_shows hended hlimits hstate hlines, heq] at htakes
                obtain rfl := Option.some.inj (hstate.symm.trans hshown)
                exact htakes
        | fault error =>
            show Honest (if reads (.fault error) then _ else _) had
            split
            · exact h.finish _
            · exact h.protocolError _

/-! ## What was asked -/

theorem finish_port (session : Session S L) (because : Because) :
    (session.finish because).port = session.port := by
  unfold finish
  split <;> rfl

theorem publish_port (session : Session S L) (event : Event S L) :
    (session.publish reads event).port = session.port := by
  unfold publish
  split
  · exact finish_port _ _
  · split
    · cases event with
      | state state =>
          show (session.applyState _ state).port = _
          unfold applyState
          split
          · split
            · exact finish_port _ _
            · split <;> rfl
          · rfl
      | lines lines =>
          show (session.applyLines _ lines).port = _
          unfold applyLines
          split
          · exact finish_port _ _
          · split
            · split
              · split
                · exact finish_port _ _
                · split <;> rfl
              · rfl
            · rfl
      | log line =>
          show (session.applyLog _ line).port = _
          unfold applyLog
          split
          · exact finish_port _ _
          · rfl
    · exact finish_port _ _

theorem answer_port (session : Session S L) (id : Nat) (value : Result S L R) :
    (session.answer reads id value).port = session.port := by
  unfold answer
  split
  · rfl
  · next method next htaken =>
      obtain ⟨-, rfl⟩ := taken_eq htaken
      split
      · split
        · unfold attached
          split
          · exact finish_port _ _
          · rfl
        · unfold refreshed
          split <;> rfl
        · rfl
        · exact finish_port _ _
      · exact finish_port _ _

theorem refused_port (session : Session S L) (id : Nat) (error : ApiError) :
    (session.refused reads id error).port = session.port := by
  unfold refused
  split
  · rfl
  · next method next htaken =>
      obtain ⟨-, rfl⟩ := taken_eq htaken
      split
      · split
        · exact finish_port _ _
        · rfl
        · rfl
      · exact finish_port _ _

/-- Receiving a frame asks for nothing but to attach, when welcomed. -/
theorem receive_port (reads : Frame S L R → Bool) (session : Session S L) (frame : Frame S L R) :
    (session.face = .waiting → frame = .welcome →
        (session.receive reads frame).port = session.port ++ [.call session.nextId .attach]) ∧
      (session.face ≠ .waiting → (session.receive reads frame).port = session.port) := by
  unfold receive
  cases hended : session.ended with
  | true =>
      refine ⟨?_, fun _ => rfl⟩
      intro hface
      rw [face_over hended] at hface
      cases hface
  | false =>
      cases hlimits : session.limits with
      | false =>
          refine ⟨?_, fun hface => absurd (face_waiting hended hlimits) hface⟩
          intro _ hframe
          rw [hframe]
          rfl
      | true =>
          refine ⟨?_, fun _ => ?_⟩
          · intro hface
            unfold face at hface
            rw [hended, hlimits] at hface
            cases hstate : session.state with
            | none => rw [hstate] at hface; cases hface
            | some state =>
                cases hlines : session.lines with
                | none => rw [hstate, hlines] at hface; cases hface
                | some lines => rw [hstate, hlines] at hface; cases hface
          · cases frame with
            | welcome => exact finish_port _ _
            | result id value => exact answer_port session id value
            | error id error => exact refused_port session id error
            | event event => exact publish_port session event
            | fault error =>
                show Session.port (if reads (.fault error) then _ else _) = _
                split
                · exact finish_port _ _
                · exact finish_port _ _

end Session

end Estoc.Daemon
