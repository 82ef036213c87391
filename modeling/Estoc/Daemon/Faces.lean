import Estoc.Daemon.Publications
import Estoc.Daemon.Session

/-!
# What a view makes of the frames on their way

A view is taken for the little that a frame changes of it: whether it waits for the welcome,
for its baseline, or shows a state and lines, or is over. The frames the port and the queue
hold are right for a view when each publication among them is newer than what the view shows
by then, and of the epoch shown.
-/

set_option linter.unusedSectionVars false

namespace Estoc.Daemon

variable {S L E R : Type}

inductive Face (S L : Type) where
  | waiting
  | greeted
  | shows (shown : BaselineOf S L)
  | over

def Newer (last next : RevisionMarker) : Prop :=
  last.epoch < next.epoch ∨ (last.epoch = next.epoch ∧ last.revision < next.revision)

theorem Newer.trans {a b c : RevisionMarker} (h : Newer a b) (h' : Newer b c) : Newer a c := by
  unfold Newer at *
  omega

theorem Next.newer {last next : RevisionMarker} (h : Next last next) : Newer last next := by
  unfold Next at h
  unfold Newer
  omega

def BaselineOf.heard (shown : BaselineOf S L) : Event S L → BaselineOf S L
  | .state state => { shown with state }
  | .lines lines => { shown with lines }
  | .log _ => shown

/-- An event as a view that shows this may hear it. -/
def BaselineOf.Hears (shown : BaselineOf S L) : Event S L → Prop
  | .state state => Newer (markerOf shown.state) (markerOf state)
  | .lines lines => lines.epoch = shown.state.epoch ∧ Newer shown.lines.marker lines.marker
  | .log line => line.epoch = shown.state.epoch

namespace Face

/-- The face a frame leaves; the attachment is the first call a view makes. -/
def after : Face S L → Frame S L R → Face S L
  | .over, _ => .over
  | .waiting, .welcome => .greeted
  | .waiting, _ => .over
  | .greeted, .result id value =>
    if id = 1 then
      match value with
      | .baseline baseline => .shows baseline
      | _ => .over
    else .greeted
  | .greeted, .error id _ => if id = 1 then .over else .greeted
  | .greeted, _ => .over
  | .shows shown, .event event => .shows (shown.heard event)
  | .shows shown, .result _ _ => .shows shown
  | .shows shown, .error _ _ => .shows shown
  | .shows _, _ => .over

/-- A frame as a view of this face may receive it. -/
def Takes : Face S L → Frame S L R → Prop
  | .waiting, .event _ => False
  | .greeted, .event _ => False
  | .greeted, .result _ (.baseline baseline) => baseline.state.epoch = baseline.lines.epoch
  | .shows shown, .event event => shown.Hears event
  | _, _ => True

def afterAll (face : Face S L) (frames : List (Frame S L R)) : Face S L := frames.foldl after face

def TakesAll : Face S L → List (Frame S L R) → Prop
  | _, [] => True
  | face, frame :: frames => face.Takes frame ∧ TakesAll (face.after frame) frames

variable {face : Face S L} {frames frames' : List (Frame S L R)}

theorem takesAll_append : face.TakesAll (frames ++ frames') ↔
    face.TakesAll frames ∧ (face.afterAll frames).TakesAll frames' := by
  induction frames generalizing face with
  | nil => simp [TakesAll, afterAll]
  | cons frame frames ih =>
      simp only [List.cons_append, TakesAll, ih, and_assoc]
      rfl

theorem afterAll_append : face.afterAll (frames ++ frames') = (face.afterAll frames).afterAll frames' :=
  List.foldl_append

theorem afterAll_over (frames : List (Frame S L R)) : (Face.over : Face S L).afterAll frames = .over := by
  induction frames with
  | nil => rfl
  | cons frame frames ih => exact ih

theorem over_not_shows (frames : List (Frame S L R)) (shown : BaselineOf S L) :
    (Face.over : Face S L).afterAll frames ≠ .shows shown := by
  rw [afterAll_over]
  intro h
  cases h

theorem takesAll_over (frames : List (Frame S L R)) : (Face.over : Face S L).TakesAll frames := by
  induction frames with
  | nil => exact trivial
  | cons frame frames ih => exact ⟨trivial, ih⟩

theorem takesAll_prefix (h : face.TakesAll frames) (hpre : frames' <+: frames) : face.TakesAll frames' := by
  obtain ⟨rest, rfl⟩ := hpre
  exact (takesAll_append.mp h).1

/-! ## Replies that could not be written -/

/-- A frame, or the error sent in place of a reply. -/
inductive Same : Frame S L R → Frame S L R → Prop
  | refl (frame : Frame S L R) : Same frame frame
  | marker (id : Nat) (marker : RevisionMarker) : Same (.result id (.marker marker)) (.error id unexpected)
  | other (id : Nat) (value : R) : Same (.result id (.other value)) (.error id unexpected)
  | error (id : Nat) (error : ApiError) : Same (.error id error) (.error id unexpected)

theorem Same.after {frame frame' : Frame S L R} (h : Same frame frame') (face : Face S L) :
    face.after frame' = face.after frame := by
  cases h with
  | refl => rfl
  | _ => cases face <;> rfl

theorem Same.takes {frame frame' : Frame S L R} (h : Same frame frame') (htakes : face.Takes frame) :
    face.Takes frame' := by
  cases h with
  | refl => exact htakes
  | _ => cases face <;> exact trivial

theorem takesAll_same (hsame : List.Forall₂ Same frames frames') (h : face.TakesAll frames) :
    face.TakesAll frames' ∧ face.afterAll frames' = face.afterAll frames := by
  induction hsame generalizing face with
  | nil => exact ⟨trivial, rfl⟩
  | cons hframe _ ih =>
      obtain ⟨htakes, hrest⟩ := h
      obtain ⟨htakesAll, hafter⟩ := ih hrest
      rw [← hframe.after] at htakesAll
      refine ⟨⟨hframe.takes htakes, htakesAll⟩, ?_⟩
      show (face.after _).afterAll _ = (face.after _).afterAll _
      rw [hframe.after]
      exact hafter

/-! ## Newer in place of older -/

/-- The same publication, or one newer. -/
def NotOlder (last next : RevisionMarker) : Prop := last = next ∨ Newer last next

theorem Newer.then {a b c : RevisionMarker} (h : Newer a b) (h' : NotOlder b c) : NotOlder a c := by
  obtain rfl | h' := h'
  · exact .inr h
  · exact .inr (h.trans h')

theorem NotOlder.then {a b c : RevisionMarker} (h : NotOlder a b) (h' : Newer b c) : Newer a c := by
  obtain rfl | h := h
  · exact h'
  · exact h.trans h'

theorem NotOlder.epoch {a b : RevisionMarker} (h : NotOlder a b) : a.epoch ≤ b.epoch := by
  obtain rfl | hlater | ⟨hsame, -⟩ := h
  · exact le_refl _
  · exact hlater.le
  · exact hsame.le

/-- Neither state nor lines grow older along what a view is told. -/
theorem shown_grows {shown last : BaselineOf S L} (h : (Face.shows shown).TakesAll frames)
    (hafter : (Face.shows shown).afterAll frames = .shows last) :
    NotOlder (markerOf shown.state) (markerOf last.state) ∧
      NotOlder shown.lines.marker last.lines.marker := by
  induction frames generalizing shown with
  | nil =>
      obtain rfl := Face.shows.inj hafter
      exact ⟨.inl rfl, .inl rfl⟩
  | cons frame frames ih =>
      obtain ⟨htakes, hrest⟩ := h
      cases frame with
      | event event =>
          have hrest : (Face.shows (shown.heard event)).TakesAll frames := hrest
          obtain ⟨hstate, hlines⟩ := ih hrest hafter
          cases event with
          | state state => exact ⟨Newer.then htakes hstate, hlines⟩
          | lines lines => exact ⟨hstate, Newer.then htakes.2 hlines⟩
          | log line => exact ⟨hstate, hlines⟩
      | result id value => exact ih hrest hafter
      | error id error => exact ih hrest hafter
      | welcome => exact absurd hafter (over_not_shows frames last)
      | fault error => exact absurd hafter (over_not_shows frames last)

theorem epochs_grow {shown last : BaselineOf S L} (h : (Face.shows shown).TakesAll frames)
    (hafter : (Face.shows shown).afterAll frames = .shows last) : shown.state.epoch ≤ last.state.epoch :=
  (shown_grows h hafter).1.epoch

/-- What an event replaces, of those on their way. -/
def keyOf : Frame S L R → Option Replaces
  | .event event => event.replaces
  | _ => none

/-- Where nothing newer of an epoch is behind it, a newer state of that epoch may be shown
already. -/
theorem takesAll_newer_state {shown last : BaselineOf S L} {state : StateOf S}
    (h : (Face.shows shown).TakesAll frames) (hafter : (Face.shows shown).afterAll frames = .shows last)
    (hsame : state.epoch = shown.state.epoch) (hlast : last.state.epoch = shown.state.epoch)
    (hkey : ∀ frame ∈ frames, keyOf frame ≠ some (.state shown.state.epoch)) :
    (Face.shows { shown with state }).TakesAll frames ∧
      (Face.shows { shown with state }).afterAll frames = .shows { last with state } := by
  induction frames generalizing shown with
  | nil =>
      obtain rfl := Face.shows.inj hafter
      exact ⟨trivial, rfl⟩
  | cons frame frames ih =>
      obtain ⟨htakes, hrest⟩ := h
      obtain ⟨hframe, hkeys⟩ := List.forall_mem_cons.mp hkey
      cases frame with
      | event event =>
          cases event with
          | state state' =>
              have hgrows := epochs_grow hrest hafter
              have hepoch : state'.epoch ≤ last.state.epoch := hgrows
              obtain hlater | ⟨hequal, -⟩ := htakes
              · exact absurd (lt_of_lt_of_le hlater hepoch) (by rw [hlast]; exact lt_irrefl _)
              · exact absurd (congrArg (fun epoch => some (Replaces.state epoch)) hequal.symm) hframe
          | lines lines =>
              obtain ⟨hlines, hnewer⟩ := htakes
              have hrest : (Face.shows { shown with lines }).TakesAll frames := hrest
              obtain ⟨htakesAll, heq⟩ := ih hrest hafter hsame hlast hkeys
              exact ⟨⟨⟨hlines.trans hsame.symm, hnewer⟩, htakesAll⟩, heq⟩
          | log line =>
              obtain ⟨htakesAll, heq⟩ := ih hrest hafter hsame hlast hkeys
              have hline : line.epoch = shown.state.epoch := htakes
              exact ⟨⟨hline.trans hsame.symm, htakesAll⟩, heq⟩
      | result id value =>
          obtain ⟨htakesAll, heq⟩ := ih hrest hafter hsame hlast hkeys
          exact ⟨⟨trivial, htakesAll⟩, heq⟩
      | error id error =>
          obtain ⟨htakesAll, heq⟩ := ih hrest hafter hsame hlast hkeys
          exact ⟨⟨trivial, htakesAll⟩, heq⟩
      | welcome => exact absurd hafter (over_not_shows frames last)
      | fault error => exact absurd hafter (over_not_shows frames last)

theorem takesAll_newer_lines {shown last : BaselineOf S L} {lines : LinesStateOf L}
    (h : (Face.shows shown).TakesAll frames) (hafter : (Face.shows shown).afterAll frames = .shows last)
    (hlast : last.state.epoch = shown.state.epoch)
    (hkey : ∀ frame ∈ frames, keyOf frame ≠ some (.lines shown.state.epoch)) :
    (Face.shows { shown with lines }).TakesAll frames ∧
      (Face.shows { shown with lines }).afterAll frames = .shows { last with lines } := by
  induction frames generalizing shown with
  | nil =>
      obtain rfl := Face.shows.inj hafter
      exact ⟨trivial, rfl⟩
  | cons frame frames ih =>
      obtain ⟨htakes, hrest⟩ := h
      obtain ⟨hframe, hkeys⟩ := List.forall_mem_cons.mp hkey
      cases frame with
      | event event =>
          cases event with
          | state state' =>
              have hgrows := epochs_grow hrest hafter
              have hepoch : state'.epoch = shown.state.epoch := by
                have hle : state'.epoch ≤ last.state.epoch := hgrows
                obtain hlater | ⟨hequal, -⟩ := htakes
                · have hlt : shown.state.epoch < state'.epoch := hlater
                  omega
                · exact hequal.symm
              have hrest : (Face.shows { shown with state := state' }).TakesAll frames := hrest
              obtain ⟨htakesAll, heq⟩ := ih hrest hafter
                (hlast.trans hepoch.symm) (by rw [hepoch]; exact hkeys)
              exact ⟨⟨htakes, htakesAll⟩, heq⟩
          | lines lines' =>
              exact absurd (congrArg (fun epoch => some (Replaces.lines epoch)) htakes.1) hframe
          | log line =>
              obtain ⟨htakesAll, heq⟩ := ih hrest hafter hlast hkeys
              exact ⟨⟨htakes, htakesAll⟩, heq⟩
      | result id value =>
          obtain ⟨htakesAll, heq⟩ := ih hrest hafter hlast hkeys
          exact ⟨⟨trivial, htakesAll⟩, heq⟩
      | error id error =>
          obtain ⟨htakesAll, heq⟩ := ih hrest hafter hlast hkeys
          exact ⟨⟨trivial, htakesAll⟩, heq⟩
      | welcome => exact absurd hafter (over_not_shows frames last)
      | fault error => exact absurd hafter (over_not_shows frames last)

end Face

end Estoc.Daemon
