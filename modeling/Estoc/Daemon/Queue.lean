import Estoc.Daemon.Faces

/-!
# What the queue keeps right

Handing a frame to the port changes nothing on the way to the view; a frame that cannot be
written is answered for in its place or ends the session behind what the port has taken.
Logs dropped are not missed, and a newer state or lines in the place of an older of its
epoch leaves a view where the older followed by the newer would.
-/

set_option linter.unusedSectionVars false

namespace Estoc.Daemon

variable {S L E R : Type}

/-! ## Entries -/

/-- An entry as the session makes them. -/
inductive Formed : Queued S L R → Prop
  | welcome : Formed .welcome
  | event (event : Event S L) : Formed (.event event)
  | baseline (id : Nat) (baseline : BaselineOf S L) : Formed (.result id (.baseline baseline) true)
  | marker (id : Nat) (marker : RevisionMarker) : Formed (.result id (.marker marker) false)
  | other (id : Nat) (value : R) : Formed (.result id (.other value) false)
  | error (id : Nat) (error : ApiError) : Formed (.error id error)
  | fault (error : ApiError) : Formed (.fault error)
  | unwritten (id : Nat) : Formed (.unwritten id)

theorem Formed.keyOf {entry : Queued S L R} (h : Formed entry) : Face.keyOf entry.frame = entry.replaces := by
  cases h <;> rfl

/-- A reply that cannot be written is no publication. -/
theorem Formed.same {entry : Queued S L R} (h : Formed entry) (hpublication : entry.publication = false)
    {id : Nat} (hid : entry.id = some id) : Face.Same entry.frame (Queued.unwritten id : Queued S L R).frame := by
  cases h with
  | marker id' marker =>
      obtain rfl := Option.some.inj hid
      exact .marker _ _
  | other id' value =>
      obtain rfl := Option.some.inj hid
      exact .other _ _
  | error id' error =>
      obtain rfl := Option.some.inj hid
      exact .error _ _
  | baseline id' baseline => cases hpublication
  | event event => cases hid
  | welcome => cases hid
  | fault error => cases hid
  | unwritten id' => cases hid

theorem Formed.replaces_state {entry : Queued S L R} (h : Formed entry) {epoch : Nat}
    (hreplaces : entry.replaces = some (.state epoch)) :
    ∃ state : StateOf S, entry.frame = .event (.state state) ∧ state.epoch = epoch := by
  cases h with
  | event event =>
      cases event with
      | state state => exact ⟨state, rfl, Replaces.state.inj (Option.some.inj hreplaces)⟩
      | lines lines => cases hreplaces
      | log line => cases hreplaces
  | _ => cases hreplaces

theorem Formed.replaces_lines {entry : Queued S L R} (h : Formed entry) {epoch : Nat}
    (hreplaces : entry.replaces = some (.lines epoch)) :
    ∃ lines : LinesStateOf L, entry.frame = .event (.lines lines) ∧ lines.epoch = epoch := by
  cases h with
  | event event =>
      cases event with
      | state state => cases hreplaces
      | lines lines => exact ⟨lines, rfl, Replaces.lines.inj (Option.some.inj hreplaces)⟩
      | log line => cases hreplaces
  | _ => cases hreplaces

theorem Formed.droppable {entry : Queued S L R} (h : Formed entry) (hdroppable : entry.droppable = true) :
    ∃ line, entry.frame = .event (.log line) := by
  cases h with
  | event event =>
      cases event with
      | log line => exact ⟨line, rfl⟩
      | state state => cases hdroppable
      | lines lines => cases hdroppable
  | _ => cases hdroppable

def keysOf (queue : List (Queued S L R)) : List Replaces := queue.filterMap (·.replaces)

/-- At most one entry for each that replaces another. -/
structure Tidy (queue : List (Queued S L R)) : Prop where
  formed : ∀ entry ∈ queue, Formed entry
  keys : (keysOf queue).Nodup

theorem Tidy.sublist {queue queue' : List (Queued S L R)} (h : Tidy queue) (hsub : queue'.Sublist queue) :
    Tidy queue' where
  formed entry hentry := h.formed entry (hsub.subset hentry)
  keys := h.keys.sublist (hsub.filterMap _)

theorem tidy_nil : Tidy ([] : List (Queued S L R)) := ⟨by simp, List.nodup_nil⟩

/-- An entry goes to the end, nothing there being replaced, or in the place of one it replaces. -/
theorem place_cases (entry : Queued S L R) (queue : List (Queued S L R)) :
    (entry.place queue = queue ++ [entry] ∧
        ∀ key, entry.replaces = some key → ∀ queued ∈ queue, queued.replaces ≠ some key) ∨
      ∃ front old rear key, queue = front ++ old :: rear ∧ entry.place queue = front ++ entry :: rear ∧
        entry.replaces = some key ∧ old.replaces = some key := by
  induction queue with
  | nil => exact .inl ⟨rfl, fun _ _ _ h => by cases h⟩
  | cons queued queue ih =>
      unfold Queued.place
      by_cases hreplaces : entry.replaces.isSome = true ∧ queued.replaces = entry.replaces
      · rw [if_pos hreplaces]
        obtain ⟨key, hkey⟩ := Option.isSome_iff_exists.mp hreplaces.1
        exact .inr ⟨[], queued, queue, key, rfl, rfl, hkey, hreplaces.2.trans hkey⟩
      · rw [if_neg hreplaces]
        obtain ⟨hplace, hnone⟩ | ⟨front, old, rear, key, hqueue, hplace, hkey, hold⟩ := ih
        · refine .inl ⟨congrArg (List.cons queued) hplace, ?_⟩
          intro key hkey
          refine List.forall_mem_cons.mpr ⟨?_, hnone key hkey⟩
          intro hqueued
          exact hreplaces ⟨by rw [hkey]; rfl, hqueued.trans hkey.symm⟩
        · exact .inr ⟨queued :: front, old, rear, key, congrArg (List.cons queued) hqueue,
            congrArg (List.cons queued) hplace, hkey, hold⟩

theorem Tidy.place {queue : List (Queued S L R)} (h : Tidy queue) {entry : Queued S L R}
    (hentry : Formed entry) : Tidy (entry.place queue) := by
  obtain ⟨hplace, hnone⟩ | ⟨front, old, rear, key, rfl, hplace, hkey, hold⟩ := place_cases entry queue
  · rw [hplace]
    refine ⟨?_, ?_⟩
    · intro queued hqueued
      obtain hqueued | hqueued := List.mem_append.mp hqueued
      · exact h.formed queued hqueued
      · exact List.mem_singleton.mp hqueued ▸ hentry
    · unfold keysOf
      rw [List.filterMap_append]
      refine List.nodup_append.mpr ⟨h.keys, ?_, ?_⟩
      · cases hkey : entry.replaces with
        | none =>
            rw [List.filterMap_cons_none hkey]
            exact List.nodup_nil
        | some key =>
            rw [List.filterMap_cons_some hkey]
            exact List.nodup_singleton key
      · intro key hfront key' hlast heq
        obtain ⟨queued, hqueued, hreplaces⟩ := List.mem_filterMap.mp hfront
        obtain ⟨last, hmem, hlastKey⟩ := List.mem_filterMap.mp hlast
        obtain rfl := List.mem_singleton.mp hmem
        exact hnone key' hlastKey queued hqueued (hreplaces.trans (congrArg some heq))
  · rw [hplace]
    refine ⟨?_, ?_⟩
    · intro queued hqueued
      obtain hqueued | hqueued := List.mem_append.mp hqueued
      · exact h.formed queued (List.mem_append_left _ hqueued)
      · obtain rfl | hqueued := List.mem_cons.mp hqueued
        · exact hentry
        · exact h.formed queued (List.mem_append_right _ (List.mem_cons_of_mem _ hqueued))
    · have hkeys := h.keys
      unfold keysOf at hkeys ⊢
      rw [List.filterMap_append, List.filterMap_cons_some hold] at hkeys
      rw [List.filterMap_append, List.filterMap_cons_some hkey]
      exact hkeys

/-! ## What is on the way -/

namespace Served

def framesOf (queue : List (Queued S L R)) : List (Frame S L R) := queue.map (·.frame)

/-- What the port has taken, and what is queued for it. -/
def frames (served : Served S L R) : List (Frame S L R) := served.port ++ framesOf served.queue

def Live (served : Served S L R) : Prop := served.closed = false ∧ served.ending = false

/-- Frames on the way that a view may be told in their order; while the session is live, a
view is left where the frames leave it. -/
def Brings (frames : List (Frame S L R)) (served : Served S L R) : Prop :=
  ∀ face : Face S L, face.TakesAll frames → face.TakesAll served.frames ∧
    (served.Live → face.afterAll served.frames = face.afterAll frames)

/-- Frames dropped from the end, and perhaps a fault said in their place. -/
theorem brings_cut {frames kept : List (Frame S L R)} {served : Served S L R} (hdead : ¬served.Live)
    (hpre : kept <+: frames) (hframes : served.frames = kept ∨ ∃ error, served.frames = kept ++ [.fault error]) :
    Brings frames served := by
  intro face htakes
  have hkept : face.TakesAll kept := Face.takesAll_prefix htakes hpre
  refine ⟨?_, fun hlive => absurd hlive hdead⟩
  obtain heq | ⟨error, heq⟩ := hframes
  · rw [heq]
    exact hkept
  · rw [heq]
    refine Face.takesAll_append.mpr ⟨hkept, ?_, trivial⟩
    cases face.afterAll kept <;> exact trivial

theorem brings_eq {frames : List (Frame S L R)} {served : Served S L R} (h : served.frames = frames) :
    Brings frames served := by
  intro face htakes
  rw [h]
  exact ⟨htakes, fun _ => rfl⟩

/-- What a session says when it cannot say what it had to. -/
def Excuse : Frame S L R → Prop
  | .error _ _ => True
  | .fault _ => True
  | _ => False

/-- One step of a session towards what it has to say, `frames`. -/
structure Steps (frames : List (Frame S L R)) (served next : Served S L R) : Prop where
  negotiated : next.negotiated = served.negotiated
  attached : next.attached = served.attached
  inFlight : next.inFlight = served.inFlight
  subscribed : next.subscribed = true → served.subscribed = true
  live : next.Live → served.Live ∧ next.subscribed = served.subscribed
  tidy : Tidy next.queue
  brings : Brings frames next
  origin : ∀ frame ∈ next.frames, frame ∈ frames ∨ Excuse frame

variable {options : ServeOptions S L R} {served : Served S L R}

theorem not_live_of_closed (h : served.closed = true) : ¬served.Live := by
  intro hlive
  rw [hlive.1] at h
  cases h

theorem close_spec (hclosed : served.closed = false) :
    served.close = { served with closed := true, queue := [], subscribed := false } := by
  unfold close finish
  rw [hclosed]
  rfl

/-- What the port has taken is still received when the session is closed. -/
theorem steps_closed {frames : List (Frame S L R)} (hpre : served.port <+: frames) :
    Steps frames served { served with closed := true, queue := [], subscribed := false } := by
  have hframes : Served.frames { served with closed := true, queue := [], subscribed := false } = served.port :=
    List.append_nil _
  refine ⟨rfl, rfl, rfl, ?_, ?_, tidy_nil, brings_cut (not_live_of_closed rfl) hpre (.inl hframes), ?_⟩
  · intro hsubscribed
    cases hsubscribed
  · intro hlive
    cases hlive.1
  · intro frame hframe
    rw [hframes] at hframe
    exact .inl (hpre.subset hframe)

theorem steps_close (served : Served S L R) (htidy : Tidy served.queue) {frames : List (Frame S L R)}
    (hframes : served.frames = frames ∨ (served.closed = false ∧ served.port <+: frames)) :
    Steps frames served served.close := by
  by_cases hclosed : served.closed = true
  · have heq : served.close = served := by
      unfold close finish
      rw [if_pos hclosed]
    rw [heq]
    obtain hframes | ⟨hopen, -⟩ := hframes
    · exact ⟨rfl, rfl, rfl, id, fun h => ⟨h, rfl⟩, htidy, brings_eq hframes, fun _ h => .inl (hframes ▸ h)⟩
    · rw [hclosed] at hopen
      cases hopen
  · have hopen : served.closed = false := by simpa using hclosed
    rw [close_spec hopen]
    have hpre : served.port <+: frames := by
      obtain hframes | ⟨-, hpre⟩ := hframes
      · rw [← hframes]
        exact List.prefix_append _ _
      · exact hpre
    exact steps_closed hpre

/-- A session that can say no more of an entry: it is sent, or the session is closed. -/
theorem steps_sendOrClose (options : ServeOptions S L R) (served : Served S L R)
    (entry : Queued S L R) {rest : List (Queued S L R)} (hopen : served.closed = false)
    (hrest : Tidy rest) {frames : List (Frame S L R)} (hpre : served.port <+: frames)
    (hbrings : Brings frames (served.send entry rest))
    (horigin : ∀ frame ∈ (served.send entry rest).frames, frame ∈ frames ∨ Excuse frame) :
    Steps frames served (served.sendOrClose options entry rest) := by
  unfold sendOrClose
  split
  · exact ⟨rfl, rfl, rfl, id, fun h => ⟨h, rfl⟩, hrest, hbrings, horigin⟩
  · rw [close_spec hopen]
    exact steps_closed hpre

theorem send_frames (entry : Queued S L R) (rest : List (Queued S L R)) :
    (served.send entry rest).frames = served.port ++ entry.frame :: framesOf rest := by
  unfold frames send
  rw [List.append_assoc]
  rfl

/-- An entry that cannot be written is answered for in its place, or ends the session behind
what the port has taken. -/
theorem steps_unwritable {next : Queued S L R} {rest : List (Queued S L R)} (hopen : served.closed = false)
    (hqueue : served.queue = next :: rest) (htidy : Tidy served.queue) :
    Steps served.frames served (served.unwritable options next rest) := by
  have hframes : served.frames = served.port ++ next.frame :: framesOf rest := by
    unfold frames
    rw [hqueue]
    rfl
  have hpre : served.port <+: served.frames := List.prefix_append _ _
  have hrest : Tidy rest := htidy.sublist (hqueue ▸ List.sublist_cons_self next rest)
  unfold unwritable
  split
  · have hdead : ¬Live (send { served with ending := true, queue := [] } (.fault unpublishable : Queued S L R) []) := by
      intro hlive
      cases hlive.2
    have hsteps := steps_sendOrClose options { served with ending := true, queue := [] }
      (.fault unpublishable) hopen tidy_nil hpre
      (brings_cut hdead hpre (.inr ⟨unpublishable, send_frames _ _⟩)) (by
        intro frame hframe
        rw [send_frames] at hframe
        obtain hframe | hframe := List.mem_append.mp hframe
        · exact .inl (hpre.subset hframe)
        · obtain rfl := List.mem_singleton.mp hframe
          exact .inr trivial)
    refine ⟨hsteps.negotiated, hsteps.attached, hsteps.inFlight, hsteps.subscribed, ?_, hsteps.tidy, hsteps.brings,
      hsteps.origin⟩
    intro hlive
    cases (hsteps.live hlive).1.2
  · next hpublication =>
      split
      · next id hid =>
          have hsame : List.Forall₂ Face.Same served.frames (served.send (.unwritten id) rest).frames := by
            rw [hframes, send_frames]
            refine List.rel_append (List.forall₂_same.mpr fun _ _ => .refl _) (.cons ?_ ?_)
            · refine (htidy.formed next ?_).same (by simpa using hpublication) hid
              rw [hqueue]
              exact List.mem_cons_self
            · exact List.forall₂_same.mpr fun _ _ => .refl _
          refine steps_sendOrClose options served _ hopen hrest hpre ?_ ?_
          · intro face htakes
            obtain ⟨htakesAll, hafter⟩ := Face.takesAll_same hsame htakes
            exact ⟨htakesAll, fun _ => hafter⟩
          · intro frame hframe
            rw [send_frames] at hframe
            rw [hframes]
            obtain hframe | hframe := List.mem_append.mp hframe
            · exact .inl (List.mem_append_left _ hframe)
            · obtain rfl | hframe := List.mem_cons.mp hframe
              · exact .inr trivial
              · exact .inl (List.mem_append_right _ (List.mem_cons_of_mem _ hframe))
      · exact steps_close served htidy (.inl rfl)

theorem steps_pump (options : ServeOptions S L R) (served : Served S L R) (htidy : Tidy served.queue) :
    Steps served.frames served (served.pump options) := by
  have hself : Steps served.frames served served :=
    ⟨rfl, rfl, rfl, id, fun h => ⟨h, rfl⟩, htidy, brings_eq rfl, fun _ h => .inl h⟩
  unfold pump
  split
  · exact hself
  · next hbusy =>
      have hopen : served.closed = false := by
        cases hclosed : served.closed
        · rfl
        · rw [hclosed, Bool.or_true] at hbusy
          exact absurd rfl hbusy
      split
      · exact hself
      · next next rest hqueue =>
          split
          · have hframes : (served.send next rest).frames = served.frames := by
              rw [send_frames]
              unfold frames
              rw [hqueue]
              rfl
            exact ⟨rfl, rfl, rfl, id, fun h => ⟨h, rfl⟩, htidy.sublist (hqueue ▸ List.sublist_cons_self next rest),
              brings_eq hframes, fun _ h => .inl (hframes ▸ h)⟩
          · exact steps_unwritable hopen hqueue htidy

/-- Logs dropped are not missed. -/
theorem takesAll_owed {face : Face S L} {queue : List (Queued S L R)} (hformed : ∀ entry ∈ queue, Formed entry)
    (h : face.TakesAll (framesOf queue)) :
    face.TakesAll (framesOf (queue.filter fun queued => !queued.droppable)) ∧
      face.afterAll (framesOf (queue.filter fun queued => !queued.droppable)) =
        face.afterAll (framesOf queue) := by
  induction queue generalizing face with
  | nil => exact ⟨trivial, rfl⟩
  | cons entry queue ih =>
      obtain ⟨hentry, hqueue⟩ := List.forall_mem_cons.mp hformed
      obtain ⟨htakes, hrest⟩ := h
      obtain ⟨htakesAll, hafter⟩ := ih hqueue hrest
      by_cases hdroppable : entry.droppable = true
      · rw [List.filter_cons_of_neg (by simpa using hdroppable)]
        obtain ⟨line, hline⟩ := hentry.droppable hdroppable
        simp only [hline] at htakes htakesAll hafter
        have hsame : face.after (.event (.log line) : Frame S L R) = face := by
          cases face with
          | waiting => exact htakes.elim
          | greeted => exact htakes.elim
          | shows shown => rfl
          | «over» => rfl
        rw [hsame] at htakesAll hafter
        refine ⟨htakesAll, hafter.trans ?_⟩
        show _ = (face.after entry.frame).afterAll _
        rw [hline, hsame]
        rfl
      · rw [List.filter_cons_of_pos (by simpa using hdroppable)]
        exact ⟨⟨htakes, htakesAll⟩, hafter⟩

theorem steps_enqueue (options : ServeOptions S L R) (served : Served S L R)
    (hlive : served.Live) (htidy : Tidy served.queue) {entry : Queued S L R}
    (hentry : Formed entry) :
    Steps (served.port ++ framesOf (entry.place served.queue)) served (served.enqueue options entry) := by
  have hplaced : Tidy (entry.place served.queue) := htidy.place hentry
  have hnot : ¬(served.closed || served.ending) = true := by
    rw [hlive.1, hlive.2]
    exact Bool.false_ne_true
  unfold enqueue
  rw [if_neg hnot]
  dsimp only
  split
  · have howed : Tidy ((entry.place served.queue).filter fun queued => !queued.droppable) :=
      hplaced.sublist List.filter_sublist
    split
    · exact steps_close served htidy (.inr ⟨hlive.1, List.prefix_append _ _⟩)
    · have hsteps := steps_pump options
        { served with queue := (entry.place served.queue).filter fun queued => !queued.droppable } howed
      refine ⟨hsteps.negotiated, hsteps.attached, hsteps.inFlight, hsteps.subscribed, hsteps.live, hsteps.tidy, ?_, ?_⟩
      · intro face htakes
        obtain ⟨hport, hqueue⟩ := Face.takesAll_append.mp htakes
        obtain ⟨htakesAll, hafter⟩ := takesAll_owed hplaced.formed hqueue
        obtain ⟨hbrings, hleft⟩ := hsteps.brings face (Face.takesAll_append.mpr ⟨hport, htakesAll⟩)
        refine ⟨hbrings, fun hlive => (hleft hlive).trans ?_⟩
        unfold frames
        rw [Face.afterAll_append, Face.afterAll_append, hafter]
      · intro frame hframe
        obtain hframe | hexcuse := hsteps.origin frame hframe
        · obtain hframe | hframe := List.mem_append.mp hframe
          · exact .inl (List.mem_append_left _ hframe)
          · have hsubset := (List.filter_sublist (l := entry.place served.queue)
              (p := fun queued => !queued.droppable)).map (·.frame)
            exact .inl (List.mem_append_right _ (hsubset.subset hframe))
        · exact .inr hexcuse
  · have hsteps := steps_pump options { served with queue := entry.place served.queue } hplaced
    exact ⟨hsteps.negotiated, hsteps.attached, hsteps.inFlight, hsteps.subscribed, hsteps.live, hsteps.tidy, hsteps.brings,
      hsteps.origin⟩

theorem enqueue_dead (hdead : ¬served.Live) (entry : Queued S L R) : served.enqueue options entry = served := by
  unfold enqueue
  refine if_pos ?_
  by_contra hnot
  refine hdead ⟨?_, ?_⟩
  · cases hclosed : served.closed
    · rfl
    · rw [hclosed] at hnot
      exact absurd rfl hnot
  · cases hending : served.ending
    · rfl
    · rw [hending, Bool.or_true] at hnot
      exact absurd rfl hnot

/-- A newer event placed in the queue leaves a view with it shown, wherever it goes. -/
theorem takesAll_place {face : Face S L} {port : List (Frame S L R)} {queue : List (Queued S L R)}
    (htidy : Tidy queue) {shown : BaselineOf S L} {event : Event S L}
    (htakes : face.TakesAll (port ++ framesOf queue))
    (hafter : face.afterAll (port ++ framesOf queue) = .shows shown) (hhears : shown.Hears event) :
    face.TakesAll (port ++ framesOf ((Queued.event event).place queue)) ∧
      face.afterAll (port ++ framesOf ((Queued.event event).place queue)) = .shows (shown.heard event) := by
  obtain ⟨hplace, -⟩ | ⟨front, old, rear, key, rfl, hplace, hkey, hold⟩ := place_cases (.event event) queue
  · have hframes : port ++ framesOf (queue ++ [Queued.event event]) =
        (port ++ framesOf queue) ++ [(.event event : Frame S L R)] := by
      unfold framesOf
      rw [List.map_append, List.append_assoc]
      rfl
    rw [hplace, hframes]
    refine ⟨Face.takesAll_append.mpr ⟨htakes, ?_, trivial⟩, ?_⟩
    · rw [hafter]
      exact hhears
    · rw [Face.afterAll_append, hafter]
      rfl
  · have hsplit (entry : Queued S L R) : port ++ framesOf (front ++ entry :: rear) =
        (port ++ framesOf front) ++ entry.frame :: framesOf rear := by
      unfold framesOf
      rw [List.map_append, List.append_assoc]
      rfl
    rw [hplace, hsplit]
    rw [hsplit] at htakes hafter
    obtain ⟨hfront, htakesOld, hrear⟩ := Face.takesAll_append.mp htakes
    rw [Face.afterAll_append] at hafter
    have hformed : Formed old := htidy.formed old (List.mem_append_right _ List.mem_cons_self)
    -- nothing behind it has the same key
    have hkeys : ∀ frame ∈ framesOf rear, Face.keyOf frame ≠ some key := by
      intro frame hframe
      obtain ⟨queued, hqueued, rfl⟩ := List.mem_map.mp hframe
      have hqueuedFormed : Formed queued :=
        htidy.formed queued (List.mem_append_right _ (List.mem_cons_of_mem _ hqueued))
      rw [hqueuedFormed.keyOf]
      intro hsame
      have hnodup := htidy.keys
      unfold keysOf at hnodup
      rw [List.filterMap_append, List.filterMap_cons_some hold] at hnodup
      exact (List.nodup_cons.mp (List.nodup_append.mp hnodup).2.1).1
        (List.mem_filterMap.mpr ⟨queued, hqueued, hsame⟩)
    have hgoal : ∀ last : BaselineOf S L, ∀ before : BaselineOf S L,
        face.afterAll (port ++ framesOf front) = .shows before → before.Hears event →
        (Face.shows (before.heard event)).TakesAll (framesOf rear) →
        (Face.shows (before.heard event)).afterAll (framesOf rear) = .shows last →
        face.TakesAll ((port ++ framesOf front) ++ (.event event : Frame S L R) :: framesOf rear) ∧
          face.afterAll ((port ++ framesOf front) ++ (.event event : Frame S L R) :: framesOf rear) =
            .shows last := by
      intro last before hbefore hhearsBefore htakesRear hafterRear
      refine ⟨Face.takesAll_append.mpr ⟨hfront, ?_⟩, ?_⟩
      · rw [hbefore]
        exact ⟨hhearsBefore, htakesRear⟩
      · rw [Face.afterAll_append, hbefore]
        exact hafterRear
    cases hbefore : face.afterAll (port ++ framesOf front) with
    | «over» =>
        rw [hbefore] at hafter
        exact absurd hafter (Face.over_not_shows (old.frame :: framesOf rear) shown)
    | waiting =>
        rw [hbefore] at htakesOld
        cases event with
        | state state =>
            obtain ⟨older, hframe, -⟩ := hformed.replaces_state (hold.trans hkey.symm)
            rw [hframe] at htakesOld
            exact htakesOld.elim
        | lines lines =>
            obtain ⟨older, hframe, -⟩ := hformed.replaces_lines (hold.trans hkey.symm)
            rw [hframe] at htakesOld
            exact htakesOld.elim
        | log line => cases hkey
    | greeted =>
        rw [hbefore] at htakesOld
        cases event with
        | state state =>
            obtain ⟨older, hframe, -⟩ := hformed.replaces_state (hold.trans hkey.symm)
            rw [hframe] at htakesOld
            exact htakesOld.elim
        | lines lines =>
            obtain ⟨older, hframe, -⟩ := hformed.replaces_lines (hold.trans hkey.symm)
            rw [hframe] at htakesOld
            exact htakesOld.elim
        | log line => cases hkey
    | shows before =>
        rw [hbefore] at htakesOld hrear hafter
        cases event with
        | state state =>
            obtain ⟨older, hframe, hepoch⟩ := hformed.replaces_state (hold.trans hkey.symm)
            rw [hframe] at htakesOld hrear hafter
            obtain ⟨hgrows, -⟩ := Face.shown_grows hrear hafter
            have hlast : shown.state.epoch = older.epoch := by
              have hle : older.epoch ≤ shown.state.epoch := hgrows.epoch
              obtain hlater | ⟨hsame, -⟩ := hhears
              · have hlt : shown.state.epoch < state.epoch := hlater
                omega
              · exact hsame.trans hepoch.symm
            have hkeyOf : ∀ frame ∈ framesOf rear, Face.keyOf frame ≠ some (.state older.epoch) := by
              rw [hepoch]
              rw [← Option.some.inj hkey] at hkeys
              exact hkeys
            obtain ⟨htakesRear, hafterRear⟩ := Face.takesAll_newer_state hrear hafter
              hepoch.symm hlast hkeyOf
            exact hgoal _ before hbefore (Newer.trans htakesOld (hgrows.then hhears)) htakesRear hafterRear
        | lines lines =>
            obtain ⟨older, hframe, hepoch⟩ := hformed.replaces_lines (hold.trans hkey.symm)
            rw [hframe] at htakesOld hrear hafter
            obtain ⟨-, hgrows⟩ := Face.shown_grows hrear hafter
            have hbeforeEpoch : lines.epoch = before.state.epoch := hepoch.symm.trans htakesOld.1
            have hkeyOf : ∀ frame ∈ framesOf rear, Face.keyOf frame ≠ some (.lines before.state.epoch) := by
              rw [← hbeforeEpoch]
              rw [← Option.some.inj hkey] at hkeys
              exact hkeys
            obtain ⟨htakesRear, hafterRear⟩ := Face.takesAll_newer_lines hrear hafter
              (hhears.1.symm.trans hbeforeEpoch) hkeyOf
            exact hgoal _ before hbefore ⟨hbeforeEpoch, Newer.trans htakesOld.2 (hgrows.then hhears.2)⟩
              htakesRear hafterRear
        | log line => cases hkey

/-! ## The session's own steps -/

theorem tidy_fault {queue : List (Queued S L R)} (h : Tidy queue) (error : ApiError) :
    Tidy (queue ++ [.fault error]) where
  formed entry hentry := by
    obtain hentry | hentry := List.mem_append.mp hentry
    · exact h.formed entry hentry
    · exact List.mem_singleton.mp hentry ▸ .fault error
  keys := by
    unfold keysOf
    rw [List.filterMap_append]
    exact (List.append_nil _).symm ▸ h.keys

theorem fault_dead (served : Served S L R) (htidy : Tidy served.queue) (error : ApiError) :
    ¬(served.fault options error).Live := by
  unfold fault
  split
  · next hdead =>
      intro hlive
      rw [hlive.1, hlive.2] at hdead
      cases hdead
  · have hsteps := steps_pump options
      { served with ending := true, queue := served.queue ++ [.fault error] } (tidy_fault htidy error)
    intro hlive
    cases (hsteps.live hlive).1.2

/-- A fault is the last there is to say. -/
theorem steps_fault (options : ServeOptions S L R) (served : Served S L R) (htidy : Tidy served.queue)
    (error : ApiError) :
    Steps served.frames served (served.fault options error) := by
  have hdead : ¬(served.fault options error).Live := fault_dead served htidy error
  unfold fault at hdead ⊢
  split at hdead
  · next hwas =>
      rw [if_pos hwas]
      exact ⟨rfl, rfl, rfl, id, fun h => ⟨h, rfl⟩, htidy, brings_eq rfl, fun _ h => .inl h⟩
  · next hwas =>
    rw [if_neg hwas]
    unfold endWith at hdead ⊢
    have hsteps := steps_pump options
      { served with ending := true, queue := served.queue ++ [.fault error] } (tidy_fault htidy error)
    have hframes : Served.frames { served with ending := true, queue := served.queue ++ [.fault error] } =
        served.frames ++ [.fault error] := by
      unfold frames framesOf
      rw [List.map_append, List.append_assoc]
      rfl
    refine ⟨hsteps.negotiated, hsteps.attached, hsteps.inFlight, hsteps.subscribed, fun hlive => absurd hlive hdead,
      hsteps.tidy, ?_, ?_⟩
    · intro face htakes
      refine ⟨(hsteps.brings face ?_).1, fun hlive => absurd hlive hdead⟩
      rw [hframes]
      refine Face.takesAll_append.mpr ⟨htakes, ?_, trivial⟩
      cases face.afterAll served.frames <;> exact trivial
    · intro frame hframe
      obtain hframe | hexcuse := hsteps.origin frame hframe
      · rw [hframes] at hframe
        obtain hframe | hframe := List.mem_append.mp hframe
        · exact .inl hframe
        · obtain rfl := List.mem_singleton.mp hframe
          exact .inr trivial
      · exact .inr hexcuse

theorem steps_sent (served : Served S L R) (htidy : Tidy served.queue) :
    Steps served.frames served (served.sent options) := by
  unfold sent
  split
  · split
    · have hsteps := steps_close { served with writing := none } htidy (.inl rfl)
      exact ⟨hsteps.negotiated, hsteps.attached, hsteps.inFlight, hsteps.subscribed, hsteps.live, hsteps.tidy,
        hsteps.brings, hsteps.origin⟩
    · have hsteps := steps_pump options { served with writing := none } htidy
      exact ⟨hsteps.negotiated, hsteps.attached, hsteps.inFlight, hsteps.subscribed, hsteps.live, hsteps.tidy,
        hsteps.brings, hsteps.origin⟩
  · exact ⟨rfl, rfl, rfl, id, fun h => ⟨h, rfl⟩, htidy, brings_eq rfl, fun _ h => .inl h⟩

/-- An entry that replaces nothing goes behind all there is to say. -/
theorem steps_append (options : ServeOptions S L R) (served : Served S L R)
    (hlive : served.Live) (htidy : Tidy served.queue) {entry : Queued S L R}
    (hentry : Formed entry) (hreplaces : entry.replaces = none) :
    Steps (served.frames ++ [entry.frame]) served (served.enqueue options entry) := by
  have hsteps := steps_enqueue options served hlive htidy hentry
  obtain ⟨hplace, -⟩ | ⟨front, old, rear, key, hqueue, hplace, hkey, hold⟩ := place_cases entry served.queue
  · have hframes : served.port ++ framesOf (served.queue ++ [entry]) = served.frames ++ [entry.frame] := by
      unfold frames framesOf
      rw [List.map_append, List.append_assoc]
      rfl
    rw [hplace, hframes] at hsteps
    exact hsteps
  · rw [hreplaces] at hkey
    cases hkey

end Served

end Estoc.Daemon
