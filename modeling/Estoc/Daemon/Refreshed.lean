import Estoc.Daemon.Answers

/-!
# Every run of the publisher

What holds of the publisher after any list of calls, cuts and ends of reads.
-/

set_option linter.unusedSectionVars false

namespace Estoc.Daemon

variable {S L E : Type}

namespace Publisher

variable {p q : Publisher (Captured S) L E} {options : PublisherOptions L} {initial : NonOpenValue}

/-- The state and lines the publisher starts with. -/
def baseline (options : PublisherOptions L) (initial : NonOpenValue) : BaselineOf (Captured S) L :=
  ⟨⟨0, 1, .nonOpen initial⟩, ⟨0, 1, options.noLines⟩⟩

theorem run_snoc (before : List (Op S L E)) (op : Op S L E) :
    run options initial (before ++ [op]) = (run options initial before).next options op :=
  List.foldl_concat _ _ _ _

theorem run_append (before after : List (Op S L E)) :
    run options initial (before ++ after) = after.foldl (next options) (run options initial before) :=
  List.foldl_append

/-- What holds at first and is kept by every step holds after every run. -/
theorem run_keeps {P : Publisher (Captured S) L E → Prop} (hnew : P (new options initial))
    (hnext : ∀ p op, P p → P (p.next options op)) (ops : List (Op S L E)) : P (run options initial ops) := by
  induction ops using List.reverseRecOn with
  | nil => exact hnew
  | append_singleton ops op ih =>
      rw [run_snoc]
      exact hnext _ op ih

theorem run_sound (ops : List (Op S L E)) : (run options initial ops).Sound :=
  run_keeps (sound_new initial) (fun _ _ h => sound_step h _) ops

theorem run_shown (ops : List (Op S L E)) : (run options initial ops).Shown := by
  have hboth : (run options initial ops).Sound ∧ (run options initial ops).Shown := by
    refine run_keeps (P := fun p => p.Sound ∧ p.Shown) ⟨sound_new initial, shown_of_none rfl⟩ ?_ ops
    intro p op h
    exact ⟨sound_step h.1 _, shown_next options h.1 h.2 op⟩
  exact hboth.2

theorem run_kept (ops : List (Op S L E)) : (run options initial ops).Kept :=
  run_keeps (kept_new initial) (fun _ _ h => kept_step h _) ops

theorem run_since (ops : List (Op S L E)) :
    Since (new options initial) (run options initial ops) (run options initial ops).effects := by
  refine run_keeps (P := fun p => Since (new options initial) p p.effects) ?_ ?_ ops
  · exact ⟨rfl, trivial, rfl, level_new initial⟩
  · intro p op h
    obtain ⟨effects, hsince⟩ := tells_step options (op.map p.mark) h.level
    have htrans := h.trans hsince
    rw [← hsince.did] at htrans
    exact htrans

/-! ## Answers -/

/-- A state that a refresh may be answered by: of the epoch named, not past the revision
named, read off the runtime after so many changes. -/
def CoversAt (state : StateOf (Captured S)) (marker : RevisionMarker) (changes : Nat) : Prop :=
  state.epoch = marker.epoch ∧ state.revision ≤ marker.revision ∧
    ∃ hold snapshot, state.value = .opened hold snapshot ∧ changes ≤ snapshot.covering

/-- Each answer to a refresh is given when such a state has been published. -/
def AnsweredIn (start : BaselineOf (Captured S) L) (refresh changes : Nat)
    (effects : List (Effect (Captured S) L E)) : Prop :=
  ∀ before marker after, effects = before ++ .answered refresh marker :: after →
    ∃ state ∈ statesOf start before, CoversAt state marker changes

variable {start : BaselineOf (Captured S) L} {refresh changes : Nat}

theorem answeredIn_append {effects effects' : List (Effect (Captured S) L E)}
    (h : AnsweredIn start refresh changes effects)
    (h' : ∀ marker, .answered refresh marker ∈ effects' →
      ∃ state ∈ statesOf start effects, CoversAt state marker changes) :
    AnsweredIn start refresh changes (effects ++ effects') := by
  intro before marker after heq
  obtain ⟨middle, hbefore, hafter⟩ | ⟨middle, hbefore, hafter⟩ := List.append_eq_append_iff.mp heq
  · -- the answer is among those given last
    have hmem : .answered refresh marker ∈ effects' := by
      rw [hafter]
      exact List.mem_append_right _ List.mem_cons_self
    obtain ⟨state, hstate, hcovers⟩ := h' marker hmem
    refine ⟨state, ?_, hcovers⟩
    rw [hbefore, statesOf, List.filterMap_append, ← List.cons_append]
    exact List.mem_append_left _ hstate
  · cases middle with
    | nil =>
        have hmem : .answered refresh marker ∈ effects' := by
          rw [List.nil_append] at hafter
          rw [← hafter]
          exact List.mem_cons_self
        obtain ⟨state, hstate, hcovers⟩ := h' marker hmem
        rw [List.append_nil] at hbefore
        exact ⟨state, hbefore ▸ hstate, hcovers⟩
    | cons effect middle =>
        obtain ⟨heffect, -⟩ := List.cons.inj hafter
        exact h before marker middle (by rw [hbefore, heffect])

theorem answeredIn_mute (h : AnsweredIn start refresh changes p.effects)
    (hadds : Adds (fun effect => effect.answer = none) p q) : AnsweredIn start refresh changes q.effects := by
  obtain ⟨effects, heq, hnone⟩ := hadds
  rw [heq]
  refine answeredIn_append h ?_
  intro marker hmem
  cases hnone _ hmem

/-- Those who wait wait for what they asked, and the refresh was answered, if it was, as it
should be. -/
structure Answers (start : BaselineOf (Captured S) L) (refresh changes : Nat)
    (p : Publisher (Captured S) L E) : Prop where
  asked : refresh < p.refreshes
  waits : ∀ waiter ∈ p.waiters, waiter.refresh = refresh → changes ≤ waiter.target
  answered : AnsweredIn start refresh changes p.effects

theorem mute_step {op : Op (Captured S) L E} (hrefresh : op ≠ .refresh)
    (hcaptured : ∀ snapshot, op ≠ .captured snapshot) :
    Adds (fun effect => effect.answer = none) p (p.step options op) := by
  have hrest : ∀ effect : Effect (Captured S) L E, effect.stateOf = none → effect.answer = none →
      effect.answer = none := fun _ _ h => h
  cases op with
  | set value => exact adds_set hrest value fun _ _ => rfl
  | lines value =>
      show Adds _ p (p.lines options value)
      obtain ⟨-, heq⟩ | ⟨opened, -, ⟨-, heq⟩ | ⟨-, heq⟩⟩ := lines_cases p options value
      · rw [heq]
        exact adds_of_eq rfl
      · rw [heq]
        exact adds_publishLines hrest (fun _ _ => rfl) rfl value
      · rw [heq]
        exact adds_of_eq rfl
  | refresh => exact absurd rfl hrefresh
  | captured snapshot => exact absurd rfl (hcaptured snapshot)
  | _ => exact adds_silent hrest rfl

/-- A read that ends answers those it covers, with the state it published. -/
theorem answers_captured (hsince : Since (new options initial) p p.effects)
    (h : Answers (baseline options initial) refresh changes p) (snapshot : S) :
    AnsweredIn (baseline options initial) refresh changes (p.captured options (p.mark snapshot)).effects := by
  obtain heq | ⟨build, hbuild, hsettled, heq | ⟨opened, hopened, hruntime, heq⟩⟩ :=
    captured_cases p options (p.mark snapshot)
  · rw [heq]
    exact h.answered
  · rw [heq]
    exact h.answered
  · rw [heq]
    obtain ⟨hread, hvalue⟩ := publishRead_spec options
      (p := { p with build := some { build with settled := true } }) hopened (p.mark snapshot)
    have htells := tells_publishRead options
      (p := { p with build := some { build with settled := true } }) opened (p.mark snapshot)
    have hadds := adds_publishRead options (P := fun effect => effect.answer = none)
      (p := { p with build := some { build with settled := true } }) (fun _ _ h => h) opened
      (p.mark snapshot) (fun _ _ => rfl)
    generalize publishRead options { p with build := some { build with settled := true } } opened
      (p.mark snapshot) = read at hread hvalue htells hadds ⊢
    obtain ⟨effects, hthen⟩ := htells ⟨hsince.level.drawn, hsince.level.epochs⟩
    have hstate : read.state ∈ statesOf (baseline options initial) read.effects := by
      have hcurrent : read.current = (p.effects ++ effects).foldl .told (baseline options initial) := by
        rw [hthen.current, List.foldl_append]
        exact congrArg (List.foldl .told · effects) hsince.current
      rw [hthen.did, show read.state = read.current.state from rfl, hcurrent]
      exact told_state _ _
    refine answeredIn_append (answeredIn_mute h.answered hadds) ?_
    intro marker hmem
    obtain ⟨waiter, hwaiter, hanswer⟩ := List.mem_map.mp hmem
    obtain ⟨rfl, rfl⟩ := Effect.answered.inj hanswer
    obtain ⟨hwaits, htarget⟩ := List.mem_filter.mp hwaiter
    have hchanges : changes ≤ waiter.target := h.waits waiter (hread.waiters hwaits) rfl
    have hmark : (p.mark snapshot).covering = build.covering := by
      unfold mark
      rw [hbuild]
    refine ⟨read.state, hstate, rfl, le_refl _, opened.hold, p.mark snapshot, hvalue, ?_⟩
    rw [hmark]
    exact hchanges.trans (of_decide_eq_true htarget)

theorem answers_next (hs : p.Sound) (hsince : Since (new options initial) p p.effects)
    (h : Answers (baseline options initial) refresh changes p) (op : Op S L E) :
    Answers (baseline options initial) refresh changes (p.next options op) := by
  have hasked : refresh < (p.next options op).refreshes := lt_of_lt_of_le h.asked (refreshes_step _)
  cases op with
  | refresh =>
      show Answers _ _ _ p.refresh
      refine ⟨hasked, ?_, ?_⟩
      · unfold Publisher.refresh
        split
        · exact h.waits
        · rw [schedule_waiters]
          intro waiter hwaiter hrefresh
          obtain hwaiter | hwaiter := List.mem_append.mp hwaiter
          · exact h.waits waiter hwaiter hrefresh
          · obtain rfl := List.mem_singleton.mp hwaiter
            exact absurd hrefresh (Nat.ne_of_gt h.asked)
      · unfold Publisher.refresh
        split
        · -- the answer given at once is to another refresh
          refine answeredIn_append h.answered ?_
          intro marker hmem
          have heq := Effect.answered.inj (List.mem_singleton.mp hmem)
          exact absurd heq.1 (Nat.ne_of_lt h.asked)
        · exact answeredIn_mute (q := schedule _) h.answered
            ((adds_schedule (fun _ _ h => h)).after rfl)
  | captured snapshot =>
      refine ⟨hasked, ?_, answers_captured hsince h snapshot⟩
      intro waiter hwaiter
      have hrefresh : Op.captured (p.mark snapshot) ≠ (.refresh : Op (Captured S) L E) := by simp
      exact h.waits waiter (waiters_step options hs hrefresh hwaiter)
  | _ =>
      refine ⟨hasked, ?_, answeredIn_mute h.answered (mute_step (by simp [Op.map]) (by simp [Op.map]))⟩
      intro waiter hwaiter
      exact h.waits waiter (waiters_step options hs (by simp [Op.map]) hwaiter)

/-- A refresh asked while a runtime is shown. -/
theorem answers_asked (hshown : p.Shown) (hkept : p.Kept)
    (hsince : Since (new options initial) p p.effects) (hinstalled : p.installed = true) :
    Answers (baseline options initial) p.refreshes p.changes p.refresh := by
  have hnone : AnsweredIn (baseline options initial) p.refreshes p.changes p.effects := by
    intro before marker after heq
    refine absurd ?_ (hkept.unanswered marker)
    rw [heq]
    exact List.mem_append_right _ List.mem_cons_self
  unfold Publisher.refresh
  split
  · next hcovered =>
      refine ⟨Nat.lt_succ_self _, ?_, answeredIn_append hnone ?_⟩
      · intro waiter hwaiter hrefresh
        exact absurd hrefresh (hkept.unasked waiter hwaiter)
      · intro marker hmem
        obtain ⟨-, rfl⟩ := Effect.answered.inj (List.mem_singleton.mp hmem)
        have hstate : p.state ∈ statesOf (baseline options initial) p.effects := by
          rw [show p.state = p.current.state from rfl, hsince.current]
          exact told_state _ _
        obtain ⟨opened, hopened, hopenedInstalled⟩ := (Option.any_eq_true _ _).mp hinstalled
        obtain ⟨snapshot, hvalue, -, hcovering⟩ := hshown opened hopened hopenedInstalled
        refine ⟨p.state, hstate, rfl, le_refl _, opened.hold, snapshot, hvalue, ?_⟩
        rw [hcovering]
        exact hcovered.resolve_left (by simp [hinstalled])
  · refine ⟨?_, ?_, answeredIn_mute (q := schedule _) hnone ((adds_schedule (fun _ _ h => h)).after rfl)⟩
    · rw [settles_schedule.refreshes]
      exact Nat.lt_succ_self _
    · rw [schedule_waiters]
      intro waiter hwaiter hrefresh
      obtain hwaiter | hwaiter := List.mem_append.mp hwaiter
      · exact absurd hrefresh (hkept.unasked waiter hwaiter)
      · obtain rfl := List.mem_singleton.mp hwaiter
        exact le_refl _

/-! ## What is published -/

/-- Whatever else a step does, an open state it publishes is a snapshot of the runtime shown
when it is done. -/
def OfShown (q : Publisher (Captured S) L E) (effect : Effect (Captured S) L E) : Prop :=
  ∀ state hold snapshot, effect = .state state → state.value = .opened hold snapshot →
    ∃ opened, q.opened = some opened ∧ opened.installed = true ∧ opened.hold = hold ∧
      opened.runtime = snapshot.runtime

theorem ofShown_rest (q : Publisher (Captured S) L E) {effect : Effect (Captured S) L E}
    (h : effect.stateOf = none) : OfShown q effect := by
  intro state hold snapshot heq
  rw [heq] at h
  cases h

theorem ofShown_of_value {value : StateValueOf (Captured S)} (hshown : q.Shown) {opened : Opened L}
    (hopened : q.opened = some opened) (hinstalled : opened.installed = true)
    (hvalue : q.state.value = value) (state : StateOf (Captured S)) (hstate : state.value = value) :
    OfShown q (.state state) := by
  intro state' hold snapshot heq hopen
  obtain rfl := Effect.state.inj heq
  obtain ⟨snapshot', hsnapshot', hruntime, -⟩ := hshown opened hopened hinstalled
  rw [hvalue, ← hstate, hopen] at hsnapshot'
  obtain ⟨hhold, rfl⟩ := StateValueOf.opened.inj hsnapshot'
  exact ⟨opened, hopened, hinstalled, hhold.symm, hruntime.symm⟩

theorem ofShown_next (hs : p.Sound) (hp : p.Shown) (op : Op S L E) :
    Adds (OfShown (p.next options op)) p (p.next options op) := by
  have hshown : (p.next options op).Shown := shown_next options hs hp op
  have hrest : ∀ effect : Effect (Captured S) L E, effect.stateOf = none → effect.answer = none →
      OfShown (p.next options op) effect := fun _ h _ => ofShown_rest _ h
  cases op with
  | set value =>
      refine adds_set hrest value fun state hstate => ?_
      intro state' hold snapshot heq hopen
      obtain rfl := Effect.state.inj heq
      rw [hstate] at hopen
      cases hopen
  | lines value =>
      have heq : p.next options (.lines value) = p.lines options value := rfl
      rw [heq] at hshown hrest ⊢
      obtain ⟨-, heq⟩ | ⟨opened, hopened, ⟨hinstalled, heq⟩ | ⟨-, heq⟩⟩ := lines_cases p options value
      · rw [heq]
        exact adds_of_eq rfl
      · rw [heq] at hshown hrest ⊢
        have hpublishes : Publishes p (p.publishLines options value) := publishes_publishLines value
        have hopen := ofShown_of_value hshown (hpublishes.opened.trans hopened) hinstalled
          (publishLines_value value)
        exact adds_publishLines hrest hopen rfl value
      · rw [heq]
        exact adds_of_eq rfl
  | refresh =>
      show Adds (OfShown p.refresh) p p.refresh
      unfold Publisher.refresh
      split
      · exact ⟨_, rfl, List.forall_mem_singleton.mpr (ofShown_rest _ rfl)⟩
      · exact (adds_schedule fun _ h _ => ofShown_rest _ h).after rfl
  | captured snapshot =>
      have heq : p.next options (.captured snapshot) = p.captured options (p.mark snapshot) := rfl
      rw [heq] at hshown ⊢
      obtain heq | ⟨build, hbuild, hsettled, heq | ⟨opened, hopened, hruntime, heq⟩⟩ :=
        captured_cases p options (p.mark snapshot)
      · rw [heq]
        exact adds_of_eq rfl
      · rw [heq]
        exact adds_of_eq rfl
      · rw [heq] at hshown ⊢
        obtain ⟨hread, hvalue⟩ := publishRead_spec options
          (p := { p with build := some { build with settled := true } }) hopened (p.mark snapshot)
        have hopen := ofShown_of_value hshown (hread.opened : _ = some opened.shown) rfl hvalue
        have hadds := adds_publishRead options (p := { p with build := some { build with settled := true } })
          (fun _ h _ => ofShown_rest _ h) opened (p.mark snapshot) hopen
        refine Adds.trans (hadds.after rfl) ⟨_, rfl, ?_⟩
        intro effect heffect
        obtain ⟨waiter, -, rfl⟩ := List.mem_map.mp heffect
        exact ofShown_rest _ rfl
  | _ => exact adds_silent hrest rfl

/-! ## Every run -/

/-- With no read under way no refresh waits, and the snapshot published covers every change,
or a failure stands that would have, or no runtime is shown. -/
def AtRest (p : Publisher (Captured S) L E) : Prop :=
  p.build = none → p.waiters = [] ∧ (p.opened = none ∨
    (∃ hold snapshot, p.state.value = .opened hold snapshot ∧ p.changes ≤ snapshot.covering) ∨
    ∃ failure ∈ p.failure, p.changes ≤ failure.1)

theorem Rests.atRest (hp : p.Rests) (hshown : p.Shown) : p.AtRest := by
  intro hnone
  obtain ⟨hwaiters, hopened⟩ := hp hnone
  refine ⟨hwaiters, ?_⟩
  cases hsome : p.opened with
  | none => exact .inl rfl
  | some opened =>
      obtain ⟨hinstalled, hcovered | hfailure⟩ := hopened opened hsome
      · obtain ⟨snapshot, hvalue, -, hcovering⟩ := hshown opened hsome hinstalled
        exact .inr (.inl ⟨opened.hold, snapshot, hvalue, by rw [hcovering]; exact hcovered⟩)
      · exact .inr (.inr hfailure)

theorem rests_run (ops : List (Op S L E))
    (hkeeps : ∀ before op after, ops = before ++ op :: after →
      ¬Forgets options (run options initial before : Publisher (Captured S) L E) op) :
    (run options initial ops : Publisher (Captured S) L E).Rests := by
  induction ops using List.reverseRecOn with
  | nil => exact rests_of_none rfl rfl
  | append_singleton ops op ih =>
      rw [run_snoc]
      refine rests_step (run_sound ops) (ih ?_) _ ?_
      · intro before op' after heq
        exact hkeeps before op' (after ++ [op]) (by rw [heq, List.append_assoc]; rfl)
      · have hlast := hkeeps ops op [] rfl
        cases op with
        | lines value => exact hlast
        | _ => exact not_false

/-- The step that forgets a failure leaves changes that nothing covers and nothing answers for. -/
theorem forgets_not_atRest (before : List (Op S L E)) {op : Op S L E}
    (hforgets : Forgets options (run options initial before : Publisher (Captured S) L E) op) :
    ¬(run options initial (before ++ [op]) : Publisher (Captured S) L E).AtRest := by
  rw [run_snoc]
  have hsound : (run options initial before : Publisher (Captured S) L E).Sound := run_sound before
  have hshown := shown_next options hsound (run_shown before) op
  have hforgets' : Forgets options (run options initial before : Publisher (Captured S) L E)
      (op.map (run options initial before).mark) := by
    cases op with
    | lines value => exact hforgets
    | _ => exact hforgets.elim
  obtain ⟨opened, hbuild, hopened, hinstalled, hfailure, hcovered⟩ := forgets_step hsound hforgets'
  intro hrest
  obtain ⟨-, hnone | ⟨hold, snapshot, hvalue, hcovering⟩ | ⟨failure, hsome, -⟩⟩ := hrest hbuild
  · rw [show (next options _ op).opened = some opened from hopened] at hnone
    cases hnone
  · obtain ⟨snapshot', hvalue', -, hcovering'⟩ := hshown opened hopened hinstalled
    rw [hvalue'] at hvalue
    obtain ⟨-, rfl⟩ := StateValueOf.opened.inj hvalue
    rw [hcovering'] at hcovering
    exact absurd hcovering (Nat.not_le_of_lt hcovered)
  · rw [show (next options _ op).failure = none from hfailure] at hsome
    cases hsome

/-- In every run: a refresh asked while a runtime is shown is answered, if it is, when a
snapshot that covers it stands published in the epoch and at the revision named or before;
an open state published is a snapshot of the runtime then shown; epochs are not taken up
again and the revisions in each are 1, 2, 3 and so on, of the state and of the lines, which
have the state's epoch; and no promise is settled twice. Nothing is left waiting or
uncovered with no read under way, exactly as long as no lines are said past the last
revision of an epoch over a failure that stands. -/
theorem publisher_covers (options : PublisherOptions L) (initial : NonOpenValue) (ops : List (Op S L E)) :
    let effects := (run options initial ops : Publisher (Captured S) L E).effects
    (∀ before after, ops = before ++ .refresh :: after →
      (run options initial before : Publisher (Captured S) L E).installed = true →
      AnsweredIn (baseline options initial)
        (run options initial before : Publisher (Captured S) L E).refreshes
        (run options initial before : Publisher (Captured S) L E).changes effects) ∧
    (∀ before op after, ops = before ++ op :: after →
      Adds (OfShown (run options initial (before ++ [op])))
        (run options initial before : Publisher (Captured S) L E) (run options initial (before ++ [op]))) ∧
    (Counted ((statesOf (baseline options initial) effects).map markerOf) ∧
      Counted ((linesStatesOf (baseline options initial) effects).map LinesStateOf.marker) ∧
      ∀ before lines after, effects = before ++ .lines lines :: after →
        lines.epoch = (before.foldl .told (baseline options initial)).state.epoch) ∧
    (effects.filterMap Effect.settles).Nodup ∧
    ((∀ before after, ops = before ++ after →
        (run options initial before : Publisher (Captured S) L E).AtRest) ↔
      ∀ before op after, ops = before ++ op :: after →
        ¬Forgets options (run options initial before : Publisher (Captured S) L E) op) := by
  intro effects
  have hsince : Since (new options initial) (run options initial ops) effects := run_since ops
  refine ⟨?_, ?_, ⟨?_, ?_, ?_⟩, (run_kept ops).nodup, ?_, ?_⟩
  · intro before after heq hinstalled
    have hbefore : Since (new options initial) (run options initial before) _ := run_since before
    have hasked := answers_asked (run_shown before) (run_kept before) hbefore hinstalled
    have hrun : ∀ (later : List (Op S L E)),
        Answers (baseline options initial) (run options initial before : Publisher (Captured S) L E).refreshes
          (run options initial before : Publisher (Captured S) L E).changes
          (run options initial ((before ++ [.refresh]) ++ later)) := by
      intro later
      induction later using List.reverseRecOn with
      | nil =>
          rw [List.append_nil, run_snoc]
          exact hasked
      | append_singleton later op ih =>
          rw [← List.append_assoc, run_snoc]
          exact answers_next (run_sound _) (run_since _) ih op
    have hall := (hrun after).answered
    rw [List.append_assoc, List.singleton_append, ← heq] at hall
    exact hall
  · intro before op after _
    rw [run_snoc]
    exact ofShown_next (run_sound before) (run_shown before) op
  · exact counted_of_chain rfl (inOrder_states hsince.inOrder)
  · exact counted_of_chain rfl (inOrder_lines hsince.inOrder)
  · intro before lines after heq
    have hinOrder := hsince.inOrder
    rw [heq] at hinOrder
    exact (inOrder_append.mp hinOrder).2.1.1
  · intro hrest before op after heq hforgets
    refine forgets_not_atRest before hforgets (hrest (before ++ [op]) after ?_)
    rw [heq, List.append_assoc]
    rfl
  · intro hkeeps before after heq
    refine (rests_run before ?_).atRest (run_shown before)
    intro before' op after' heq'
    exact hkeeps before' op (after' ++ after) (by rw [heq, heq', List.append_assoc]; rfl)

/-- A runtime is read and shown; it changes, and the read made then fails; the lines said
next are those past the last revision. -/
def staleThenLines : List (Op Nat Nat Nat) :=
  [.open [], .captured 0, .built, .invalidate, .captureFailed 1, .built, .lines 1, .lines 2]

/-- The failure is forgotten by the fresh epoch: the change is neither covered nor answered for. -/
theorem lines_forget_a_failure :
    ¬(run ⟨0, 2⟩ ⟨.booting, none, none⟩ staleThenLines : Publisher (Captured Nat) Nat Nat).AtRest := by
  have hforgets : Forgets ⟨0, 2⟩
      (run ⟨0, 2⟩ ⟨.booting, none, none⟩ (staleThenLines.take 7) : Publisher (Captured Nat) Nat Nat)
      (.lines 2 : Op Nat Nat Nat) := by
    refine ⟨?_, ?_, ?_, ?_⟩ <;> decide
  exact forgets_not_atRest (staleThenLines.take 7) hforgets

end Publisher

end Estoc.Daemon
