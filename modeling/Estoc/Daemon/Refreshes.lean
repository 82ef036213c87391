import Mathlib.Data.List.Nodup
import Estoc.Daemon.Covered

/-!
# Refreshes

Each promise the publisher makes, that a runtime is ready or that a refresh is answered, is
owed from when it is made until it is settled, and is settled once. A refresh is answered
where it is asked, or by the read that covers it, with the marker of the state published
then.
-/

set_option linter.unusedSectionVars false

namespace Estoc.Daemon

variable {S L E : Type}

/-! ## Promises -/

inductive Promised where
  | ready (runtime : Nat)
  | refresh (refresh : Nat)
deriving DecidableEq

def Effect.settles : Effect S L E → Option Promised
  | .ready runtime => some (.ready runtime)
  | .notReady runtime _ => some (.ready runtime)
  | .answered refresh _ => some (.refresh refresh)
  | .refused refresh _ => some (.refresh refresh)
  | _ => none

namespace Publisher

variable {p q r : Publisher S L E} {options : PublisherOptions L}

def settledOf (p : Publisher S L E) : List Promised := p.effects.filterMap Effect.settles

def openingOf : Option (Opened L) → List Promised
  | some opened => if opened.installed then [] else [.ready opened.runtime]
  | none => []

def owed (p : Publisher S L E) : List Promised :=
  openingOf p.opened ++ p.waiters.map fun waiter => .refresh waiter.refresh

def issued (p : Publisher S L E) : List Promised :=
  (List.range p.runtimes).map .ready ++ (List.range p.refreshes).map .refresh

/-- What is settled is owed no more, and nothing is forgotten. -/
structure Settles (p q : Publisher S L E) : Prop where
  counts : ∀ promise, q.settledOf.count promise + q.owed.count promise =
    p.settledOf.count promise + p.owed.count promise
  runtimes : q.runtimes = p.runtimes
  refreshes : q.refreshes = p.refreshes

theorem Settles.trans (h : Settles p q) (h' : Settles q r) : Settles p r where
  counts promise := (h'.counts promise).trans (h.counts promise)
  runtimes := h'.runtimes.trans h.runtimes
  refreshes := h'.refreshes.trans h.refreshes

theorem settles_refl : Settles p p := ⟨fun _ => rfl, rfl, rfl⟩

/-- Nothing is owed that was not, and no promise settled. -/
theorem Settles.after (h : Settles q r) (heffects : q.effects = p.effects) (howed : q.owed = p.owed)
    (hruntimes : q.runtimes = p.runtimes) (hrefreshes : q.refreshes = p.refreshes) : Settles p r where
  counts promise := by
    have hsettled : q.settledOf = p.settledOf := congrArg (List.filterMap Effect.settles) heffects
    rw [h.counts, hsettled, howed]
  runtimes := h.runtimes.trans hruntimes
  refreshes := h.refreshes.trans hrefreshes

theorem settledOf_does (effects : List (Effect S L E)) :
    (p.does effects).settledOf = p.settledOf ++ effects.filterMap Effect.settles :=
  List.filterMap_append

theorem settles_does {effects : List (Effect S L E)} (h : effects.filterMap Effect.settles = []) :
    Settles p (p.does effects) where
  counts promise := by
    rw [settledOf_does, h, List.append_nil]
    rfl
  runtimes := rfl
  refreshes := rfl

theorem settles_refuse (failure : Failure E) : Settles p (p.refuse failure) where
  counts promise := by
    have hrefused : (p.waiters.map fun waiter =>
        (.refused waiter.refresh failure : Effect S L E)).filterMap Effect.settles =
          p.waiters.map fun waiter => .refresh waiter.refresh := by
      rw [List.filterMap_map]
      exact congrFun List.filterMap_eq_map' p.waiters
    have hsettled : (p.refuse failure).settledOf =
        p.settledOf ++ p.waiters.map fun waiter => .refresh waiter.refresh := by
      rw [← hrefused]
      exact List.filterMap_append
    have howed : (p.refuse failure).owed = openingOf p.opened := List.append_nil _
    rw [hsettled, howed, owed, List.count_append, List.count_append]
    omega
  runtimes := rfl
  refreshes := rfl

theorem settles_abandon (why : Left) : Settles p (p.abandon why) := by
  unfold abandon
  split
  · exact settles_refl
  · next opened hopened =>
      split
      · next hinstalled =>
          refine (settles_refuse _).after rfl ?_ rfl rfl
          simp [owed, openingOf, hopened, hinstalled]
      · next hinstalled =>
          refine ⟨fun promise => ?_, rfl, rfl⟩
          rw [settledOf_does]
          simp only [settledOf, owed, openingOf, does, hopened, hinstalled, Effect.settles, List.count_append,
            List.filterMap_cons, List.filterMap_nil, List.nil_append, Bool.false_eq_true, if_false]
          omega

theorem settles_schedule : Settles p p.schedule := by
  obtain ⟨heq, -⟩ | ⟨opened, -, -, -, heq⟩ := schedule_cases p
  · rw [heq]
    exact settles_refl
  · rw [heq]
    exact (settles_does rfl).after rfl rfl rfl rfl

theorem settles_renew (value : StateValueOf S) : Settles p (p.renew options value) := by
  refine (settles_refuse .stateChanged).trans ?_
  exact (settles_does (p := { p.refuse .stateChanged with
    state := ⟨p.drawn, 1, value⟩
    linesState := ⟨p.drawn, 1, options.noLines⟩
    drawn := p.drawn + 1
    failure := none }) rfl).after rfl rfl rfl rfl

theorem settles_publishState (value : StateValueOf S) : Settles p (p.publishState options value) := by
  unfold publishState
  split
  · exact settles_renew value
  · exact (settles_does rfl).after rfl rfl rfl rfl

theorem settles_sayLines (value : L) : Settles p (p.sayLines value) :=
  (settles_does (p := { p with linesState := ⟨p.state.epoch, p.linesState.revision + 1, value⟩ })
    rfl).after rfl rfl rfl rfl

theorem settles_publishLines (value : L) : Settles p (p.publishLines options value) := by
  unfold publishLines
  split
  · exact (settles_renew _).trans (settles_sayLines value)
  · exact settles_sayLines value

theorem settles_answer : Settles p p.answer where
  counts promise := by
    have hanswered : ((p.waiters.filter fun waiter => waiter.target ≤ p.covered).map fun waiter =>
        (.answered waiter.refresh (markerOf p.state) : Effect S L E)).filterMap Effect.settles =
          (p.waiters.filter fun waiter => waiter.target ≤ p.covered).map
            fun waiter => .refresh waiter.refresh := by
      rw [List.filterMap_map]
      exact congrFun List.filterMap_eq_map' _
    have hsettled : p.answer.settledOf = p.settledOf ++
        (p.waiters.filter fun waiter => waiter.target ≤ p.covered).map
          fun waiter => .refresh waiter.refresh := by
      rw [← hanswered]
      exact List.filterMap_append
    have hwaiters := ((List.filter_append_perm (fun waiter : Waiter => decide (waiter.target ≤ p.covered))
      p.waiters).map fun waiter => Promised.refresh waiter.refresh).count_eq promise
    have hrest : (p.waiters.filter fun waiter => !decide (waiter.target ≤ p.covered)) =
        p.waiters.filter fun waiter => p.covered < waiter.target := by
      refine List.filter_congr fun waiter _ => ?_
      rw [← decide_not]
      exact decide_eq_decide.mpr Nat.not_le
    rw [hrest, List.map_append, List.count_append] at hwaiters
    rw [hsettled]
    simp only [owed, answer, does, List.count_append] at hwaiters ⊢
    omega
  runtimes := rfl
  refreshes := rfl

/-- Every promise made is settled or owed, once. -/
def Kept (p : Publisher S L E) : Prop :=
  ∀ promise, p.settledOf.count promise + p.owed.count promise = p.issued.count promise

theorem Kept.settles (hp : p.Kept) (h : Settles p q) : q.Kept := by
  intro promise
  rw [h.counts, hp promise, issued, issued, h.runtimes, h.refreshes]

theorem Kept.nodup (hp : p.Kept) : p.settledOf.Nodup := by
  have hissued : p.issued.Nodup := by
    refine List.nodup_append.mpr ⟨?_, ?_, ?_⟩
    · exact List.nodup_range.map fun _ _ h => Promised.ready.inj h
    · exact List.nodup_range.map fun _ _ h => Promised.refresh.inj h
    · intro promise hready promise' hrefresh heq
      obtain ⟨runtime, -, rfl⟩ := List.mem_map.mp hready
      obtain ⟨refresh, -, rfl⟩ := List.mem_map.mp hrefresh
      cases heq
  refine List.nodup_iff_count_le_one.mpr fun promise => ?_
  have hone := List.nodup_iff_count_le_one.mp hissued promise
  have hkept := hp promise
  omega

theorem kept_new (initial : NonOpenValue) : (new options initial : Publisher S L E).Kept := fun _ => rfl

theorem settles_set (value : NonOpenValue) : Settles p (p.set options value) := by
  have hleave : Settles p p.leave := settles_abandon .replaced
  unfold set
  split
  · split
    · split
      · exact hleave
      · exact hleave.trans (settles_publishState _)
    · exact hleave.trans (settles_renew _)
  · exact hleave.trans (settles_renew _)

theorem abandon_opened (p : Publisher S L E) (why : Left) : (p.abandon why).opened = none := by
  unfold abandon
  split
  · next hopened => exact hopened
  · split <;> rfl

theorem kept_opening (hp : p.Kept) (hold : Hold) :
    Kept { p.leave with opened := some ⟨p.runtimes, hold, false, none⟩, runtimes := p.runtimes + 1 } := by
  intro promise
  have hsettles : Settles p p.leave := settles_abandon .replaced
  have hleave := hp.settles hsettles promise
  have hopened : p.leave.opened = none := abandon_opened p .replaced
  simp only [owed, issued, openingOf, hopened, hsettles.runtimes, hsettles.refreshes, List.nil_append,
    settledOf, List.count_append, List.range_succ, List.map_append, List.map_cons, List.map_nil] at hleave ⊢
  simp only [Bool.false_eq_true, if_false]
  omega

theorem kept_waits (hp : p.Kept) :
    Kept { p with
      waiters := p.waiters ++ [⟨p.refreshes, p.changes⟩]
      refreshes := p.refreshes + 1 } := by
  intro promise
  have hkept := hp promise
  simp only [owed, issued, settledOf, List.count_append, List.range_succ, List.map_append,
    List.map_cons, List.map_nil] at hkept ⊢
  omega

theorem kept_answered (hp : p.Kept) :
    Kept (does { p with refreshes := p.refreshes + 1 } [.answered p.refreshes (markerOf p.state)]) := by
  intro promise
  have hkept := hp promise
  rw [settledOf_does]
  simp only [owed, issued, settledOf, does, Effect.settles, List.count_append, List.range_succ,
    List.map_append, List.map_cons, List.map_nil, List.filterMap_cons, List.filterMap_nil] at hkept ⊢
  omega

theorem settles_install {opened : Opened L} (hopened : p.opened = some opened)
    (hinstalled : opened.installed = false) (value : StateValueOf S) :
    Settles p (p.install options opened value) := by
  -- the promise is owed no more from here, and settled at the end
  have hshown {q : Publisher S L E} (h : Settles { p with opened := some { opened with installed := true } } q) :
      Settles p (q.does [.ready opened.runtime]) := by
    refine ⟨fun promise => ?_, h.runtimes, h.refreshes⟩
    have hcounts := h.counts promise
    rw [settledOf_does]
    simp only [settledOf, owed, openingOf, does, hopened, hinstalled, Effect.settles, List.count_append,
      List.filterMap_cons, List.filterMap_nil, List.nil_append, if_true, Bool.false_eq_true,
      if_false] at hcounts ⊢
    omega
  unfold install
  split
  · exact hshown ((settles_renew value).trans (settles_publishLines _))
  · exact hshown (settles_renew value)

theorem settles_publishRead (options : PublisherOptions L) {opened : Opened L} (hopened : p.opened = some opened) (snapshot : S) :
    Settles p (p.publishRead options opened snapshot) := by
  unfold publishRead
  split
  · exact settles_publishState _
  · next hinstalled => exact settles_install hopened (by simpa using hinstalled) _

theorem settles_covers (covering : Nat) : Settles p (p.covers covering) :=
  (settles_answer (p := { p with covered := covering, failure := none })).after rfl rfl rfl rfl

theorem settles_fails (covering : Nat) (error : E) : Settles p (p.fails covering error) := by
  have hrefuse : Settles p (refuse { p with failure := some (covering, error) } (.read error)) :=
    (settles_refuse _).after rfl rfl rfl rfl
  exact hrefuse.trans (settles_does rfl)

/-- The end of a read owes nothing and settles nothing. -/
theorem settles_settled (build : Option Build) : Settles p { p with build } :=
  ⟨fun _ => rfl, rfl, rfl⟩

theorem settles_captured (snapshot : S) : Settles p (p.captured options snapshot) := by
  obtain heq | ⟨build, hbuild, hsettled, heq | ⟨opened, hopened, hruntime, heq⟩⟩ :=
    captured_cases p options snapshot
  · rw [heq]
    exact settles_refl
  · rw [heq]
    exact settles_refl.after rfl rfl rfl rfl
  · rw [heq]
    have hread := settles_publishRead options
      (p := { p with build := some { build with settled := true } }) hopened snapshot
    exact ((settles_settled _).trans hread).trans (settles_covers _)

theorem settles_captureFailed (error : E) : Settles p (p.captureFailed error) := by
  obtain heq | ⟨build, hbuild, hsettled, heq | ⟨opened, hopened, hruntime, hshown⟩⟩ :=
    captureFailed_cases p error
  · rw [heq]
    exact settles_refl
  · rw [heq]
    exact settles_refl.after rfl rfl rfl rfl
  · obtain ⟨-, heq⟩ | ⟨hinstalled, heq⟩ := hshown
    · rw [heq]
      exact (settles_settled _).trans (settles_fails _ _)
    · rw [heq]
      refine ⟨fun promise => ?_, rfl, rfl⟩
      rw [settledOf_does]
      simp only [settledOf, owed, openingOf, does, hopened, hinstalled, Effect.settles, List.count_append,
        List.filterMap_cons, List.filterMap_nil, List.nil_append, Bool.false_eq_true, if_false]
      omega

/-- No promise is made but by opening a runtime and by asking for a refresh. -/
theorem settles_step {op : Op S L E} (hopen : ∀ hold, op ≠ .open hold) (hrefresh : op ≠ .refresh) :
    Settles p (p.step options op) := by
  cases op with
  | set value => exact settles_set value
  | «open» hold => exact absurd rfl (hopen hold)
  | close runtime =>
      show Settles p (p.close runtime)
      unfold close
      split
      · split
        · exact settles_abandon .closed
        · exact settles_refl
      · exact settles_refl
  | invalidate => exact settles_schedule.after rfl rfl rfl rfl
  | lines value =>
      show Settles p (p.lines options value)
      obtain ⟨-, heq⟩ | ⟨opened, hopened, ⟨-, heq⟩ | ⟨-, heq⟩⟩ := lines_cases p options value
      · rw [heq]
        exact settles_refl
      · rw [heq]
        exact settles_publishLines value
      · rw [heq]
        refine settles_refl.after rfl ?_ rfl rfl
        simp [owed, openingOf, hopened]
  | log line => exact settles_does rfl
  | refresh => exact absurd rfl hrefresh
  | cut => exact settles_settled _
  | captured snapshot => exact settles_captured snapshot
  | captureFailed error => exact settles_captureFailed error
  | built =>
      show Settles p p.built
      unfold built
      split
      · split
        · exact settles_schedule.after rfl rfl rfl rfl
        · exact settles_refl
      · exact settles_refl

theorem kept_refresh (hp : p.Kept) : p.refresh.Kept := by
  unfold refresh
  split
  · exact kept_answered hp
  · exact (kept_waits hp).settles settles_schedule

theorem kept_step (hp : p.Kept) (op : Op S L E) : (p.step options op).Kept := by
  cases op with
  | «open» hold => exact (kept_opening hp hold).settles settles_schedule
  | refresh => exact kept_refresh hp
  | _ => exact hp.settles (settles_step (by simp) (by simp))

/-- The number a refresh is asked under next. -/
theorem Kept.fresh (hp : p.Kept) :
    Promised.refresh p.refreshes ∉ p.settledOf ∧ Promised.refresh p.refreshes ∉ p.owed := by
  have hissued : Promised.refresh p.refreshes ∉ p.issued := by simp [issued]
  have hzero : p.issued.count (.refresh p.refreshes) = 0 := List.count_eq_zero.mpr hissued
  have hkept := hp (.refresh p.refreshes)
  refine ⟨List.count_eq_zero.mp ?_, List.count_eq_zero.mp ?_⟩
  · omega
  · omega

theorem Kept.unanswered (hp : p.Kept) (marker : RevisionMarker) :
    .answered p.refreshes marker ∉ p.effects := by
  intro hmem
  exact hp.fresh.1 (List.mem_filterMap.mpr ⟨_, hmem, rfl⟩)

theorem Kept.unasked (hp : p.Kept) : ∀ waiter ∈ p.waiters, waiter.refresh ≠ p.refreshes := by
  intro waiter hwaiter heq
  refine hp.fresh.2 (List.mem_append_right _ ?_)
  exact List.mem_map.mpr ⟨waiter, hwaiter, congrArg Promised.refresh heq⟩

theorem refreshes_step (op : Op S L E) : p.refreshes ≤ (p.step options op).refreshes := by
  cases op with
  | «open» hold =>
      have hleave : p.leave.refreshes = p.refreshes := (settles_abandon (p := p) .replaced).refreshes
      have hschedule := (settles_schedule (p := { p.leave with
        opened := some ⟨p.runtimes, hold, false, none⟩
        runtimes := p.runtimes + 1 })).refreshes
      exact (hschedule.trans hleave).ge
  | refresh =>
      show p.refreshes ≤ p.refresh.refreshes
      unfold refresh
      split
      · exact Nat.le_succ _
      · rw [settles_schedule.refreshes]
        exact Nat.le_succ _
  | _ => exact (settles_step (by simp) (by simp)).refreshes.ge

/-! ## Who waits -/

theorem schedule_waiters (p : Publisher S L E) : p.schedule.waiters = p.waiters := by
  obtain ⟨heq, -⟩ | ⟨opened, -, -, -, heq⟩ := schedule_cases p
  · rw [heq]
  · rw [heq]
    rfl

theorem Publishes.waiters (h : Publishes p q) : q.waiters ⊆ p.waiters := by
  obtain ⟨hsame, -⟩ | ⟨hnone, -⟩ := h.rest
  · rw [hsame]
    exact List.Subset.refl _
  · rw [hnone]
    exact List.nil_subset _

/-- Only a refresh waits that was asked. -/
theorem waiters_step (options : PublisherOptions L) (hp : p.Sound) {op : Op S L E} (hrefresh : op ≠ .refresh) :
    (p.step options op).waiters ⊆ p.waiters := by
  cases op with
  | set value =>
      have hnone : (p.step options (.set value)).waiters = [] := (set_spec options hp value).2.2
      rw [hnone]
      exact List.nil_subset _
  | «open» hold =>
      have hnone : (p.step options (.open hold)).waiters = [] :=
        (schedule_waiters _).trans (abandon_spec hp .replaced).2.1
      rw [hnone]
      exact List.nil_subset _
  | close runtime =>
      show (p.close runtime).waiters ⊆ p.waiters
      unfold close
      split
      · split
        · rw [(abandon_spec hp .closed).2.1]
          exact List.nil_subset _
        · exact List.Subset.refl _
      · exact List.Subset.refl _
  | invalidate =>
      rw [show (p.step options .invalidate).waiters = p.waiters from schedule_waiters _]
      exact List.Subset.refl _
  | lines value =>
      show (p.lines options value).waiters ⊆ p.waiters
      obtain ⟨-, heq⟩ | ⟨opened, -, ⟨-, heq⟩ | ⟨-, heq⟩⟩ := lines_cases p options value
      · rw [heq]
        exact List.Subset.refl _
      · rw [heq]
        exact (publishes_publishLines value).waiters
      · rw [heq]
        exact List.Subset.refl _
  | log line => exact List.Subset.refl _
  | refresh => exact absurd rfl hrefresh
  | cut => exact List.Subset.refl _
  | captured snapshot =>
      show (p.captured options snapshot).waiters ⊆ p.waiters
      obtain heq | ⟨build, hbuild, hsettled, heq | ⟨opened, hopened, hruntime, heq⟩⟩ :=
        captured_cases p options snapshot
      · rw [heq]
        exact List.Subset.refl _
      · rw [heq]
        exact List.Subset.refl _
      · rw [heq]
        obtain ⟨hread, -⟩ := publishRead_spec options
          (p := { p with build := some { build with settled := true } }) hopened snapshot
        exact List.Subset.trans (List.filter_subset_self _) hread.waiters
  | captureFailed error =>
      show (p.captureFailed error).waiters ⊆ p.waiters
      obtain heq | ⟨build, hbuild, hsettled, heq | ⟨opened, hopened, hruntime, hshown⟩⟩ :=
        captureFailed_cases p error
      · rw [heq]
        exact List.Subset.refl _
      · rw [heq]
        exact List.Subset.refl _
      · obtain ⟨-, heq⟩ | ⟨-, heq⟩ := hshown
        · rw [heq]
          exact List.nil_subset _
        · rw [heq]
          exact List.Subset.refl _
  | built =>
      show p.built.waiters ⊆ p.waiters
      unfold built
      split
      · split
        · rw [schedule_waiters]
          exact List.Subset.refl _
        · exact List.Subset.refl _
      · exact List.Subset.refl _

end Publisher

end Estoc.Daemon
