import Mathlib.Data.List.Count
import Estoc.Daemon.Publications

/-!
# What a refresh covers

A read covers the changes counted when its cut began. While a runtime is shown, the count
of what is covered is that of the snapshot published, a refresh waits for more than that,
and a read under way will cover more; so the first read to answer a refresh covers it. A
publication by itself leaves all of this as it was, save that a fresh epoch refuses whoever
waits and forgets the failure that stood.
-/

set_option linter.unusedSectionVars false

namespace Estoc.Daemon

variable {S T L E : Type}

/-- A runtime, its first read published. -/
def Opened.shown (opened : Opened L) : Opened L := { opened with installed := true }

namespace Publisher

variable {p q r : Publisher S L E} {options : PublisherOptions L}

/-! ## A publication -/

/-- Only what is published differs; or else no refresh waits any more and no failure stands. -/
structure Publishes (p q : Publisher S L E) : Prop where
  changes : q.changes = p.changes
  covered : q.covered = p.covered
  opened : q.opened = p.opened
  build : q.build = p.build
  rest : (q.waiters = p.waiters ∧ q.failure = p.failure) ∨ (q.waiters = [] ∧ q.failure = none)

theorem Publishes.trans (h : Publishes p q) (h' : Publishes q r) : Publishes p r where
  changes := h'.changes.trans h.changes
  covered := h'.covered.trans h.covered
  opened := h'.opened.trans h.opened
  build := h'.build.trans h.build
  rest := by
    obtain ⟨hwaiters', hfailure'⟩ | hnone := h'.rest
    · rw [hwaiters', hfailure']
      exact h.rest
    · exact .inr hnone

theorem publishes_does (effects : List (Effect S L E)) : Publishes p (p.does effects) :=
  ⟨rfl, rfl, rfl, rfl, .inl ⟨rfl, rfl⟩⟩

theorem publishes_renew (value : StateValueOf S) : Publishes p (p.renew options value) :=
  ⟨rfl, rfl, rfl, rfl, .inr ⟨rfl, rfl⟩⟩

theorem publishes_sayLines (value : L) : Publishes p (p.sayLines value) :=
  ⟨rfl, rfl, rfl, rfl, .inl ⟨rfl, rfl⟩⟩

theorem publishes_publishState (value : StateValueOf S) : Publishes p (p.publishState options value) := by
  unfold publishState
  split
  · exact publishes_renew value
  · exact ⟨rfl, rfl, rfl, rfl, .inl ⟨rfl, rfl⟩⟩

theorem publishes_publishLines (value : L) : Publishes p (p.publishLines options value) := by
  unfold publishLines
  split
  · exact (publishes_renew _).trans (publishes_sayLines value)
  · exact publishes_sayLines value

theorem publishState_value (value : StateValueOf S) : (p.publishState options value).state.value = value := by
  unfold publishState
  split <;> rfl

theorem publishLines_value (value : L) : (p.publishLines options value).state.value = p.state.value := by
  unfold publishLines
  split <;> rfl

/-- Once a snapshot read of a runtime is published, the runtime is shown with it. -/
theorem publishRead_spec (options : PublisherOptions L) {opened : Opened L} (hopened : p.opened = some opened) (snapshot : S) :
    Publishes { p with opened := some opened.shown } (p.publishRead options opened snapshot) ∧
      (p.publishRead options opened snapshot).state.value = .opened opened.hold snapshot := by
  unfold publishRead
  split
  · next hinstalled =>
      have hsame : { p with opened := some opened.shown } = p := by
        have hshown : opened.shown = opened := by
          unfold Opened.shown
          rw [← hinstalled]
        rw [hshown, ← hopened]
      rw [hsame]
      exact ⟨publishes_publishState _, publishState_value _⟩
  · unfold install
    split
    · exact ⟨((publishes_renew _).trans (publishes_publishLines _)).trans (publishes_does _),
        publishLines_value _⟩
    · exact ⟨(publishes_renew _).trans (publishes_does _), rfl⟩

/-! ## What is counted -/

structure Sound (p : Publisher S L E) : Prop where
  waiting : p.installed = false → p.waiters = []
  targets : ∀ waiter ∈ p.waiters, p.covered < waiter.target ∧ waiter.target ≤ p.changes
  reads : ∀ build, p.build = some build → build.settled = false → build.covering ≤ p.changes ∧
    ∀ opened, p.opened = some opened → opened.runtime = build.runtime → opened.installed = true →
      p.covered < build.covering
  stale : p.failure.isSome = true → p.installed = true → p.covered < p.changes

theorem installed_of {opened : Opened L} (hopened : p.opened = some opened) :
    p.installed = opened.installed := by
  unfold installed
  rw [hopened]
  rfl

theorem not_installed (hopened : p.opened = none) : p.installed = false := by
  unfold installed
  rw [hopened]
  rfl

theorem sound_new (initial : NonOpenValue) : (new options initial : Publisher S L E).Sound where
  waiting _ := rfl
  targets := by simp [new]
  reads := by simp [new]
  stale := by simp [new]

theorem Sound.publishes (hp : p.Sound) (h : Publishes p q) : q.Sound := by
  have hinstalled : q.installed = p.installed := by
    unfold installed
    rw [h.opened]
  refine ⟨?_, ?_, ?_, ?_⟩
  · intro hnot
    obtain ⟨hwaiters, -⟩ | ⟨hwaiters, -⟩ := h.rest
    · exact hwaiters.trans (hp.waiting (hinstalled.symm.trans hnot))
    · exact hwaiters
  · intro waiter hwaiter
    rw [h.covered, h.changes]
    obtain ⟨hwaiters, -⟩ | ⟨hwaiters, -⟩ := h.rest
    · exact hp.targets waiter (hwaiters ▸ hwaiter)
    · rw [hwaiters] at hwaiter
      cases hwaiter
  · rw [h.build, h.changes, h.covered, h.opened]
    exact hp.reads
  · rw [h.changes, h.covered, hinstalled]
    intro hfailure
    obtain ⟨-, hsame⟩ | ⟨-, hnone⟩ := h.rest
    · exact hp.stale (hsame ▸ hfailure)
    · rw [hnone] at hfailure
      cases hfailure

/-- A runtime that is left takes those who wait for it along. -/
theorem abandon_spec (hp : p.Sound) (why : Left) :
    (p.abandon why).opened = none ∧ (p.abandon why).waiters = [] ∧
      (p.abandon why).changes = p.changes ∧ (p.abandon why).build = p.build := by
  unfold abandon
  split
  · next hopened => exact ⟨hopened, hp.waiting (not_installed hopened), rfl, rfl⟩
  · next opened hopened =>
      split
      · exact ⟨rfl, rfl, rfl, rfl⟩
      · next hinstalled =>
          have hnot : p.installed = false := (installed_of hopened).trans (by simpa using hinstalled)
          exact ⟨rfl, hp.waiting hnot, rfl, rfl⟩

/-- Where no runtime is shown nothing waits, and only the count of changes matters. -/
theorem sound_of_none (hp : p.Sound) (hopened : q.opened = none) (hwaiters : q.waiters = [])
    (hchanges : q.changes = p.changes) (hbuild : q.build = p.build) : q.Sound where
  waiting _ := hwaiters
  targets waiter hwaiter := by
    rw [hwaiters] at hwaiter
    cases hwaiter
  reads build hsome hsettled := by
    refine ⟨?_, ?_⟩
    · rw [hchanges]
      exact (hp.reads build (hbuild.symm.trans hsome) hsettled).1
    · intro opened hsome
      rw [hopened] at hsome
      cases hsome
  stale _ hinstalled := by
    rw [not_installed hopened] at hinstalled
    cases hinstalled

theorem sound_abandon (hp : p.Sound) (why : Left) : (p.abandon why).Sound := by
  obtain ⟨hopened, hwaiters, hchanges, hbuild⟩ := abandon_spec hp why
  exact sound_of_none hp hopened hwaiters hchanges hbuild

/-- Whether a read is due, or one is made because a refresh asks. -/
theorem schedule_cases (p : Publisher S L E) :
    (p.schedule = p ∧ (p.build = none → ∀ opened, p.opened = some opened →
      opened.installed = true ∧ (p.changes ≤ p.covered ∨
        (∃ failure ∈ p.failure, p.changes ≤ failure.1) ∧ p.waiters = []))) ∨
    ∃ opened, p.opened = some opened ∧ p.build = none ∧
      (opened.installed = true → p.covered < p.changes) ∧
      p.schedule = does { p with build := some ⟨opened.runtime, p.changes, false⟩ } [.capture opened.runtime] := by
  unfold schedule
  split
  · next opened hbuild hopened =>
      split
      · next hdone =>
          refine .inl ⟨rfl, fun _ opened' hopened' => ?_⟩
          obtain rfl := Option.some.inj (hopened.symm.trans hopened')
          exact hdone
      · next hdue =>
          refine .inr ⟨opened, hopened, hbuild, ?_, rfl⟩
          intro hinstalled
          by_contra hcovered
          exact hdue ⟨hinstalled, .inl (Nat.le_of_not_lt hcovered)⟩
  · next hnot =>
      refine .inl ⟨rfl, fun hbuild opened hopened => ?_⟩
      exact absurd hopened (hnot opened hbuild)

theorem sound_schedule (hp : p.Sound) : p.schedule.Sound := by
  obtain ⟨heq, -⟩ | ⟨opened, hopened, hbuild, hdue, heq⟩ := schedule_cases p
  · rw [heq]
    exact hp
  · rw [heq]
    refine ⟨hp.waiting, hp.targets, ?_, hp.stale⟩
    intro build hsome _
    obtain rfl := Option.some.inj hsome
    refine ⟨le_refl _, ?_⟩
    intro opened' hopened' _ hinstalled
    obtain rfl := Option.some.inj (hopened.symm.trans hopened')
    exact hdue hinstalled

/-! ## At rest -/

/-- With no read under way nothing waits, and what changed is covered, or a failure stands
for it, or no runtime is shown. -/
def Rests (p : Publisher S L E) : Prop :=
  p.build = none → p.waiters = [] ∧ ∀ opened, p.opened = some opened →
    opened.installed = true ∧ (p.changes ≤ p.covered ∨ ∃ failure ∈ p.failure, p.changes ≤ failure.1)

theorem rests_schedule (hp : p.Sound) : p.schedule.Rests := by
  intro hnone
  obtain ⟨heq, hdone⟩ | ⟨opened, hopened, hbuild, hdue, heq⟩ := schedule_cases p
  · rw [heq] at hnone ⊢
    have hdone := hdone hnone
    refine ⟨?_, ?_⟩
    · cases hopened : p.opened with
      | none => exact hp.waiting (not_installed hopened)
      | some opened =>
          obtain ⟨-, hcovered | ⟨-, hwaiters⟩⟩ := hdone opened hopened
          · refine List.eq_nil_iff_forall_not_mem.mpr fun waiter hwaiter => ?_
            have htarget := hp.targets waiter hwaiter
            omega
          · exact hwaiters
    · intro opened hopened
      obtain ⟨hinstalled, hcovered | ⟨hfailure, -⟩⟩ := hdone opened hopened
      · exact ⟨hinstalled, .inl hcovered⟩
      · exact ⟨hinstalled, .inr hfailure⟩
  · rw [heq] at hnone
    cases hnone

theorem rests_of_none (hopened : q.opened = none) (hwaiters : q.waiters = []) : q.Rests := by
  intro _
  refine ⟨hwaiters, ?_⟩
  intro opened hsome
  rw [hopened] at hsome
  cases hsome

theorem rests_reading {build : Build} (hbuild : q.build = some build) : q.Rests := by
  intro hnone
  rw [hbuild] at hnone
  cases hnone

/-! ## One step -/

theorem set_spec (options : PublisherOptions L) (hp : p.Sound) (value : NonOpenValue) :
    (p.set options value).Sound ∧ (p.set options value).opened = none ∧ (p.set options value).waiters = [] := by
  obtain ⟨hopened, hwaiters, -, -⟩ := abandon_spec hp .replaced
  have hleave : p.leave.Sound := sound_abandon hp .replaced
  have hpublishes {q : Publisher S L E} (h : Publishes p.leave q) :
      q.Sound ∧ q.opened = none ∧ q.waiters = [] := by
    refine ⟨hleave.publishes h, h.opened.trans hopened, ?_⟩
    obtain ⟨hsame, -⟩ | ⟨hnone, -⟩ := h.rest
    · exact hsame.trans hwaiters
    · exact hnone
  unfold set
  split
  · split
    · split
      · exact ⟨hleave, hopened, hwaiters⟩
      · exact hpublishes (publishes_publishState _)
    · exact hpublishes (publishes_renew _)
  · exact hpublishes (publishes_renew _)

/-- The runtime being opened, before a read of it is begun. -/
theorem sound_opening (hp : p.Sound) (hold : Hold) :
    Sound { p.leave with opened := some ⟨p.runtimes, hold, false, none⟩, runtimes := p.runtimes + 1 } := by
  obtain ⟨-, hwaiters, -, -⟩ := abandon_spec hp .replaced
  have hleave : p.leave.Sound := sound_abandon hp .replaced
  refine ⟨fun _ => hwaiters, hleave.targets, ?_, ?_⟩
  · intro build hbuild hsettled
    refine ⟨(hleave.reads build hbuild hsettled).1, ?_⟩
    intro opened hopened _ hinstalled
    obtain rfl := Option.some.inj hopened
    cases hinstalled
  · intro _ hinstalled
    cases hinstalled

theorem sound_changed (hp : p.Sound) : Sound { p with changes := p.changes + 1 } where
  waiting := hp.waiting
  targets waiter hwaiter := by
    obtain ⟨hcovered, hchanges⟩ := hp.targets waiter hwaiter
    exact ⟨hcovered, Nat.le_succ_of_le hchanges⟩
  reads build hbuild hsettled := by
    obtain ⟨hchanges, hcovered⟩ := hp.reads build hbuild hsettled
    exact ⟨Nat.le_succ_of_le hchanges, hcovered⟩
  stale hfailure hinstalled := Nat.lt_succ_of_lt (hp.stale hfailure hinstalled)

/-- A refresh that is not answered at once. -/
theorem waits_of (h : ¬(p.installed = false ∨ p.changes ≤ p.covered)) :
    p.installed = true ∧ p.covered < p.changes := by
  obtain ⟨hinstalled, hcovered⟩ := not_or.mp h
  exact ⟨by simpa using hinstalled, Nat.lt_of_not_le hcovered⟩

theorem sound_waits (hp : p.Sound) (hinstalled : p.installed = true) (hcovered : p.covered < p.changes) :
    Sound { p with
      waiters := p.waiters ++ [⟨p.refreshes, p.changes⟩]
      refreshes := p.refreshes + 1 } where
  waiting hnot := by
    have hsame : p.installed = false := hnot
    rw [hinstalled] at hsame
    cases hsame
  targets waiter hwaiter := by
    obtain hwaiter | hwaiter := List.mem_append.mp hwaiter
    · exact hp.targets waiter hwaiter
    · obtain rfl := List.mem_singleton.mp hwaiter
      exact ⟨hcovered, le_refl _⟩
  reads := hp.reads
  stale := hp.stale

theorem sound_cut (hp : p.Sound) : p.cut.Sound where
  waiting := hp.waiting
  targets := hp.targets
  reads build hbuild hsettled := by
    obtain ⟨before, hbefore, rfl⟩ := Option.map_eq_some_iff.mp hbuild
    obtain ⟨hchanges, hcovered⟩ := hp.reads before hbefore hsettled
    refine ⟨le_refl _, ?_⟩
    intro opened hopened hruntime hinstalled
    exact lt_of_lt_of_le (hcovered opened hopened hruntime hinstalled) hchanges
  stale := hp.stale

/-- A read that has ended covers nothing by that. -/
theorem sound_settled (hp : p.Sound) {build : Build} :
    Sound { p with build := some { build with settled := true } } where
  waiting := hp.waiting
  targets := hp.targets
  reads build' hbuild' hsettled' := by
    obtain rfl := Option.some.inj hbuild'
    cases hsettled'
  stale := hp.stale

theorem sound_heard (hp : p.Sound) : Sound { p with build := none } where
  waiting := hp.waiting
  targets := hp.targets
  reads build hbuild := by cases hbuild
  stale := hp.stale

theorem sound_covers (covering : Nat) (hinstalled : p.installed = true)
    (hbuild : ∀ build, p.build = some build → build.settled = true)
    (htargets : ∀ waiter ∈ p.waiters, waiter.target ≤ p.changes) : (p.covers covering).Sound where
  waiting hnot := by
    have hsame : p.installed = false := hnot
    rw [hinstalled] at hsame
    cases hsame
  targets waiter hwaiter := by
    obtain ⟨hwaiter, hcovered⟩ := List.mem_filter.mp hwaiter
    exact ⟨of_decide_eq_true hcovered, htargets waiter hwaiter⟩
  reads build hsome hsettled := by
    rw [hbuild build hsome] at hsettled
    cases hsettled
  stale hfailure := by cases hfailure

/-- Lines are published while a runtime is shown, kept for it while it is being opened, and
nothing otherwise. -/
theorem lines_cases (p : Publisher S L E) (options : PublisherOptions L) (value : L) :
    (p.opened = none ∧ p.lines options value = p) ∨
      ∃ opened, p.opened = some opened ∧
        ((opened.installed = true ∧ p.lines options value = p.publishLines options value) ∨
          (opened.installed = false ∧
            p.lines options value = { p with opened := some { opened with lines := some value } })) := by
  unfold lines
  split
  · next hopened => exact .inl ⟨hopened, rfl⟩
  · next opened hopened =>
      refine .inr ⟨opened, hopened, ?_⟩
      split
      · next hinstalled => exact .inl ⟨hinstalled, rfl⟩
      · next hinstalled => exact .inr ⟨by simpa using hinstalled, rfl⟩

/-- The end of a read that the publisher waits for. -/
theorem captured_cases (p : Publisher S L E) (options : PublisherOptions L) (snapshot : S) :
    p.captured options snapshot = p ∨
      ∃ build, p.build = some build ∧ build.settled = false ∧
        ((p.captured options snapshot = { p with build := some { build with settled := true } }) ∨
          ∃ opened, p.opened = some opened ∧ opened.runtime = build.runtime ∧
            p.captured options snapshot =
              (publishRead options { p with build := some { build with settled := true } } opened
                snapshot).covers build.covering) := by
  unfold captured
  split
  · exact .inl rfl
  · next build q hsettle =>
      obtain ⟨hbuild, hsettled, rfl⟩ := settle_eq hsettle
      refine .inr ⟨build, hbuild, hsettled, ?_⟩
      split
      · exact .inl rfl
      · next opened hshows =>
          obtain ⟨hopened, hruntime⟩ := shows_eq hshows
          exact .inr ⟨opened, hopened, hruntime, rfl⟩

theorem captureFailed_cases (p : Publisher S L E) (error : E) :
    p.captureFailed error = p ∨
      ∃ build, p.build = some build ∧ build.settled = false ∧
        ((p.captureFailed error = { p with build := some { build with settled := true } }) ∨
          ∃ opened, p.opened = some opened ∧ opened.runtime = build.runtime ∧
            ((opened.installed = true ∧ p.captureFailed error =
                fails { p with build := some { build with settled := true } } build.covering error) ∨
              (opened.installed = false ∧ p.captureFailed error =
                does { p with build := some { build with settled := true }, opened := none }
                  [.notReady opened.runtime (.read error)]))) := by
  unfold captureFailed
  split
  · exact .inl rfl
  · next build q hsettle =>
      obtain ⟨hbuild, hsettled, rfl⟩ := settle_eq hsettle
      refine .inr ⟨build, hbuild, hsettled, ?_⟩
      split
      · exact .inl rfl
      · next opened hshows =>
          obtain ⟨hopened, hruntime⟩ := shows_eq hshows
          refine .inr ⟨opened, hopened, hruntime, ?_⟩
          split
          · next hinstalled => exact .inl ⟨hinstalled, rfl⟩
          · next hinstalled => exact .inr ⟨by simpa using hinstalled, rfl⟩

theorem sound_captured (hp : p.Sound) (snapshot : S) : (p.captured options snapshot).Sound := by
  obtain heq | ⟨build, hbuild, hsettled, heq | ⟨opened, hopened, hruntime, heq⟩⟩ :=
    captured_cases p options snapshot
  · rw [heq]
    exact hp
  · rw [heq]
    exact sound_settled hp
  · rw [heq]
    obtain ⟨hread, -⟩ := publishRead_spec options
      (p := { p with build := some { build with settled := true } }) hopened snapshot
    refine sound_covers _ ?_ ?_ ?_
    · rw [installed_of hread.opened]
      rfl
    · intro build' hbuild'
      obtain rfl := Option.some.inj (hread.build.symm.trans hbuild')
      rfl
    · intro waiter hwaiter
      obtain ⟨hsame, -⟩ | ⟨hnone, -⟩ := hread.rest
      · rw [hread.changes]
        exact (hp.targets waiter (hsame ▸ hwaiter)).2
      · rw [hnone] at hwaiter
        cases hwaiter

theorem sound_captureFailed (hp : p.Sound) (error : E) : (p.captureFailed error).Sound := by
  obtain heq | ⟨build, hbuild, hsettled, heq | ⟨opened, hopened, hruntime, hshown⟩⟩ :=
    captureFailed_cases p error
  · rw [heq]
    exact hp
  · rw [heq]
    exact sound_settled hp
  · obtain ⟨hinstalled, heq⟩ | ⟨hinstalled, heq⟩ := hshown
    · rw [heq]
      obtain ⟨hchanges, hcovered⟩ := hp.reads build hbuild hsettled
      refine ⟨fun _ => rfl, ?_, ?_, ?_⟩
      · intro waiter hwaiter
        cases hwaiter
      · intro build' hbuild' hsettled'
        obtain rfl := Option.some.inj hbuild'
        cases hsettled'
      · intro _ _
        exact lt_of_lt_of_le (hcovered opened hopened hruntime hinstalled) hchanges
    · rw [heq]
      have hwaiters : p.waiters = [] := hp.waiting ((installed_of hopened).trans hinstalled)
      exact sound_of_none (sound_settled hp) rfl hwaiters rfl rfl

theorem sound_step (hp : p.Sound) (op : Op S L E) : (p.step options op).Sound := by
  cases op with
  | set value => exact (set_spec options hp value).1
  | «open» hold => exact sound_schedule (sound_opening hp hold)
  | close runtime =>
      show (p.close runtime).Sound
      unfold close
      split
      · split
        · exact sound_abandon hp .closed
        · exact hp
      · exact hp
  | invalidate => exact sound_schedule (sound_changed hp)
  | lines value =>
      show (p.lines options value).Sound
      obtain ⟨-, heq⟩ | ⟨opened, hopened, ⟨-, heq⟩ | ⟨hinstalled, heq⟩⟩ := lines_cases p options value
      · rw [heq]
        exact hp
      · rw [heq]
        exact hp.publishes (publishes_publishLines value)
      · rw [heq]
        refine ⟨fun _ => hp.waiting ((installed_of hopened).trans hinstalled), hp.targets, ?_, ?_⟩
        · intro build hbuild hsettled
          refine ⟨(hp.reads build hbuild hsettled).1, ?_⟩
          intro opened' hopened' _ hinstalled'
          obtain rfl := Option.some.inj hopened'
          rw [hinstalled] at hinstalled'
          cases hinstalled'
        · intro _ hinstalled'
          exact absurd (hinstalled.symm.trans hinstalled') Bool.false_ne_true
  | log line => exact hp.publishes (publishes_does _)
  | refresh =>
      show p.refresh.Sound
      unfold refresh
      split
      · exact ⟨hp.waiting, hp.targets, hp.reads, hp.stale⟩
      · next hwaits =>
          obtain ⟨hinstalled, hcovered⟩ := waits_of hwaits
          exact sound_schedule (sound_waits hp hinstalled hcovered)
  | cut => exact sound_cut hp
  | captured snapshot => exact sound_captured hp snapshot
  | captureFailed error => exact sound_captureFailed hp error
  | built =>
      show p.built.Sound
      unfold built
      split
      · split
        · exact sound_schedule (sound_heard hp)
        · exact hp
      · exact hp

/-- Lines said past the last revision of an epoch, while a failure stands, a runtime is shown
and nothing is read off it. -/
def Forgets (options : PublisherOptions L) (p : Publisher S L E) : Op T L E → Prop
  | .lines _ => p.build = none ∧ p.installed = true ∧ p.failure.isSome = true ∧
      options.maxRevision ≤ p.linesState.revision
  | _ => False

theorem rests_publishLines (hrests : p.Rests) (value : L)
    (hkeeps : p.build = none → p.failure.isSome = true → p.linesState.revision < options.maxRevision) :
    (p.publishLines options value).Rests := by
  have hpublishes : Publishes p (p.publishLines options value) := publishes_publishLines value
  intro hnone
  have hbuild : p.build = none := hpublishes.build.symm.trans hnone
  obtain ⟨hwaiters, hopened⟩ := hrests hbuild
  by_cases hstale : p.failure.isSome = true
  · unfold publishLines
    rw [if_neg (Nat.not_le_of_lt (hkeeps hbuild hstale))]
    exact ⟨hwaiters, hopened⟩
  · refine ⟨?_, ?_⟩
    · obtain ⟨hsame, -⟩ | ⟨hempty, -⟩ := hpublishes.rest
      · exact hsame.trans hwaiters
      · exact hempty
    · rw [hpublishes.opened, hpublishes.changes, hpublishes.covered]
      intro opened hsome
      obtain ⟨hinstalled, hcovered | ⟨failure, hfailure, -⟩⟩ := hopened opened hsome
      · exact ⟨hinstalled, .inl hcovered⟩
      · rw [Option.mem_def.mp hfailure] at hstale
        exact absurd rfl hstale

theorem rests_step (hp : p.Sound) (hrests : p.Rests) (op : Op S L E) (hkeeps : ¬Forgets options p op) :
    (p.step options op).Rests := by
  cases op with
  | set value =>
      obtain ⟨-, hopened, hwaiters⟩ := set_spec options hp value
      exact rests_of_none hopened hwaiters
  | «open» hold => exact rests_schedule (sound_opening hp hold)
  | close runtime =>
      show (p.close runtime).Rests
      unfold close
      split
      · split
        · obtain ⟨hopened, hwaiters, -, -⟩ := abandon_spec hp .closed
          exact rests_of_none hopened hwaiters
        · exact hrests
      · exact hrests
  | invalidate => exact rests_schedule (sound_changed hp)
  | lines value =>
      show (p.lines options value).Rests
      obtain ⟨-, heq⟩ | ⟨opened, hopened, ⟨hinstalled, heq⟩ | ⟨hinstalled, heq⟩⟩ :=
        lines_cases p options value
      · rw [heq]
        exact hrests
      · rw [heq]
        refine rests_publishLines hrests value ?_
        intro hnone hstale
        by_contra hpast
        exact hkeeps ⟨hnone, (installed_of hopened).trans hinstalled, hstale, Nat.le_of_not_lt hpast⟩
      · rw [heq]
        intro hnone
        have hshown := ((hrests hnone).2 opened hopened).1
        exact absurd (hinstalled.symm.trans hshown) Bool.false_ne_true
  | log line => exact hrests
  | refresh =>
      show p.refresh.Rests
      unfold refresh
      split
      · exact hrests
      · next hwaits =>
          obtain ⟨hinstalled, hcovered⟩ := waits_of hwaits
          exact rests_schedule (sound_waits hp hinstalled hcovered)
  | cut =>
      intro hnone
      exact hrests (Option.map_eq_none_iff.mp hnone)
  | captured snapshot =>
      show (p.captured options snapshot).Rests
      obtain heq | ⟨build, hbuild, hsettled, heq | ⟨opened, hopened, hruntime, heq⟩⟩ :=
        captured_cases p options snapshot
      · rw [heq]
        exact hrests
      · rw [heq]
        exact rests_reading rfl
      · rw [heq]
        obtain ⟨hread, -⟩ := publishRead_spec options
          (p := { p with build := some { build with settled := true } }) hopened snapshot
        exact rests_reading hread.build
  | captureFailed error =>
      show (p.captureFailed error).Rests
      obtain heq | ⟨build, hbuild, hsettled, heq | ⟨opened, hopened, hruntime, hshown⟩⟩ :=
        captureFailed_cases p error
      · rw [heq]
        exact hrests
      · rw [heq]
        exact rests_reading rfl
      · obtain ⟨-, heq⟩ | ⟨-, heq⟩ := hshown
        · rw [heq]
          exact rests_reading rfl
        · rw [heq]
          exact rests_reading rfl
  | built =>
      show p.built.Rests
      unfold built
      split
      · split
        · exact rests_schedule (sound_heard hp)
        · exact hrests
      · exact hrests

/-- The one step that forgets a failure: no read is made, and changes are left uncovered. -/
theorem forgets_step (hp : p.Sound) {op : Op S L E} (hforgets : Forgets options p op) :
    ∃ opened, (p.step options op).build = none ∧ (p.step options op).opened = some opened ∧
      opened.installed = true ∧ (p.step options op).failure = none ∧
      (p.step options op).covered < (p.step options op).changes := by
  cases op with
  | lines value =>
      obtain ⟨hbuild, hinstalled, hstale, hpast⟩ := hforgets
      obtain ⟨opened, hopened, hshown⟩ := (Option.any_eq_true _ _).mp hinstalled
      have heq : p.step options (.lines value) = (p.renew options p.state.value).sayLines value := by
        show p.lines options value = _
        unfold lines
        rw [hopened]
        show (if opened.installed = true then p.publishLines options value else _) = _
        rw [if_pos hshown]
        unfold publishLines
        rw [if_pos hpast]
      rw [heq]
      exact ⟨opened, hbuild, hopened, hshown, rfl, hp.stale hstale hinstalled⟩
  | _ => exact hforgets.elim

end Publisher

end Estoc.Daemon
