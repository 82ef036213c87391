import Estoc.Daemon.Refreshes

/-!
# What a refresh is answered with

Each snapshot is taken with the read it came from, so that a published state says which
runtime it was read off and how many changes had been counted when the cut began. The
answer to a refresh names the state published when it is given, or one published later in
the same epoch, and the snapshot then published covers what was counted when it was asked.
-/

set_option linter.unusedSectionVars false

namespace Estoc.Daemon

variable {S T L E : Type}

/-! ## What a step adds -/

def Effect.answer : Effect S L E → Option (Nat × RevisionMarker)
  | .answered refresh marker => some (refresh, marker)
  | _ => none

namespace Publisher

variable {p q r : Publisher S L E} {options : PublisherOptions L}

def Adds (P : Effect S L E → Prop) (p q : Publisher S L E) : Prop :=
  ∃ effects, q.effects = p.effects ++ effects ∧ ∀ effect ∈ effects, P effect

section

variable {P : Effect S L E → Prop}

theorem Adds.trans (h : Adds P p q) (h' : Adds P q r) : Adds P p r := by
  obtain ⟨effects, heq, hall⟩ := h
  obtain ⟨effects', heq', hall'⟩ := h'
  refine ⟨effects ++ effects', ?_, ?_⟩
  · rw [heq', heq, List.append_assoc]
  · intro effect heffect
    obtain h | h := List.mem_append.mp heffect
    · exact hall effect h
    · exact hall' effect h

theorem adds_of_eq (h : q.effects = p.effects) : Adds P p q :=
  ⟨[], by rw [h, List.append_nil], fun _ h => by cases h⟩

theorem Adds.after (h : Adds P q r) (heffects : q.effects = p.effects) : Adds P p r :=
  (adds_of_eq heffects).trans h

theorem adds_does {effects : List (Effect S L E)} (h : ∀ effect ∈ effects, P effect) :
    Adds P p (p.does effects) := ⟨effects, rfl, h⟩

variable (hrest : ∀ effect : Effect S L E, effect.stateOf = none → effect.answer = none → P effect)

include hrest

theorem adds_rest {effects : List (Effect S L E)}
    (h : ∀ effect ∈ effects, effect.stateOf = none ∧ effect.answer = none) : Adds P p (p.does effects) :=
  adds_does fun effect heffect => hrest effect (h effect heffect).1 (h effect heffect).2

theorem adds_refuse (failure : Failure E) : Adds P p (p.refuse failure) := by
  refine ⟨_, rfl, ?_⟩
  intro effect heffect
  obtain ⟨waiter, -, rfl⟩ := List.mem_map.mp heffect
  exact hrest _ rfl rfl

theorem adds_abandon (why : Left) : Adds P p (p.abandon why) := by
  unfold abandon
  split
  · exact adds_of_eq rfl
  · split
    · exact (adds_refuse hrest _).after rfl
    · exact ⟨_, rfl, List.forall_mem_singleton.mpr (hrest _ rfl rfl)⟩

theorem adds_schedule : Adds P p p.schedule := by
  obtain ⟨heq, -⟩ | ⟨opened, -, -, -, heq⟩ := schedule_cases p
  · rw [heq]
    exact adds_of_eq rfl
  · rw [heq]
    exact ⟨_, rfl, List.forall_mem_singleton.mpr (hrest _ rfl rfl)⟩

theorem adds_sayLines (value : L) : Adds P p (p.sayLines value) :=
  ⟨_, rfl, List.forall_mem_singleton.mpr (hrest _ rfl rfl)⟩

theorem adds_fails (covering : Nat) (error : E) : Adds P p (p.fails covering error) := by
  have hrefuse : Adds P p (refuse { p with failure := some (covering, error) } (.read error)) :=
    (adds_refuse hrest _).after rfl
  refine hrefuse.trans (adds_rest hrest ?_)
  simp [Effect.stateOf, Effect.answer]

variable {value : StateValueOf S} (hstate : ∀ state : StateOf S, state.value = value → P (.state state))

include hstate

theorem adds_renew : Adds P p (p.renew options value) := by
  refine (adds_refuse hrest .stateChanged).trans ⟨_, rfl, ?_⟩
  refine List.forall_mem_cons.mpr ⟨hstate _ rfl, List.forall_mem_singleton.mpr (hrest _ rfl rfl)⟩

theorem adds_publishState : Adds P p (p.publishState options value) := by
  unfold publishState
  split
  · exact adds_renew hrest hstate
  · exact ⟨_, rfl, List.forall_mem_singleton.mpr (hstate _ rfl)⟩

theorem adds_publishLines (hvalue : p.state.value = value) (said : L) :
    Adds P p (p.publishLines options said) := by
  unfold publishLines
  split
  · rw [hvalue]
    exact (adds_renew hrest hstate).trans (adds_sayLines hrest said)
  · exact adds_sayLines hrest said

theorem adds_install (opened : Opened L) : Adds P p (p.install options opened value) := by
  have hrenew : Adds P p
      (renew options { p with opened := some { opened with installed := true } } value) :=
    (adds_renew hrest hstate).after rfl
  have hready (q : Publisher S L E) : Adds P q (q.does [.ready opened.runtime]) :=
    ⟨_, rfl, List.forall_mem_singleton.mpr (hrest _ rfl rfl)⟩
  unfold install
  split
  · exact (hrenew.trans (adds_publishLines hrest hstate rfl _)).trans (hready _)
  · exact hrenew.trans (hready _)

end

theorem adds_publishRead (options : PublisherOptions L) {P : Effect S L E → Prop}
    (hrest : ∀ effect : Effect S L E, effect.stateOf = none → effect.answer = none → P effect)
    (opened : Opened L) (snapshot : S)
    (hstate : ∀ state : StateOf S, state.value = .opened opened.hold snapshot → P (.state state)) :
    Adds P p (p.publishRead options opened snapshot) := by
  unfold publishRead
  split
  · exact adds_publishState hrest hstate
  · exact adds_install hrest hstate opened

theorem adds_set {P : Effect S L E → Prop}
    (hrest : ∀ effect : Effect S L E, effect.stateOf = none → effect.answer = none → P effect)
    (value : NonOpenValue) (hstate : ∀ state : StateOf S, state.value = .nonOpen value → P (.state state)) :
    Adds P p (p.set options value) := by
  have hleave : Adds P p p.leave := adds_abandon hrest .replaced
  unfold set
  split
  · split
    · split
      · exact hleave
      · exact hleave.trans (adds_publishState hrest hstate)
    · exact hleave.trans (adds_renew hrest hstate)
  · exact hleave.trans (adds_renew hrest hstate)

theorem adds_captureFailed {P : Effect S L E → Prop}
    (hrest : ∀ effect : Effect S L E, effect.stateOf = none → effect.answer = none → P effect)
    (error : E) : Adds P p (p.captureFailed error) := by
  obtain heq | ⟨build, hbuild, hsettled, heq | ⟨opened, hopened, hruntime, hshown⟩⟩ :=
    captureFailed_cases p error
  · rw [heq]
    exact adds_of_eq rfl
  · rw [heq]
    exact adds_of_eq rfl
  · obtain ⟨-, heq⟩ | ⟨-, heq⟩ := hshown
    · rw [heq]
      exact (adds_fails hrest _ _).after rfl
    · rw [heq]
      exact ⟨_, rfl, List.forall_mem_singleton.mpr (hrest _ rfl rfl)⟩

/-- What changes neither the state nor answers a refresh, whatever else it does. -/
def Op.silent : Op S L E → Bool
  | .set _ | .lines _ | .refresh | .captured _ => false
  | _ => true

theorem adds_silent {P : Effect S L E → Prop}
    (hrest : ∀ effect : Effect S L E, effect.stateOf = none → effect.answer = none → P effect)
    {op : Op S L E} (hop : Op.silent op) : Adds P p (p.step options op) := by
  cases op with
  | set _ => cases hop
  | lines _ => cases hop
  | refresh => cases hop
  | captured _ => cases hop
  | «open» hold => exact (adds_abandon hrest .replaced).trans ((adds_schedule hrest).after rfl)
  | close runtime =>
      show Adds P p (p.close runtime)
      unfold close
      split
      · split
        · exact adds_abandon hrest .closed
        · exact adds_of_eq rfl
      · exact adds_of_eq rfl
  | invalidate => exact (adds_schedule hrest).after rfl
  | log line => exact ⟨_, rfl, List.forall_mem_singleton.mpr (hrest _ rfl rfl)⟩
  | cut => exact adds_of_eq rfl
  | captureFailed error => exact adds_captureFailed hrest error
  | built =>
      show Adds P p p.built
      unfold built
      split
      · split
        · exact (adds_schedule hrest).after rfl
        · exact adds_of_eq rfl
      · exact adds_of_eq rfl

end Publisher

/-! ## Snapshots and the reads they come from -/

/-- A snapshot, the runtime it was read off, and how many changes had been counted when its
cut began: when the read began, where no cut was reported. -/
structure Captured (S : Type) where
  runtime : Nat
  covering : Nat
  snapshot : S
deriving DecidableEq

def Op.map (f : S → T) : Op S L E → Op T L E
  | .set value => .set value
  | .open hold => .open hold
  | .close runtime => .close runtime
  | .invalidate => .invalidate
  | .lines value => .lines value
  | .log line => .log line
  | .refresh => .refresh
  | .cut => .cut
  | .captured snapshot => .captured (f snapshot)
  | .captureFailed error => .captureFailed error
  | .built => .built

namespace Publisher

variable {p q : Publisher (Captured S) L E} {options : PublisherOptions L}

/-- A snapshot as the read under way brings it. -/
def mark (p : Publisher (Captured S) L E) (snapshot : S) : Captured S :=
  match p.build with
  | some build => ⟨build.runtime, build.covering, snapshot⟩
  -- nothing comes of it where no read is under way
  | none => ⟨0, 0, snapshot⟩

def next (options : PublisherOptions L) (p : Publisher (Captured S) L E) (op : Op S L E) :
    Publisher (Captured S) L E := p.step options (op.map p.mark)

/-- Whatever was asked of the publisher and whatever came of its reads, in any order. -/
def run (options : PublisherOptions L) (initial : NonOpenValue) (ops : List (Op S L E)) :
    Publisher (Captured S) L E := ops.foldl (next options) (new options initial)

/-- While a runtime is shown, the state published is a snapshot of it that covers what is
said to be covered. -/
def Shown (p : Publisher (Captured S) L E) : Prop :=
  ∀ opened, p.opened = some opened → opened.installed = true → ∃ snapshot,
    p.state.value = .opened opened.hold snapshot ∧ snapshot.runtime = opened.runtime ∧
      snapshot.covering = p.covered

theorem Shown.of_eq (hp : p.Shown) (hopened : q.opened = p.opened) (hvalue : q.state.value = p.state.value)
    (hcovered : q.covered = p.covered) : q.Shown := by
  rw [Shown, hopened, hvalue, hcovered]
  exact hp

theorem shown_of_none (hopened : q.opened = none) : q.Shown := by
  intro opened hsome
  rw [hopened] at hsome
  cases hsome

theorem Shown.schedule (hp : p.Shown) : p.schedule.Shown := by
  obtain ⟨heq, -⟩ | ⟨opened, -, -, -, heq⟩ := schedule_cases p
  · rw [heq]
    exact hp
  · rw [heq]
    exact hp.of_eq rfl rfl rfl

theorem shown_captured (hp : p.Shown) (snapshot : S) : (p.captured options (p.mark snapshot)).Shown := by
  obtain heq | ⟨build, hbuild, hsettled, heq | ⟨opened, hopened, hruntime, heq⟩⟩ :=
    captured_cases p options (p.mark snapshot)
  · rw [heq]
    exact hp
  · rw [heq]
    exact hp.of_eq rfl rfl rfl
  · rw [heq]
    obtain ⟨hread, hvalue⟩ := publishRead_spec options
      (p := { p with build := some { build with settled := true } }) hopened (p.mark snapshot)
    intro opened' hopened' _
    obtain rfl := Option.some.inj (hread.opened.symm.trans hopened')
    have hmark : p.mark snapshot = ⟨build.runtime, build.covering, snapshot⟩ := by
      unfold mark
      rw [hbuild]
    exact ⟨p.mark snapshot, hvalue, by rw [hmark]; exact hruntime.symm, by rw [hmark]; rfl⟩

theorem shown_next (options : PublisherOptions L) (hs : p.Sound) (hp : p.Shown) (op : Op S L E) : (p.next options op).Shown := by
  cases op with
  | set value => exact shown_of_none (set_spec options hs value).2.1
  | «open» hold =>
      refine Shown.schedule ?_
      intro opened hopened hinstalled
      obtain rfl := Option.some.inj hopened
      cases hinstalled
  | close runtime =>
      show (p.close runtime).Shown
      unfold close
      split
      · split
        · exact shown_of_none (abandon_opened p .closed)
        · exact hp
      · exact hp
  | invalidate => exact Shown.schedule (hp.of_eq rfl rfl rfl)
  | lines value =>
      show (p.lines options value).Shown
      obtain ⟨-, heq⟩ | ⟨opened, hopened, ⟨-, heq⟩ | ⟨hinstalled, heq⟩⟩ := lines_cases p options value
      · rw [heq]
        exact hp
      · rw [heq]
        have hpublishes : Publishes p (p.publishLines options value) := publishes_publishLines value
        exact hp.of_eq hpublishes.opened (publishLines_value value) hpublishes.covered
      · rw [heq]
        intro opened' hopened' hinstalled'
        obtain rfl := Option.some.inj hopened'
        exact absurd (hinstalled.symm.trans hinstalled') Bool.false_ne_true
  | log line => exact hp.of_eq rfl rfl rfl
  | refresh =>
      show p.refresh.Shown
      unfold refresh
      split
      · exact hp.of_eq rfl rfl rfl
      · exact Shown.schedule (hp.of_eq rfl rfl rfl)
  | cut => exact hp.of_eq rfl rfl rfl
  | captured snapshot => exact shown_captured hp snapshot
  | captureFailed error =>
      show (p.captureFailed error).Shown
      obtain heq | ⟨build, hbuild, hsettled, heq | ⟨opened, hopened, hruntime, hshown⟩⟩ :=
        captureFailed_cases p error
      · rw [heq]
        exact hp
      · rw [heq]
        exact hp.of_eq rfl rfl rfl
      · obtain ⟨-, heq⟩ | ⟨-, heq⟩ := hshown
        · rw [heq]
          exact hp.of_eq rfl rfl rfl
        · rw [heq]
          exact shown_of_none rfl
  | built =>
      show p.built.Shown
      unfold built
      split
      · split
        · exact Shown.schedule (hp.of_eq rfl rfl rfl)
        · exact hp
      · exact hp

end Publisher

end Estoc.Daemon
