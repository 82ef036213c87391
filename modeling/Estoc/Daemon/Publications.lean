import Mathlib.Data.List.Chain
import Estoc.Daemon.Publisher

/-!
# What the publisher tells

Whatever is asked of it, what it goes on to tell fits what it told last: the next revision
of the epoch, or the first of an epoch drawn since; lines and log lines of the epoch the
state has by then. Every operation is put together from a few that change what is
published, so it is enough that those do.
-/

set_option linter.unusedSectionVars false

namespace Estoc.Daemon

variable {S L E : Type}

/-- What follows on a revision: the next of its epoch, or the first of a later epoch. -/
def Next (last next : RevisionMarker) : Prop :=
  (next.epoch = last.epoch ∧ next.revision = last.revision + 1) ∨
    (last.epoch < next.epoch ∧ next.revision = 1)

def LinesStateOf.marker (lines : LinesStateOf L) : RevisionMarker := ⟨lines.epoch, lines.revision⟩

/-! ## Counting within epochs -/

theorem next_epoch {last next : RevisionMarker} (h : Next last next) : last.epoch ≤ next.epoch := by
  obtain ⟨hepoch, -⟩ | ⟨hepoch, -⟩ := h
  · exact hepoch.ge
  · exact hepoch.le

theorem chain_epochs {last : RevisionMarker} {markers : List RevisionMarker}
    (h : List.IsChain Next (last :: markers)) :
    ((last :: markers).map (·.epoch)).Pairwise (· ≤ ·) := by
  refine List.pairwise_map.mpr (List.isChain_iff_pairwise.mp ?_)
  exact h.imp fun _ _ => next_epoch

/-- The revisions of one epoch are one after another: those of the epoch it starts in go on
from there, those of a later one from 1. -/
theorem chain_revisions {last : RevisionMarker} {markers : List RevisionMarker}
    (h : List.IsChain Next (last :: markers)) (epoch : Nat) :
    ∃ n, (markers.filter (·.epoch = epoch)).map (·.revision) =
      List.range' (if last.epoch = epoch then last.revision + 1 else 1) n ∧
      (epoch < last.epoch → n = 0) := by
  induction markers generalizing last with
  | nil => exact ⟨0, rfl, fun _ => rfl⟩
  | cons next markers ih =>
      obtain ⟨hnext, hrest⟩ := List.isChain_cons_cons.mp h
      obtain ⟨n, hn, hnone⟩ := ih hrest
      by_cases hepoch : next.epoch = epoch
      · refine ⟨n + 1, ?_, ?_⟩
        · rw [List.filter_cons_of_pos (by simpa using hepoch), List.map_cons, hn, if_pos hepoch,
            List.range'_succ]
          obtain ⟨hsame, hrevision⟩ | ⟨hlater, hrevision⟩ := hnext
          · rw [if_pos (hsame.symm.trans hepoch), hrevision]
          · have hlast : last.epoch ≠ epoch := by omega
            rw [if_neg hlast, hrevision]
        · intro hlt
          have := next_epoch hnext
          omega
      · refine ⟨n, ?_, ?_⟩
        · rw [List.filter_cons_of_neg (by simpa using hepoch), hn, if_neg hepoch]
          by_cases hlast : last.epoch = epoch
          · have hlater := next_epoch hnext
            have hzero : n = 0 := hnone (by omega)
            rw [hzero]
            rfl
          · rw [if_neg hlast]
        · intro hlt
          exact hnone (lt_of_lt_of_le hlt (next_epoch hnext))

/-- The markers given out from the first revision of an epoch on: none of an epoch once a
later one has begun, and in each the revisions 1, 2, 3 and so on. -/
structure Counted (markers : List RevisionMarker) : Prop where
  epochs : (markers.map (·.epoch)).Pairwise (· ≤ ·)
  revisions : ∀ epoch, ∃ n,
    (markers.filter (·.epoch = epoch)).map (·.revision) = List.range' 1 n

theorem counted_of_chain {first : RevisionMarker} {markers : List RevisionMarker}
    (hfirst : first.revision = 1) (h : List.IsChain Next (first :: markers)) :
    Counted (first :: markers) where
  epochs := chain_epochs h
  revisions epoch := by
    obtain ⟨n, hn, -⟩ := chain_revisions h epoch
    by_cases hepoch : first.epoch = epoch
    · refine ⟨n + 1, ?_⟩
      rw [List.filter_cons_of_pos (by simpa using hepoch), List.map_cons, hn, if_pos hepoch, hfirst,
        List.range'_succ]
    · refine ⟨n, ?_⟩
      rw [List.filter_cons_of_neg (by simpa using hepoch), hn, if_neg hepoch]

/-! ## In order -/

/-- What a view shows after it was told. -/
def BaselineOf.told (shown : BaselineOf S L) : Effect S L E → BaselineOf S L
  | .state state => { shown with state }
  | .lines lines => { shown with lines }
  | _ => shown

/-- What a view that was told everything can be told next. -/
def Fits (shown : BaselineOf S L) : Effect S L E → Prop
  | .state state => Next (markerOf shown.state) (markerOf state)
  | .lines lines => lines.epoch = shown.state.epoch ∧ Next shown.lines.marker lines.marker
  | .log line => line.epoch = shown.state.epoch
  | _ => True

def InOrder : BaselineOf S L → List (Effect S L E) → Prop
  | _, [] => True
  | shown, effect :: effects => Fits shown effect ∧ InOrder (shown.told effect) effects

theorem inOrder_append {shown : BaselineOf S L} {effects effects' : List (Effect S L E)} :
    InOrder shown (effects ++ effects') ↔
      InOrder shown effects ∧ InOrder (effects.foldl .told shown) effects' := by
  induction effects generalizing shown with
  | nil => simp [InOrder]
  | cons effect effects ih => simp only [List.cons_append, InOrder, List.foldl_cons, ih, and_assoc]

def Effect.stateOf : Effect S L E → Option (StateOf S)
  | .state said => some said
  | _ => none

def Effect.linesOf : Effect S L E → Option (LinesStateOf L)
  | .lines said => some said
  | _ => none

/-- A promise settled, a read begun or a failure told: nothing is published by it. -/
def Effect.quiet : Effect S L E → Bool
  | .state _ | .lines _ | .log _ => false
  | _ => true

/-- The states a publisher has had, from the first on. -/
def statesOf (first : BaselineOf S L) (effects : List (Effect S L E)) : List (StateOf S) :=
  first.state :: effects.filterMap Effect.stateOf

def linesStatesOf (first : BaselineOf S L) (effects : List (Effect S L E)) : List (LinesStateOf L) :=
  first.lines :: effects.filterMap Effect.linesOf

theorem inOrder_states {shown : BaselineOf S L} {effects : List (Effect S L E)}
    (h : InOrder shown effects) : List.IsChain Next ((statesOf shown effects).map markerOf) := by
  induction effects generalizing shown with
  | nil => exact List.isChain_singleton _
  | cons effect effects ih =>
      obtain ⟨hfits, hrest⟩ := h
      cases effect with
      | state state => exact List.isChain_cons_cons.mpr ⟨hfits, ih hrest⟩
      | _ => exact @ih (shown.told _) hrest

theorem inOrder_lines {shown : BaselineOf S L} {effects : List (Effect S L E)}
    (h : InOrder shown effects) :
    List.IsChain Next ((linesStatesOf shown effects).map LinesStateOf.marker) := by
  induction effects generalizing shown with
  | nil => exact List.isChain_singleton _
  | cons effect effects ih =>
      obtain ⟨hfits, hrest⟩ := h
      cases effect with
      | lines lines => exact List.isChain_cons_cons.mpr ⟨hfits.2, ih hrest⟩
      | _ => exact @ih (shown.told _) hrest

/-- The state shown last is the last of the states had. -/
theorem told_state (shown : BaselineOf S L) (effects : List (Effect S L E)) :
    (effects.foldl .told shown).state ∈ statesOf shown effects := by
  induction effects generalizing shown with
  | nil => exact List.mem_singleton_self _
  | cons effect effects ih =>
      cases effect with
      | state state => exact List.mem_cons_of_mem _ (ih _)
      | _ => exact ih _

theorem quiet_inOrder {shown : BaselineOf S L} {effects : List (Effect S L E)}
    (h : ∀ effect ∈ effects, effect.quiet) :
    InOrder shown effects ∧ effects.foldl .told shown = shown := by
  induction effects with
  | nil => exact ⟨trivial, rfl⟩
  | cons effect effects ih =>
      obtain ⟨hquiet, hrest⟩ := List.forall_mem_cons.mp h
      cases effect with
      | state _ => cases hquiet
      | lines _ => cases hquiet
      | log _ => cases hquiet
      | _ => exact ⟨⟨trivial, (ih hrest).1⟩, (ih hrest).2⟩

/-! ## One operation after another -/

namespace Publisher

/-- Both of one epoch, the last drawn. -/
structure Level (p : Publisher S L E) : Prop where
  drawn : p.state.epoch < p.drawn
  epochs : p.linesState.epoch = p.state.epoch

/-- What the publisher did between two of its states, in order, as a view would be told. -/
structure Since (p q : Publisher S L E) (effects : List (Effect S L E)) : Prop where
  did : q.effects = p.effects ++ effects
  inOrder : InOrder p.current effects
  current : q.current = effects.foldl .told p.current
  level : q.Level

variable {p q r : Publisher S L E} {options : PublisherOptions L}

theorem Since.trans {effects effects' : List (Effect S L E)} (h : Since p q effects)
    (h' : Since q r effects') : Since p r (effects ++ effects') where
  did := by rw [h'.did, h.did, List.append_assoc]
  inOrder := inOrder_append.mpr ⟨h.inOrder, h.current ▸ h'.inOrder⟩
  current := by rw [h'.current, h.current, List.foldl_append]
  level := h'.level

/-- Nothing published, and perhaps some promises settled. -/
theorem since_quiet (hlevel : p.Level) {effects : List (Effect S L E)}
    (hquiet : ∀ effect ∈ effects, effect.quiet) (heffects : q.effects = p.effects ++ effects)
    (hcurrent : q.current = p.current) (hdrawn : q.drawn = p.drawn) : Since p q effects where
  did := heffects
  inOrder := (quiet_inOrder hquiet).1
  current := by rw [hcurrent, (quiet_inOrder hquiet).2]
  level := by
    have hstate : q.state = p.state := congrArg BaselineOf.state hcurrent
    have hlines : q.linesState = p.linesState := congrArg BaselineOf.lines hcurrent
    exact ⟨hstate ▸ hdrawn ▸ hlevel.drawn, hstate ▸ hlines ▸ hlevel.epochs⟩

/-- What the publisher goes on to tell fits what it told before. -/
def Tells (p q : Publisher S L E) : Prop := p.Level → ∃ effects, Since p q effects

theorem Tells.trans (h : p.Tells q) (h' : q.Tells r) : p.Tells r := by
  intro hlevel
  obtain ⟨effects, hsince⟩ := h hlevel
  obtain ⟨effects', hsince'⟩ := h' hsince.level
  exact ⟨effects ++ effects', hsince.trans hsince'⟩

/-- A change of what is neither published nor told. -/
theorem tells_of_eq (heffects : q.effects = p.effects) (hcurrent : q.current = p.current)
    (hdrawn : q.drawn = p.drawn) : p.Tells q :=
  fun hlevel => ⟨[], since_quiet hlevel (by simp) (by simp [heffects]) hcurrent hdrawn⟩

/-- What was changed first is neither published nor told. -/
theorem Tells.after (h : q.Tells r) (heffects : q.effects = p.effects) (hcurrent : q.current = p.current)
    (hdrawn : q.drawn = p.drawn) : p.Tells r :=
  (tells_of_eq heffects hcurrent hdrawn).trans h

theorem tells_does {effects : List (Effect S L E)} (h : ∀ effect ∈ effects, effect.quiet) :
    p.Tells (p.does effects) :=
  fun hlevel => ⟨effects, since_quiet hlevel h rfl rfl rfl⟩

theorem tells_refuse (failure : Failure E) : p.Tells (p.refuse failure) := by
  intro hlevel
  refine ⟨_, since_quiet hlevel ?_ rfl rfl rfl⟩
  intro effect heffect
  obtain ⟨waiter, -, rfl⟩ := List.mem_map.mp heffect
  rfl

theorem tells_abandon (why : Left) : p.Tells (p.abandon why) := by
  unfold abandon
  split
  · exact tells_of_eq rfl rfl rfl
  · split
    · exact (tells_refuse _).after rfl rfl rfl
    · exact (tells_does (by simp [Effect.quiet])).after rfl rfl rfl

theorem tells_schedule : p.Tells p.schedule := by
  unfold schedule
  split
  · split
    · exact tells_of_eq rfl rfl rfl
    · exact (tells_does (by simp [Effect.quiet])).after rfl rfl rfl
  · exact tells_of_eq rfl rfl rfl

theorem tells_answer : p.Tells p.answer := by
  refine (tells_does ?_).after rfl rfl rfl
  intro effect heffect
  obtain ⟨waiter, -, rfl⟩ := List.mem_map.mp heffect
  rfl

theorem tells_renew (value : StateValueOf S) : p.Tells (p.renew options value) := by
  refine (tells_refuse .stateChanged).trans fun hlevel => ⟨_, rfl, ?_, rfl, Nat.lt_succ_self _, rfl⟩
  refine ⟨.inr ⟨hlevel.drawn, rfl⟩, ⟨rfl, .inr ⟨?_, rfl⟩⟩, trivial⟩
  show p.linesState.epoch < p.drawn
  rw [show p.linesState.epoch = p.state.epoch from hlevel.epochs]
  exact hlevel.drawn

theorem tells_publishState (value : StateValueOf S) : p.Tells (p.publishState options value) := by
  unfold publishState
  split
  · exact tells_renew value
  · intro hlevel
    exact ⟨_, rfl, ⟨.inl ⟨rfl, rfl⟩, trivial⟩, rfl, hlevel.drawn, hlevel.epochs⟩

theorem tells_sayLines (value : L) : p.Tells (p.sayLines value) := by
  intro hlevel
  exact ⟨_, rfl, ⟨⟨rfl, .inl ⟨hlevel.epochs.symm, rfl⟩⟩, trivial⟩, rfl, hlevel.drawn, rfl⟩

theorem tells_publishLines (value : L) : p.Tells (p.publishLines options value) := by
  unfold publishLines
  split
  · exact (tells_renew p.state.value).trans (tells_sayLines value)
  · exact tells_sayLines value

theorem tells_set (value : NonOpenValue) : p.Tells (p.set options value) := by
  have hleave : p.Tells p.leave := tells_abandon .replaced
  unfold set
  split
  · split
    · split
      · exact hleave
      · exact hleave.trans (tells_publishState _)
    · exact hleave.trans (tells_renew _)
  · exact hleave.trans (tells_renew _)

theorem tells_install (opened : Opened L) (value : StateValueOf S) :
    p.Tells (p.install options opened value) := by
  have hrenew : p.Tells (renew options { p with opened := some { opened with installed := true } } value) :=
    (tells_renew value).after rfl rfl rfl
  unfold install
  split
  · exact (hrenew.trans (tells_publishLines _)).trans (tells_does (by simp [Effect.quiet]))
  · exact hrenew.trans (tells_does (by simp [Effect.quiet]))

theorem tells_publishRead (options : PublisherOptions L) (opened : Opened L) (snapshot : S) :
    p.Tells (p.publishRead options opened snapshot) := by
  unfold publishRead
  split
  · exact tells_publishState _
  · exact tells_install _ _

theorem tells_covers (covering : Nat) : p.Tells (p.covers covering) :=
  (tells_answer (p := { p with covered := covering, failure := none })).after rfl rfl rfl

theorem tells_fails (covering : Nat) (error : E) : p.Tells (p.fails covering error) := by
  refine Tells.trans (q := refuse { p with failure := some (covering, error) } (.read error)) ?_
    (tells_does (by simp [Effect.quiet]))
  exact (tells_refuse _).after rfl rfl rfl

/-- A read that ends changes nothing by that alone. -/
theorem settle_eq {build : Build} (h : p.settle = some (build, q)) :
    p.build = some build ∧ build.settled = false ∧
      q = { p with build := some { build with settled := true } } := by
  unfold settle at h
  split at h
  · split at h
    · cases h
    · next hbuild hsettled =>
        obtain ⟨rfl, rfl⟩ := Prod.mk.inj (Option.some.inj h)
        exact ⟨hbuild, by simpa using hsettled, rfl⟩
  · cases h

theorem shows_eq {runtime : Nat} {opened : Opened L} (h : p.shows runtime = some opened) :
    p.opened = some opened ∧ opened.runtime = runtime := by
  obtain ⟨hopened, hruntime⟩ := Option.filter_eq_some_iff.mp h
  exact ⟨hopened, by simpa using hruntime⟩

theorem tells_captured (snapshot : S) : p.Tells (p.captured options snapshot) := by
  unfold captured
  split
  · exact tells_of_eq rfl rfl rfl
  · next build p' hsettle =>
      obtain ⟨-, -, rfl⟩ := settle_eq hsettle
      split
      · exact tells_of_eq rfl rfl rfl
      · exact ((tells_publishRead _ _ _).trans (tells_covers _)).after rfl rfl rfl

theorem tells_captureFailed (error : E) : p.Tells (p.captureFailed error) := by
  unfold captureFailed
  split
  · exact tells_of_eq rfl rfl rfl
  · next build p' hsettle =>
      obtain ⟨-, -, rfl⟩ := settle_eq hsettle
      split
      · exact tells_of_eq rfl rfl rfl
      · split
        · exact (tells_fails _ _).after rfl rfl rfl
        · exact (tells_does (by simp [Effect.quiet])).after rfl rfl rfl

theorem tells_step (options : PublisherOptions L) (op : Op S L E) : p.Tells (p.step options op) := by
  cases op with
  | set value => exact tells_set value
  | «open» hold =>
      exact (tells_abandon .replaced).trans (tells_schedule.after rfl rfl rfl)
  | close runtime =>
      show p.Tells (p.close runtime)
      unfold close
      split
      · split
        · exact tells_abandon .closed
        · exact tells_of_eq rfl rfl rfl
      · exact tells_of_eq rfl rfl rfl
  | invalidate => exact tells_schedule.after rfl rfl rfl
  | lines value =>
      show p.Tells (p.lines options value)
      unfold lines
      split
      · exact tells_of_eq rfl rfl rfl
      · split
        · exact tells_publishLines value
        · exact tells_of_eq rfl rfl rfl
  | log line =>
      intro hlevel
      exact ⟨_, rfl, ⟨rfl, trivial⟩, rfl, hlevel.drawn, hlevel.epochs⟩
  | refresh =>
      show p.Tells p.refresh
      unfold refresh
      split
      · exact (tells_does (by simp [Effect.quiet])).after rfl rfl rfl
      · exact tells_schedule.after rfl rfl rfl
  | cut => exact tells_of_eq rfl rfl rfl
  | captured snapshot => exact tells_captured snapshot
  | captureFailed error => exact tells_captureFailed error
  | built =>
      show p.Tells p.built
      unfold built
      split
      · split
        · exact tells_schedule.after rfl rfl rfl
        · exact tells_of_eq rfl rfl rfl
      · exact tells_of_eq rfl rfl rfl

theorem level_new (initial : NonOpenValue) : (new options initial : Publisher S L E).Level :=
  ⟨Nat.zero_lt_one, rfl⟩

end Publisher

end Estoc.Daemon
