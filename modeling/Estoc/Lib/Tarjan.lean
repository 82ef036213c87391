import Mathlib.Logic.Relation
import Mathlib.Data.List.Basic
import Mathlib.Data.Finset.Card
import Mathlib.Algebra.Order.BigOperators.Group.List
import Mathlib.Algebra.Order.Ring.Nat
import Estoc.Lib.Loop
import Estoc.Lib.OMap

/-!
# Strongly connected components, on an explicit stack

Tarjan's algorithm over a successor function, with the call stack as data: the
frames of `path` hold a vertex and the successors it has still to look at.
Each vertex gets an index as it is entered and a low link that only falls; a
frame whose low link is still its index when its successors are used up heads
a component, which is then the part of `stack` down to it.

`Inv` is what every round keeps. Its reachability half says that the stack is
downward connected, each vertex reaching those above it, and that each vertex
on it reaches a frame at or below it; its bound half says that a frame's low
link is an index it reaches, and no edge leaving the part of the stack the
frame owns goes further down than that, except an edge still to be looked
along. A frame that ends with its low link at its own index therefore owns a
part of the stack that is strongly connected and that no edge leaves but into
components already complete.
-/

namespace Tarjan

set_option linter.unusedSectionVars false

variable {α : Type*} [DecidableEq α]

structure State (α : Type*) where
  index : OMap α Nat
  low : OMap α Nat
  /-- the vertices entered and not yet in a component, the last entered first -/
  stack : List α
  /-- the frames, the innermost first, each with the successors left to see -/
  path : List (α × List α)
  components : List (List α)
  next : Nat

def init : State α := ⟨OMap.empty, OMap.empty, [], [], [], 0⟩

def enter (succ : α → List α) (s : State α) (v : α) : State α :=
  { s with
    index := s.index.set v s.next
    low := s.low.set v s.next
    next := s.next + 1
    stack := v :: s.stack
    path := (v, succ v) :: s.path }

def lower (s : State α) (v : α) (n : Nat) : State α :=
  { s with low := s.low.set v (min ((s.low.get? v).getD 0) n) }

/-- The stack down to `v`, and what is below it. -/
def popTo (v : α) : List α → List α × List α
  | [] => ([], [])
  | w :: rest =>
    if w = v then ([w], rest)
    else let (component, below) := popTo v rest
      (w :: component, below)

/-- `v` has no successor left: its component is taken off the stack when it
heads one. -/
def finish (s : State α) (v : α) : State α :=
  if s.low.get? v = s.index.get? v then
    let (component, below) := popTo v s.stack
    { s with stack := below, components := s.components ++ [component] }
  else s

def step (succ : α → List α) (s : State α) : Option (State α) :=
  match s.path with
  | [] => none
  | (v, w :: rest) :: frames =>
    let s := { s with path := (v, rest) :: frames }
    match s.index.get? w with
    | none => some (enter succ s w)
    | some i => if w ∈ s.stack then some (lower s v i) else some s
  | (v, []) :: frames =>
    let s := finish { s with path := frames } v
    match frames with
    | [] => some s
    | (parent, _) :: _ => some (lower s parent ((s.low.get? v).getD 0))

/-- Enough rounds for a search that enters every vertex and looks along every
edge. -/
def fuel (vertices : List α) (succ : α → List α) : Nat :=
  (vertices.map fun v => (succ v).length + 1).sum

def visit (vertices : List α) (succ : α → List α) (s : State α) (root : α) : State α :=
  if s.index.has root then s
  else Loop.run (step succ) (fuel vertices succ) (enter succ s root)

/-- The components in the order they were completed. -/
def components (vertices : List α) (succ : α → List α) : List (List α) :=
  (vertices.foldl (visit vertices succ) init).components


/-! ## What the search knows -/

def Edge (succ : α → List α) (a b : α) : Prop := b ∈ succ a

abbrev Path (succ : α → List α) : α → α → Prop := Relation.ReflTransGen (Edge succ)

namespace State

def Entered (s : State α) (v : α) : Prop := v ∈ s.index.keys

def idx (s : State α) (v : α) : Nat := (s.index.get? v).getD 0

def lo (s : State α) (v : α) : Nat := (s.low.get? v).getD 0

def Done (s : State α) (v : α) : Prop := ∃ c ∈ s.components, v ∈ c

/-- The vertices of the frames, the innermost first. -/
def opened (s : State α) : List α := s.path.map Prod.fst

/-- An edge a frame has still to look along. -/
def Pending (s : State α) (x y : α) : Prop := ∃ rest, (x, rest) ∈ s.path ∧ y ∈ rest

end State

structure Inv (succ : α → List α) (s : State α) : Prop where
  idx_lt : ∀ {v}, s.Entered v → s.idx v < s.next
  idx_inj : ∀ {v w}, s.Entered v → s.Entered w → s.idx v = s.idx w → v = w
  has_low : ∀ {v}, s.Entered v → v ∈ s.low.keys
  entered : ∀ {v}, s.Entered v ↔ v ∈ s.stack ∨ s.Done v
  fresh : ∀ {v}, v ∈ s.stack → ¬ s.Done v
  stack_sorted : s.stack.Pairwise fun a b => s.idx b < s.idx a
  opened_sorted : s.opened.Pairwise fun a b => s.idx b < s.idx a
  opened_stack : ∀ {v}, v ∈ s.opened → v ∈ s.stack
  pending_edge : ∀ {v w}, s.Pending v w → Edge succ v w
  seen : ∀ {v w}, v ∈ s.stack → Edge succ v w → s.Entered w ∨ s.Pending v w
  closed : ∀ {v w}, s.Done v → Edge succ v w → s.Done w
  down : ∀ {a b}, a ∈ s.stack → b ∈ s.stack → s.idx a ≤ s.idx b → Path succ a b
  up : ∀ {x}, x ∈ s.stack → ∃ v ∈ s.opened, s.idx v ≤ s.idx x ∧ Path succ x v
  low_le : ∀ {v}, v ∈ s.opened → s.lo v ≤ s.idx v
  low_sound : ∀ {v}, v ∈ s.opened → ∃ u ∈ s.stack, s.idx u = s.lo v ∧ Path succ v u
  low_bound : ∀ {v x y}, v ∈ s.opened → x ∈ s.stack → s.idx v ≤ s.idx x →
    (∀ u ∈ s.opened, s.idx v < s.idx u → s.idx x < s.idx u) →
    Edge succ x y → y ∈ s.stack → s.idx y < s.idx v → s.Pending x y ∨ s.lo v ≤ s.idx y
  component : ∀ {c a b}, c ∈ s.components → a ∈ c →
    (b ∈ c ↔ Path succ a b ∧ Path succ b a)
  component_nodup : ∀ {c}, c ∈ s.components → c.Nodup ∧ c ≠ []
  disjoint : s.components.Pairwise List.Disjoint

section Steps

variable {succ : α → List α} {s : State α}

theorem inv_init : Inv succ (init : State α) where
  idx_lt h := by simp [init, State.Entered, OMap.keys, OMap.empty] at h
  idx_inj h := by simp [init, State.Entered, OMap.keys, OMap.empty] at h
  has_low h := by simp [init, State.Entered, OMap.keys, OMap.empty] at h
  entered := by simp [init, State.Entered, State.Done, OMap.keys, OMap.empty]
  fresh h := by simp [init] at h
  stack_sorted := List.Pairwise.nil
  opened_sorted := List.Pairwise.nil
  opened_stack h := by simp [init, State.opened] at h
  pending_edge h := by simp [init, State.Pending] at h
  seen h := by simp [init] at h
  closed h := by simp [init, State.Done] at h
  down h := by simp [init] at h
  up h := by simp [init] at h
  low_le h := by simp [init, State.opened] at h
  low_sound h := by simp [init, State.opened] at h
  low_bound h := by simp [init, State.opened] at h
  component h := by simp [init] at h
  component_nodup h := by simp [init] at h
  disjoint := List.Pairwise.nil

theorem Inv.stack_entered (h : Inv succ s) {v : α} (hv : v ∈ s.stack) : s.Entered v :=
  h.entered.mpr (Or.inl hv)

theorem Inv.stack_lt (h : Inv succ s) {v : α} (hv : v ∈ s.stack) : s.idx v < s.next :=
  h.idx_lt (h.stack_entered hv)

theorem Inv.stack_idx_inj (h : Inv succ s) {v w : α} (hv : v ∈ s.stack) (hw : w ∈ s.stack)
    (e : s.idx v = s.idx w) : v = w :=
  h.idx_inj (h.stack_entered hv) (h.stack_entered hw) e

/-- With no frame left nothing is left on the stack. -/
theorem Inv.stack_nil (h : Inv succ s) (hp : s.path = []) : s.stack = [] := by
  cases hs : s.stack with
  | nil => rfl
  | cons x rest =>
      obtain ⟨f, hf, _⟩ := h.up (x := x) (by rw [hs]; exact List.mem_cons_self)
      rw [State.opened, hp] at hf
      cases hf

/-- The innermost frame has the greatest index of all frames. -/
theorem Inv.opened_le (h : Inv succ s) {v : α} {rest : List α}
    {frames : List (α × List α)} (hp : s.path = (v, rest) :: frames) {u : α}
    (hu : u ∈ s.opened) : s.idx u ≤ s.idx v := by
  have hsorted := h.opened_sorted
  rw [State.opened, hp] at hu hsorted
  rcases List.mem_cons.mp hu with rfl | hu
  · exact le_rfl
  · exact ((List.pairwise_cons.mp hsorted).1 u hu).le

theorem State.head_opened {v : α} {rest : List α} {frames : List (α × List α)}
    (hp : s.path = (v, rest) :: frames) : v ∈ s.opened := by
  rw [State.opened, hp]
  exact List.mem_cons_self

/-- The innermost frame is reached from everything on the stack. -/
theorem Inv.reaches_top (h : Inv succ s) {v : α} {rest : List α}
    {frames : List (α × List α)} (hp : s.path = (v, rest) :: frames) {a : α}
    (ha : a ∈ s.stack) : Path succ a v := by
  obtain ⟨u, hu, _, hau⟩ := h.up ha
  exact hau.trans (h.down (h.opened_stack hu) (h.opened_stack (State.head_opened hp))
    (h.opened_le hp hu))

theorem idx_enter (s : State α) (w x : α) :
    (enter succ s w).idx x = if x = w then s.next else s.idx x := by
  rw [State.idx, enter, OMap.get?_set]
  split <;> rfl

theorem lo_enter (s : State α) (w x : α) :
    (enter succ s w).lo x = if x = w then s.next else s.lo x := by
  rw [State.lo, enter, OMap.get?_set]
  split <;> rfl

theorem entered_enter (s : State α) (w x : α) :
    (enter succ s w).Entered x ↔ s.Entered x ∨ x = w := OMap.mem_keys_set

theorem pending_enter (s : State α) (w x y : α) :
    (enter succ s w).Pending x y ↔ (x = w ∧ y ∈ succ w) ∨ s.Pending x y := by
  constructor
  · rintro ⟨r, hr, hy⟩
    rcases List.mem_cons.mp hr with e | hr
    · obtain ⟨rfl, rfl⟩ := Prod.mk.inj e
      exact Or.inl ⟨rfl, hy⟩
    · exact Or.inr ⟨r, hr, hy⟩
  · rintro (⟨rfl, hy⟩ | ⟨r, hr, hy⟩)
    · exact ⟨_, List.mem_cons_self, hy⟩
    · exact ⟨r, List.mem_cons_of_mem _ hr, hy⟩

/-- Entering a vertex that everything on the stack reaches. -/
theorem Inv.enter (h : Inv succ s) {w : α} (hw : ¬ s.Entered w)
    (hreach : ∀ a ∈ s.stack, Path succ a w) : Inv succ (enter succ s w) := by
  generalize hs' : Tarjan.enter succ s w = s'
  have hstack : ∀ {x}, x ∈ s'.stack ↔ x = w ∨ x ∈ s.stack := by
    subst hs'; exact List.mem_cons
  have hopened : ∀ {x}, x ∈ s'.opened ↔ x = w ∨ x ∈ s.opened := by
    subst hs'; exact List.mem_cons
  have hentered : ∀ {x}, s'.Entered x ↔ s.Entered x ∨ x = w := by
    subst hs'; exact entered_enter s w _
  have hpend : ∀ {x y}, s'.Pending x y ↔ (x = w ∧ y ∈ succ w) ∨ s.Pending x y := by
    subst hs'; exact pending_enter s w _ _
  have hdone : ∀ {x}, s'.Done x ↔ s.Done x := by subst hs'; exact Iff.rfl
  have hidx : ∀ {x}, s.Entered x → s'.idx x = s.idx x := by
    subst hs'; intro x hx; rw [idx_enter, if_neg (fun e : x = w => hw (e ▸ hx))]
  have hidxw : s'.idx w = s.next := by subst hs'; rw [idx_enter, if_pos rfl]
  have hlo : ∀ {x}, s.Entered x → s'.lo x = s.lo x := by
    subst hs'; intro x hx; rw [lo_enter, if_neg (fun e : x = w => hw (e ▸ hx))]
  have hlow : s'.lo w = s.next := by subst hs'; rw [lo_enter, if_pos rfl]
  have hnext : s'.next = s.next + 1 := by subst hs'; rfl
  have hcomp : s'.components = s.components := by subst hs'; rfl
  have hs := fun {x} (hx : x ∈ s.stack) => hidx (h.stack_entered hx)
  have ho := fun {x} (hx : x ∈ s.opened) => hs (h.opened_stack hx)
  refine
    { idx_lt := ?_, idx_inj := ?_, has_low := ?_, entered := ?_, fresh := ?_,
      stack_sorted := ?_, opened_sorted := ?_, opened_stack := ?_, pending_edge := ?_,
      seen := ?_, closed := ?_, down := ?_, up := ?_, low_le := ?_,
      low_sound := ?_, low_bound := ?_, component := hcomp ▸ h.component,
      component_nodup := hcomp ▸ h.component_nodup, disjoint := hcomp ▸ h.disjoint }
  · intro v hv
    rw [hnext]
    rcases hentered.mp hv with hv | rfl
    · rw [hidx hv]
      exact Nat.lt_succ_of_lt (h.idx_lt hv)
    · rw [hidxw]
      exact Nat.lt_succ_self _
  · intro u v hu hv e
    rcases hentered.mp hu with hu | rfl <;> rcases hentered.mp hv with hv | rfl
    · rw [hidx hu, hidx hv] at e
      exact h.idx_inj hu hv e
    · rw [hidx hu, hidxw] at e
      exact absurd e (h.idx_lt hu).ne
    · rw [hidxw, hidx hv] at e
      exact absurd e.symm (h.idx_lt hv).ne
    · rfl
  · intro v hv
    subst hs'
    rcases hentered.mp hv with hv | rfl
    · exact OMap.mem_keys_set.mpr (Or.inl (h.has_low hv))
    · exact OMap.mem_keys_set.mpr (Or.inr rfl)
  · intro v
    rw [hentered, hstack, h.entered, hdone]
    tauto
  · intro v hv hd
    rcases hstack.mp hv with rfl | hv
    · exact hw (h.entered.mpr (Or.inr (hdone.mp hd)))
    · exact h.fresh hv (hdone.mp hd)
  · have hcons : s'.stack = w :: s.stack := by subst hs'; rfl
    rw [hcons]
    refine List.pairwise_cons.mpr ⟨?_, h.stack_sorted.imp_of_mem ?_⟩
    · intro b hb
      rw [hs hb, hidxw]
      exact h.stack_lt hb
    · intro a b ha hb hab
      rwa [hs ha, hs hb]
  · have hcons : s'.opened = w :: s.opened := by subst hs'; rfl
    rw [hcons]
    refine List.pairwise_cons.mpr ⟨?_, h.opened_sorted.imp_of_mem ?_⟩
    · intro b hb
      rw [ho hb, hidxw]
      exact h.stack_lt (h.opened_stack hb)
    · intro a b ha hb hab
      rwa [ho ha, ho hb]
  · intro v hv
    exact hstack.mpr ((hopened.mp hv).imp id h.opened_stack)
  · intro v x hx
    rcases hpend.mp hx with ⟨rfl, hx⟩ | hx
    · exact hx
    · exact h.pending_edge hx
  · intro v x hv hx
    rcases hstack.mp hv with rfl | hv
    · exact Or.inr (hpend.mpr (Or.inl ⟨rfl, hx⟩))
    · exact (h.seen hv hx).imp (fun hx => hentered.mpr (Or.inl hx))
        fun hx => hpend.mpr (Or.inr hx)
  · intro v x hv hx
    exact hdone.mpr (h.closed (hdone.mp hv) hx)
  · intro a b ha hb hab
    rcases hstack.mp ha with rfl | ha' <;> rcases hstack.mp hb with rfl | hb'
    · exact .refl
    · rw [hs hb', hidxw] at hab
      exact absurd hab (h.stack_lt hb').not_ge
    · exact hreach a ha'
    · rw [hs ha', hs hb'] at hab
      exact h.down ha' hb' hab
  · intro x hx
    rcases hstack.mp hx with rfl | hx
    · exact ⟨x, hopened.mpr (Or.inl rfl), le_rfl, .refl⟩
    · obtain ⟨v, hv, hle, hp⟩ := h.up hx
      exact ⟨v, hopened.mpr (Or.inr hv), by rwa [hs hx, ho hv], hp⟩
  · intro v hv
    rcases hopened.mp hv with rfl | hv
    · rw [hlow, hidxw]
    · rw [hlo (h.stack_entered (h.opened_stack hv)), ho hv]
      exact h.low_le hv
  · intro v hv
    rcases hopened.mp hv with rfl | hv
    · exact ⟨v, hstack.mpr (Or.inl rfl), by rw [hlow, hidxw], .refl⟩
    · obtain ⟨u, hu, hlu, hp⟩ := h.low_sound hv
      refine ⟨u, hstack.mpr (Or.inr hu), ?_, hp⟩
      rw [hs hu, hlo (h.stack_entered (h.opened_stack hv)), hlu]
  · intro v x y hv hx hvx hown hxy hy hyv
    rcases hopened.mp hv with rfl | hv
    · -- only `v` itself is at or above its own frame, and all it has is pending
      rcases hstack.mp hx with rfl | hx
      · exact Or.inl (hpend.mpr (Or.inl ⟨rfl, hxy⟩))
      · rw [hidxw, hs hx] at hvx
        exact absurd hvx (h.stack_lt hx).not_ge
    · have hvlt := h.stack_lt (h.opened_stack hv)
      rw [ho hv] at hvx hyv hown
      rcases hstack.mp hx with rfl | hx
      · -- the new vertex is owned by its own frame
        have := hown x (hopened.mpr (Or.inl rfl)) (by rwa [hidxw])
        exact absurd this (lt_irrefl _)
      · rcases hstack.mp hy with rfl | hy
        · rw [hidxw] at hyv
          exact absurd hyv hvlt.not_gt
        · rw [hs hx] at hvx hown
          rw [hs hy] at hyv ⊢
          rw [hlo (h.stack_entered (h.opened_stack hv))]
          refine (h.low_bound hv hx hvx ?_ hxy hy hyv).imp
            (fun hp => hpend.mpr (Or.inr hp)) id
          intro u hu hvu
          have := hown u (hopened.mpr (Or.inr hu))
          rw [ho hu] at this
          exact this hvu

/-- The frame that has an edge pending is the one that owns its vertex. -/
theorem Inv.owner_eq (h : Inv succ s) {v x : α} (hv : v ∈ s.opened) (hx : x ∈ s.opened)
    (hvx : s.idx v ≤ s.idx x)
    (hown : ∀ u ∈ s.opened, s.idx v < s.idx u → s.idx x < s.idx u) : v = x := by
  rcases hvx.lt_or_eq with hlt | he
  · exact absurd (hown x hx hlt) (lt_irrefl _)
  · exact h.stack_idx_inj (h.opened_stack hv) (h.opened_stack hx) he

/-- A frame that has looked along one more edge: its end is entered, and its
index is not below the low link unless it is off the stack. -/
theorem Inv.see (h : Inv succ s) (inner : List (α × List α))
    {outer : List (α × List α)} {v w : α}
    {rest : List α} (hp : s.path = inner ++ (v, w :: rest) :: outer) (hw : s.Entered w)
    (hlow : w ∈ s.stack → s.idx w < s.idx v → s.lo v ≤ s.idx w) :
    Inv succ { s with path := inner ++ (v, rest) :: outer } := by
  have hopened : (inner ++ (v, rest) :: outer).map Prod.fst = s.opened := by
    rw [State.opened, hp]; simp
  have hv : v ∈ s.opened := by rw [State.opened, hp]; simp
  generalize hs' : { s with path := inner ++ (v, rest) :: outer } = s'
  have hopened : s'.opened = s.opened := by subst hs'; exact hopened
  have hpend : ∀ {x y}, s.Pending x y → (x = v ∧ y = w) ∨ s'.Pending x y := by
    subst hs'
    rintro x y ⟨r, hr, hy⟩
    rw [hp] at hr
    simp only [List.mem_append, List.mem_cons, Prod.mk.injEq] at hr
    rcases hr with hr | ⟨rfl, rfl⟩ | hr
    · exact Or.inr ⟨r, by simp [hr], hy⟩
    · rcases List.mem_cons.mp hy with rfl | hy
      · exact Or.inl ⟨rfl, rfl⟩
      · exact Or.inr ⟨rest, by simp, hy⟩
    · exact Or.inr ⟨r, by simp [hr], hy⟩
  have hpend' : ∀ {x y}, s'.Pending x y → s.Pending x y := by
    subst hs'
    rintro x y ⟨r, hr, hy⟩
    simp only [List.mem_append, List.mem_cons, Prod.mk.injEq] at hr
    rcases hr with hr | ⟨rfl, rfl⟩ | hr
    · exact ⟨r, by rw [hp]; simp [hr], hy⟩
    · exact ⟨w :: r, by rw [hp]; simp, List.mem_cons_of_mem _ hy⟩
    · exact ⟨r, by rw [hp]; simp [hr], hy⟩
  have hseen : ∀ {a b}, a ∈ s.stack → Edge succ a b → s.Entered b ∨ s'.Pending a b := by
    intro a b ha hab
    rcases h.seen ha hab with hb | hb
    · exact Or.inl hb
    · rcases hpend hb with ⟨_, rfl⟩ | hb
      · exact Or.inl hw
      · exact Or.inr hb
  have hbound : ∀ {u x y}, u ∈ s.opened → x ∈ s.stack → s.idx u ≤ s.idx x →
      (∀ g ∈ s.opened, s.idx u < s.idx g → s.idx x < s.idx g) →
      Edge succ x y → y ∈ s.stack → s.idx y < s.idx u →
      s'.Pending x y ∨ s.lo u ≤ s.idx y := by
    intro u x y hu hx hux hown hxy hy hyu
    rcases h.low_bound hu hx hux hown hxy hy hyu with hpnd | hle
    · rcases hpend hpnd with ⟨rfl, rfl⟩ | hpnd
      · -- the edge just looked along
        obtain rfl := h.owner_eq hu hv hux hown
        exact Or.inr (hlow hy hyu)
      · exact Or.inl hpnd
    · exact Or.inr hle
  have hsorted := h.opened_sorted
  have hstk := @h.opened_stack
  have hup := @h.up
  have hle := @h.low_le
  have hsound := @h.low_sound
  rw [← hopened] at hsorted
  subst hs'
  exact
    { idx_lt := h.idx_lt, idx_inj := h.idx_inj, has_low := h.has_low,
      entered := h.entered, fresh := h.fresh, stack_sorted := h.stack_sorted,
      opened_sorted := hsorted, opened_stack := fun hx => hstk (hopened ▸ hx),
      pending_edge := fun hx => h.pending_edge (hpend' hx), seen := hseen,
      closed := h.closed, down := h.down,
      up := fun hx => let ⟨u, hu, hr⟩ := hup hx; ⟨u, hopened.symm ▸ hu, hr⟩,
      low_le := fun hx => hle (hopened ▸ hx),
      low_sound := fun hx => hsound (hopened ▸ hx),
      low_bound := fun hu hx hux hown =>
        hbound (hopened ▸ hu) hx hux fun g hg => hown g (hopened.symm ▸ hg),
      component := h.component, component_nodup := h.component_nodup,
      disjoint := h.disjoint }

theorem lo_lower (s : State α) (v : α) (n : Nat) (x : α) :
    (lower s v n).lo x = if x = v then min (s.lo v) n else s.lo x := by
  rw [State.lo, lower, OMap.get?_set]
  split <;> rfl

/-- A low link lowered to an index the vertex reaches, or not lowered. -/
theorem Inv.lower (h : Inv succ s) {v : α} {n : Nat}
    (hn : s.lo v ≤ n ∨ ∃ u ∈ s.stack, s.idx u = n ∧ Path succ v u) :
    Inv succ (lower s v n) := by
  have hle : ∀ x, (Tarjan.lower s v n).lo x ≤ s.lo x := by
    intro x
    rw [lo_lower]
    split
    · next e => subst e; exact min_le_left _ _
    · exact le_rfl
  refine
    { idx_lt := h.idx_lt, idx_inj := h.idx_inj,
      has_low := fun hv => OMap.mem_keys_set.mpr (Or.inl (h.has_low hv)),
      entered := h.entered, fresh := h.fresh,
      stack_sorted := h.stack_sorted, opened_sorted := h.opened_sorted,
      opened_stack := h.opened_stack, pending_edge := h.pending_edge, seen := h.seen,
      closed := h.closed, down := h.down, up := h.up,
      low_le := fun hv => (hle _).trans (h.low_le hv), low_sound := ?_,
      low_bound := ?_, component := h.component,
      component_nodup := h.component_nodup, disjoint := h.disjoint }
  · intro u hu
    have hold := h.low_sound hu
    rw [lo_lower]
    split
    · next e =>
      subst e
      rcases le_total (s.lo u) n with hun | hun
      · rw [min_eq_left hun]
        exact hold
      · rw [min_eq_right hun]
        rcases hn with hle | hn
        · rw [le_antisymm hun hle]
          exact hold
        · exact hn
    · exact hold
  · intro u x y hu hx hux hown hxy hy hyu
    exact (h.low_bound hu hx hux hown hxy hy hyu).imp id fun hb => (hle _).trans hb

/-- An edge pending is pending at its own vertex, so none is at or above a frame
that has looked along all of its own. -/
theorem Inv.not_pending (h : Inv succ s) {v : α} {frames : List (α × List α)}
    (hp : s.path = (v, []) :: frames) {x y : α} (hvx : s.idx v ≤ s.idx x) :
    ¬ s.Pending x y := by
  rintro ⟨r, hr, hy⟩
  rw [hp] at hr
  rcases List.mem_cons.mp hr with e | hr
  · rw [(Prod.mk.inj e).2] at hy
    cases hy
  · have hsorted := h.opened_sorted
    rw [State.opened, hp] at hsorted
    have := (List.pairwise_cons.mp hsorted).1 x (List.mem_map_of_mem hr)
    exact absurd hvx this.not_ge

theorem popTo_append {v : α} {above below : List α} (hv : v ∉ above) :
    popTo v (above ++ v :: below) = (above ++ [v], below) := by
  induction above with
  | nil => simp [popTo]
  | cons w above ih =>
      have hne : w ≠ v := fun e => hv (e ▸ List.mem_cons_self)
      rw [List.cons_append, popTo, if_neg hne, ih fun hm => hv (List.mem_cons_of_mem _ hm)]
      rfl

/-- What is popped with `v` is what the stack has at or above it. -/
theorem Inv.popTo_spec (h : Inv succ s) {v : α} (hv : v ∈ s.stack) :
    s.stack = (popTo v s.stack).1 ++ (popTo v s.stack).2 ∧
      (∀ x ∈ (popTo v s.stack).1, s.idx v ≤ s.idx x) ∧
      (∀ x ∈ (popTo v s.stack).2, s.idx x < s.idx v) ∧ v ∈ (popTo v s.stack).1 := by
  obtain ⟨above, below, hs⟩ := List.append_of_mem hv
  have hsorted := h.stack_sorted
  rw [hs, List.pairwise_append, List.pairwise_cons] at hsorted
  obtain ⟨_, ⟨hbelow, _⟩, habove⟩ := hsorted
  have hva : v ∉ above := fun hm => lt_irrefl _ (habove v hm v List.mem_cons_self)
  rw [hs, popTo_append hva]
  refine ⟨by simp, ?_, hbelow, by simp⟩
  intro x hx
  rcases List.mem_append.mp hx with hx | hx
  · exact (habove x hx v List.mem_cons_self).le
  · rw [List.mem_singleton.mp hx]

/-- A frame that heads a component takes it off the stack. -/
theorem Inv.pop (h : Inv succ s) {v : α} {frames : List (α × List α)}
    (hp : s.path = (v, []) :: frames) (hlow : s.lo v = s.idx v) :
    Inv succ { s with
      path := frames
      stack := (popTo v s.stack).2
      components := s.components ++ [(popTo v s.stack).1] } := by
  have hv := State.head_opened hp
  have hvs := h.opened_stack hv
  obtain ⟨hsplit, habove, hbelow, hvc⟩ := h.popTo_spec hvs
  generalize (popTo v s.stack).1 = component at hsplit habove hvc ⊢
  generalize (popTo v s.stack).2 = below at hsplit hbelow ⊢
  have hmem : ∀ {x}, x ∈ s.stack ↔ x ∈ component ∨ x ∈ below := by
    intro x; rw [hsplit, List.mem_append]
  have hb : ∀ {x}, x ∈ s.stack → s.idx x < s.idx v → x ∈ below := by
    intro x hx hlt
    exact (hmem.mp hx).resolve_left fun hc => absurd (habove x hc) hlt.not_ge
  -- edges out of the component stay in it or lead to what is done
  have hclosed : ∀ {x y}, x ∈ component → Edge succ x y → y ∈ component ∨ s.Done y := by
    intro x y hx hxy
    have hxs := hmem.mpr (Or.inl hx)
    have hnp := h.not_pending hp (y := y) (habove x hx)
    have hy := (h.seen hxs hxy).resolve_right hnp
    rcases h.entered.mp hy with hys | hyd
    · refine Or.inl ((hmem.mp hys).resolve_right fun hyb => ?_)
      rcases h.low_bound hv hxs (habove x hx)
        (fun u hu hvu => absurd (h.opened_le hp hu) hvu.not_ge) hxy hys (hbelow y hyb)
        with hpnd | hle
      · exact hnp hpnd
      · rw [hlow] at hle
        exact absurd (hbelow y hyb) hle.not_gt
    · exact Or.inr hyd
  have hdoneReach : ∀ {x y}, s.Done x → Path succ x y → s.Done y := by
    intro x y hx hxy
    induction hxy with
    | refl => exact hx
    | tail _ e ih => exact h.closed ih e
  have hreach : ∀ {x y}, x ∈ component → Path succ x y → y ∈ component ∨ s.Done y := by
    intro x y hx hxy
    induction hxy with
    | refl => exact Or.inl hx
    | tail _ e ih =>
        rcases ih with hc | hd
        · exact hclosed hc e
        · exact Or.inr (h.closed hd e)
  have hopened : ∀ {x}, x ∈ s.opened ↔ x = v ∨ x ∈ frames.map Prod.fst := by
    intro x; rw [State.opened, hp]; exact List.mem_cons
  have hlt : ∀ {u}, u ∈ frames.map Prod.fst → s.idx u < s.idx v := by
    intro u hu
    have hsorted := h.opened_sorted
    rw [State.opened, hp] at hsorted
    exact (List.pairwise_cons.mp hsorted).1 u hu
  have hpend : ∀ {x y}, s.Pending x y ↔ ∃ r, (x, r) ∈ frames ∧ y ∈ r := by
    intro x y
    constructor
    · rintro ⟨r, hr, hy⟩
      rw [hp] at hr
      rcases List.mem_cons.mp hr with e | hr
      · rw [(Prod.mk.inj e).2] at hy
        cases hy
      · exact ⟨r, hr, hy⟩
    · rintro ⟨r, hr, hy⟩
      exact ⟨r, hp ▸ List.mem_cons_of_mem _ hr, hy⟩
  have hdone : ∀ {x}, (∃ c ∈ s.components ++ [component], x ∈ c) ↔ s.Done x ∨ x ∈ component := by
    intro x
    simp only [List.mem_append, List.mem_singleton, State.Done]
    constructor
    · rintro ⟨c, hc | rfl, hx⟩
      · exact Or.inl ⟨c, hc, hx⟩
      · exact Or.inr hx
    · rintro (⟨c, hc, hx⟩ | hx)
      · exact ⟨c, Or.inl hc, hx⟩
      · exact ⟨component, Or.inr rfl, hx⟩
  have hnodup : s.stack.Nodup := h.stack_sorted.imp fun hab e => by
    subst e; exact lt_irrefl _ hab
  rw [hsplit, List.nodup_append] at hnodup
  obtain ⟨hcomponent, _, hdisj⟩ := hnodup
  have hsub : ∀ {x}, x ∈ below → x ∈ s.stack := fun hx => hmem.mpr (Or.inr hx)
  refine
    { idx_lt := h.idx_lt, idx_inj := h.idx_inj, has_low := h.has_low,
      entered := ?_, fresh := ?_, stack_sorted := ?_, opened_sorted := ?_,
      opened_stack := ?_, pending_edge := fun hx => h.pending_edge (hpend.mpr hx),
      seen := ?_, closed := ?_, down := fun ha hb => h.down (hsub ha) (hsub hb),
      up := ?_, low_le := fun hx => h.low_le (hopened.mpr (Or.inr hx)),
      low_sound := ?_, low_bound := ?_, component := ?_, component_nodup := ?_,
      disjoint := ?_ }
  · intro x
    rw [State.Done, hdone]
    have := @h.entered x
    rw [hmem] at this
    exact this.trans (by tauto)
  · intro x hx hd
    rcases hdone.mp hd with hd | hc
    · exact h.fresh (hsub hx) hd
    · exact hdisj x hc x hx rfl
  · have hsorted := h.stack_sorted
    rw [hsplit, List.pairwise_append] at hsorted
    exact hsorted.2.1
  · have hsorted := h.opened_sorted
    rw [State.opened, hp] at hsorted
    exact (List.pairwise_cons.mp hsorted).2
  · intro u hu
    exact hb (h.opened_stack (hopened.mpr (Or.inr hu))) (hlt hu)
  · intro x w hx hxw
    exact (h.seen (hsub hx) hxw).imp id hpend.mp
  · intro x w hx hxw
    refine hdone.mpr ?_
    rcases hdone.mp hx with hd | hc
    · exact Or.inl (h.closed hd hxw)
    · exact (hclosed hc hxw).symm
  · intro x hx
    obtain ⟨u, hu, hle, hxu⟩ := h.up (hsub hx)
    refine ⟨u, (hopened.mp hu).resolve_left ?_, hle, hxu⟩
    rintro rfl
    exact absurd (hbelow x hx) hle.not_gt
  · intro u hu
    obtain ⟨w, hw, hlw, huw⟩ := h.low_sound (hopened.mpr (Or.inr hu))
    refine ⟨w, hb hw ?_, hlw, huw⟩
    calc s.idx w = s.lo u := hlw
      _ ≤ s.idx u := h.low_le (hopened.mpr (Or.inr hu))
      _ < s.idx v := hlt hu
  · intro u x y hu hx hux hown hxy hy hyu
    refine (h.low_bound (hopened.mpr (Or.inr hu)) (hsub hx) hux ?_ hxy (hsub hy) hyu).imp
      hpend.mp id
    intro g hg hug
    rcases hopened.mp hg with rfl | hg
    · exact hbelow x hx
    · exact hown g hg hug
  · intro c a b hc ha
    rcases List.mem_append.mp hc with hc | hc
    · exact h.component hc ha
    · obtain rfl := List.mem_singleton.mp hc
      constructor
      · intro hbc
        exact ⟨(h.reaches_top hp (hmem.mpr (Or.inl ha))).trans
            (h.down hvs (hmem.mpr (Or.inl hbc)) (habove b hbc)),
          (h.reaches_top hp (hmem.mpr (Or.inl hbc))).trans
            (h.down hvs (hmem.mpr (Or.inl ha)) (habove a ha))⟩
      · rintro ⟨hab, hba⟩
        refine (hreach ha hab).resolve_right fun hd => ?_
        exact h.fresh (hmem.mpr (Or.inl ha)) (hdoneReach hd hba)
  · intro c hc
    rcases List.mem_append.mp hc with hc | hc
    · exact h.component_nodup hc
    · obtain rfl := List.mem_singleton.mp hc
      exact ⟨hcomponent, List.ne_nil_of_mem hvc⟩
  · refine List.pairwise_append.mpr ⟨h.disjoint, List.pairwise_singleton _ _, ?_⟩
    intro c hc d hd x hxc hxd
    obtain rfl := List.mem_singleton.mp hd
    exact h.fresh (hmem.mpr (Or.inl hxd)) ⟨c, hc, hxc⟩

/-- A frame that ends without heading a component leaves what it owns to the
frame around it, once that has its low link. -/
theorem Inv.merge (h : Inv succ s) {v p : α} {r : List α} {frames : List (α × List α)}
    (hp : s.path = (v, []) :: (p, r) :: frames) (hlow : s.lo v ≠ s.idx v)
    (hpv : s.lo p ≤ s.lo v) : Inv succ { s with path := (p, r) :: frames } := by
  have hv := State.head_opened hp
  have hlt : s.lo v < s.idx v := lt_of_le_of_ne (h.low_le hv) hlow
  have hopened : ∀ {x}, x ∈ s.opened ↔ x = v ∨ x ∈ ((p, r) :: frames).map Prod.fst := by
    intro x; rw [State.opened, hp]; exact List.mem_cons
  have hsorted := h.opened_sorted
  rw [State.opened, hp, List.map_cons, List.pairwise_cons] at hsorted
  obtain ⟨hbelow, hsorted⟩ := hsorted
  have hpend : ∀ {x y}, s.Pending x y ↔ ∃ q, (x, q) ∈ (p, r) :: frames ∧ y ∈ q := by
    intro x y
    constructor
    · rintro ⟨q, hq, hy⟩
      rw [hp] at hq
      rcases List.mem_cons.mp hq with e | hq
      · rw [(Prod.mk.inj e).2] at hy
        cases hy
      · exact ⟨q, hq, hy⟩
    · rintro ⟨q, hq, hy⟩
      exact ⟨q, hp ▸ List.mem_cons_of_mem _ hq, hy⟩
  refine
    { idx_lt := h.idx_lt, idx_inj := h.idx_inj, has_low := h.has_low,
      entered := h.entered, fresh := h.fresh, stack_sorted := h.stack_sorted,
      opened_sorted := hsorted,
      opened_stack := fun hx => h.opened_stack (hopened.mpr (Or.inr hx)),
      pending_edge := fun hx => h.pending_edge (hpend.mpr hx),
      seen := fun hx hxy => (h.seen hx hxy).imp id hpend.mp, closed := h.closed,
      down := h.down, up := ?_,
      low_le := fun hx => h.low_le (hopened.mpr (Or.inr hx)),
      low_sound := fun hx => h.low_sound (hopened.mpr (Or.inr hx)), low_bound := ?_,
      component := h.component, component_nodup := h.component_nodup,
      disjoint := h.disjoint }
  · intro x hx
    obtain ⟨u, hu, hle, hxu⟩ := h.up hx
    rcases hopened.mp hu with rfl | hu
    · -- what only reached the frame that ends reaches the one its low link names
      obtain ⟨w, hw, hlw, huw⟩ := h.low_sound hv
      obtain ⟨g, hg, hgw, hwg⟩ := h.up hw
      have hgu : s.idx g < s.idx u := by omega
      have hgx : s.idx g ≤ s.idx x := hgu.le.trans hle
      refine ⟨g, (hopened.mp hg).resolve_left ?_, hgx, hxu.trans (huw.trans hwg)⟩
      rintro rfl
      exact lt_irrefl _ hgu
    · exact ⟨u, hu, hle, hxu⟩
  · intro u x y hu hx hux hown hxy hy hyu
    by_cases hxv : s.idx x < s.idx v
    · refine (h.low_bound (hopened.mpr (Or.inr hu)) hx hux ?_ hxy hy hyu).imp hpend.mp id
      intro g hg hug
      rcases hopened.mp hg with rfl | hg
      · exact hxv
      · exact hown g hg hug
    · -- `x` was owned by the frame that ends, so `u` is the frame around it
      have hup : u = p := by
        rcases List.mem_cons.mp hu with hu | hu
        · exact hu
        · have hxp : s.idx x < s.idx p :=
            hown p List.mem_cons_self ((List.pairwise_cons.mp hsorted).1 u hu)
          exact absurd (hxp.trans (hbelow p List.mem_cons_self)) hxv
      subst hup
      have hyv : s.idx y < s.idx v := hyu.trans (hbelow u List.mem_cons_self)
      rcases h.low_bound hv hx (not_lt.mp hxv)
        (fun g hg hvg => absurd (h.opened_le hp hg) hvg.not_ge) hxy hy hyv with hpnd | hle
      · exact Or.inl (hpend.mp hpnd)
      · exact Or.inr (hpv.trans hle)

/-- The outermost frame heads a component when it ends. -/
theorem Inv.low_of_last (h : Inv succ s) {v : α} (hp : s.path = [(v, [])]) :
    s.lo v = s.idx v := by
  have hv := State.head_opened hp
  obtain ⟨w, hw, hlw, _⟩ := h.low_sound hv
  obtain ⟨g, hg, hgw, _⟩ := h.up hw
  rw [State.opened, hp] at hg
  obtain rfl := List.mem_singleton.mp hg
  have := h.low_le hv
  omega

/-! ## One round -/

/-- A frame with an edge left. -/
theorem Inv.step_edge (h : Inv succ s) {v w : α} {rest : List α}
    {frames : List (α × List α)} (hp : s.path = (v, w :: rest) :: frames) {s' : State α}
    (hs : step succ s = some s') :
    Inv succ s' ∧
      (s'.path = (v, rest) :: frames ∧ (∀ x, s'.Entered x ↔ s.Entered x) ∨
        ¬ s.Entered w ∧ s'.path = (w, succ w) :: (v, rest) :: frames ∧
          ∀ x, s'.Entered x ↔ s.Entered x ∨ x = w) := by
  have hv := State.head_opened hp
  have hvw : Edge succ v w :=
    h.pending_edge ⟨w :: rest, hp ▸ List.mem_cons_self, List.mem_cons_self⟩
  rw [step, hp] at hs
  cases hi : s.index.get? w with
  | none =>
      simp only [hi, Option.some.injEq] at hs
      subst hs
      have hw : ¬ s.Entered w := OMap.get?_eq_none.mp hi
      refine ⟨?_, Or.inr ⟨hw, rfl, entered_enter _ w⟩⟩
      have hent := h.enter hw fun a ha => (h.reaches_top hp ha).tail hvw
      refine hent.see [(w, succ w)]
        (by rw [Tarjan.enter, hp]; rfl) ((entered_enter s w w).mpr (Or.inr rfl)) ?_
      intro _ hlt
      have hne : v ≠ w := fun e => hw (e ▸ h.stack_entered (h.opened_stack hv))
      rw [idx_enter, if_pos rfl, idx_enter, if_neg hne] at hlt
      exact absurd hlt (h.stack_lt (h.opened_stack hv)).not_gt
  | some i =>
      have hw : s.Entered w := OMap.mem_keys.mpr ⟨i, hi⟩
      have hidx : s.idx w = i := by rw [State.idx, hi]; rfl
      simp only [hi] at hs
      split at hs
      · next hws =>
        cases hs
        refine ⟨?_, Or.inl ⟨rfl, fun _ => Iff.rfl⟩⟩
        refine (h.lower (v := v) (Or.inr ⟨w, hws, hidx, .single hvw⟩)).see
          [] hp hw ?_
        intro _ _
        rw [lo_lower, if_pos rfl]
        exact (min_le_right _ _).trans hidx.ge
      · next hws =>
        cases hs
        exact ⟨h.see [] hp hw fun hw' => absurd hw' hws,
          Or.inl ⟨rfl, fun _ => Iff.rfl⟩⟩

theorem lo_eq_idx (h : Inv succ s) {v : α} (hv : s.Entered v) :
    s.low.get? v = s.index.get? v ↔ s.lo v = s.idx v := by
  obtain ⟨i, hi⟩ := OMap.mem_keys.mp hv
  obtain ⟨n, hn⟩ := OMap.mem_keys.mp (h.has_low hv)
  rw [State.lo, State.idx, hi, hn]
  simp

/-- A frame with no edge left. -/
theorem Inv.step_end (h : Inv succ s) {v : α} {frames : List (α × List α)}
    (hp : s.path = (v, []) :: frames) {s' : State α} (hs : step succ s = some s') :
    Inv succ s' ∧ s'.path = frames ∧ ∀ x, s'.Entered x ↔ s.Entered x := by
  have hv := State.head_opened hp
  have hvs := h.opened_stack hv
  have hiff := lo_eq_idx h (h.stack_entered hvs)
  by_cases hlow : s.lo v = s.idx v
  · have hpop := h.pop hp hlow
    have hfin : finish { s with path := frames } v = { s with
        path := frames
        stack := (popTo v s.stack).2
        components := s.components ++ [(popTo v s.stack).1] } := by
      rw [finish, if_pos (hiff.mpr hlow)]
    rw [step, hp] at hs
    simp only [hfin] at hs
    cases frames with
    | nil =>
        cases hs
        exact ⟨hpop, rfl, fun _ => Iff.rfl⟩
    | cons f frames =>
        cases hs
        refine ⟨hpop.lower (Or.inl ?_), rfl, fun _ => Iff.rfl⟩
        -- the component is all above the parent, whose low link it leaves alone
        have hpar : f.1 ∈ s.opened := by rw [State.opened, hp]; simp
        have hsorted := h.opened_sorted
        rw [State.opened, hp] at hsorted
        have hlt := (List.pairwise_cons.mp hsorted).1 f.1 List.mem_cons_self
        calc s.lo f.1 ≤ s.idx f.1 := h.low_le hpar
          _ ≤ s.idx v := hlt.le
          _ = s.lo v := hlow.symm
  · have hfin : finish { s with path := frames } v = { s with path := frames } := by
      rw [finish, if_neg fun e => hlow (hiff.mp e)]
    rw [step, hp] at hs
    simp only [hfin] at hs
    cases frames with
    | nil => exact absurd (h.low_of_last hp) hlow
    | cons f frames =>
        obtain ⟨p, r⟩ := f
        cases hs
        have hpar : p ∈ s.opened := by rw [State.opened, hp]; simp
        obtain ⟨u, hu, hlu, hvu⟩ := h.low_sound hv
        have hlowered := h.lower (v := p) (n := s.lo v) (Or.inr ⟨u, hu, hlu,
          (h.down (h.opened_stack hpar) hvs (h.opened_le hp hpar)).trans hvu⟩)
        have hne : v ≠ p := by
          rintro rfl
          have hsorted := h.opened_sorted
          rw [State.opened, hp] at hsorted
          exact lt_irrefl _ ((List.pairwise_cons.mp hsorted).1 v List.mem_cons_self)
        refine ⟨hlowered.merge (v := v) hp ?_ ?_, rfl, fun _ => Iff.rfl⟩
        · rw [lo_lower, if_neg hne]
          exact hlow
        · rw [lo_lower, if_pos rfl, lo_lower, if_neg hne]
          exact min_le_right _ _

/-! ## The whole search -/

/-- What is left to do: a frame and its edges for every vertex not entered, and
what the frames have left. -/
def left (vertices : List α) (succ : α → List α) (s : State α) : Nat :=
  ((vertices.filter fun v => !s.index.has v).map fun v => (succ v).length + 1).sum +
    (s.path.map fun f => f.2.length + 1).sum

theorem sum_filter_insert {l : List α} {p q : α → Bool} {w : α} {f : α → Nat}
    (hw : w ∈ l) (hpw : p w = true) (hq : ∀ x, q x = true ↔ p x = true ∧ x ≠ w) :
    ((l.filter q).map f).sum + f w ≤ ((l.filter p).map f).sum := by
  have hmono : ∀ l : List α, ((l.filter q).map f).sum ≤ ((l.filter p).map f).sum := by
    intro l
    refine List.Sublist.sum_le_sum (List.Sublist.map f ?_) fun _ _ => Nat.zero_le _
    exact List.monotone_filter_right l fun x hx => ((hq x).mp hx).1
  induction l with
  | nil => cases hw
  | cons x l ih =>
      by_cases hx : x = w
      · subst hx
        have hqx : ¬ q x = true := fun h => ((hq x).mp h).2 rfl
        rw [List.filter_cons_of_neg hqx, List.filter_cons_of_pos hpw, List.map_cons,
          List.sum_cons]
        have := hmono l
        omega
      · have hwl := (List.mem_cons.mp hw).resolve_left (Ne.symm hx)
        have := ih hwl
        by_cases hpx : p x = true
        · rw [List.filter_cons_of_pos ((hq x).mpr ⟨hpx, hx⟩), List.filter_cons_of_pos hpx,
            List.map_cons, List.map_cons, List.sum_cons, List.sum_cons]
          omega
        · have hqx : ¬ q x = true := fun h => hpx ((hq x).mp h).1
          rwa [List.filter_cons_of_neg hqx, List.filter_cons_of_neg hpx]

theorem left_enter (succ : α → List α) {vertices : List α} {w : α} (hw : w ∈ vertices) (hnew : ¬ s.Entered w)
    {index : OMap α Nat} (hent : ∀ x, x ∈ index.keys ↔ s.Entered x ∨ x = w) :
    ((vertices.filter fun v => !index.has v).map fun v => (succ v).length + 1).sum +
        ((succ w).length + 1) ≤
      ((vertices.filter fun v => !s.index.has v).map fun v => (succ v).length + 1).sum := by
  refine sum_filter_insert (f := fun v => (succ v).length + 1) hw ?_ fun x => ?_
  · rw [Bool.not_eq_true', OMap.has_eq_false]
    exact hnew
  · rw [Bool.not_eq_true', Bool.not_eq_true', OMap.has_eq_false, OMap.has_eq_false, hent,
      not_or]
    rfl

variable {vertices : List α}

/-- The invariant with what has been entered bounded on both sides. -/
structure Within (vertices : List α) (succ : α → List α) (known : Set α) (s : State α) :
    Prop where
  inv : Inv succ s
  inside : ∀ {v}, s.Entered v → v ∈ vertices
  keeps : ∀ {v}, v ∈ known → s.Entered v

theorem Within.step {known : Set α} (hclosed : ∀ v ∈ vertices, ∀ w ∈ succ v, w ∈ vertices)
    (h : Within vertices succ known s) {s' : State α} (hs : step succ s = some s') :
    Within vertices succ known s' ∧ left vertices succ s' < left vertices succ s := by
  have hsame : ∀ {t : State α}, (∀ x, t.Entered x ↔ s.Entered x) →
      ∀ x, (!t.index.has x) = !s.index.has x := by
    intro t ht x
    congr 1
    rw [Bool.eq_iff_iff, OMap.has_eq_true, OMap.has_eq_true]
    exact ht x
  match hp : s.path with
  | [] => rw [Tarjan.step, hp] at hs; cases hs
  | (v, []) :: frames =>
      obtain ⟨hinv, hpath, hent⟩ := h.inv.step_end hp hs
      refine ⟨⟨hinv, fun hx => h.inside ((hent _).mp hx),
        fun hx => (hent _).mpr (h.keeps hx)⟩, ?_⟩
      simp only [left, hsame hent, hpath, hp, List.map_cons, List.sum_cons]
      omega
  | (v, w :: rest) :: frames =>
      have hvw : Edge succ v w :=
        h.inv.pending_edge ⟨w :: rest, hp ▸ List.mem_cons_self, List.mem_cons_self⟩
      have hv : v ∈ vertices := h.inside
        (h.inv.stack_entered (h.inv.opened_stack (State.head_opened hp)))
      obtain ⟨hinv, ⟨hpath, hent⟩ | ⟨hw, hpath, hent⟩⟩ := h.inv.step_edge hp hs
      · refine ⟨⟨hinv, fun hx => h.inside ((hent _).mp hx),
          fun hx => (hent _).mpr (h.keeps hx)⟩, ?_⟩
        simp only [left, hsame hent, hpath, hp, List.map_cons, List.sum_cons,
          List.length_cons]
        omega
      · have hwv : w ∈ vertices := hclosed v hv w hvw
        refine ⟨⟨hinv, ?_, fun hx => (hent _).mpr (Or.inl (h.keeps hx))⟩, ?_⟩
        · intro x hx
          rcases (hent x).mp hx with hx | rfl
          · exact h.inside hx
          · exact hwv
        · have := left_enter succ hwv hw hent
          simp only [left, hpath, hp, List.map_cons, List.sum_cons, List.length_cons]
          omega

theorem visit_spec (hclosed : ∀ v ∈ vertices, ∀ w ∈ succ v, w ∈ vertices) {known : Set α}
    (h : Within vertices succ known s) (hp : s.path = []) {root : α}
    (hroot : root ∈ vertices) :
    Within vertices succ (insert root known) (visit vertices succ s root) ∧
      (visit vertices succ s root).path = [] := by
  rw [visit]
  split
  · next hr =>
    rw [OMap.has_eq_true] at hr
    refine ⟨⟨h.inv, h.inside, ?_⟩, hp⟩
    rintro x (rfl | hx)
    · exact hr
    · exact h.keeps hx
  · next hr =>
    rw [OMap.has_eq_true] at hr
    have hstack := h.inv.stack_nil hp
    have hstart : Within vertices succ (insert root known) (enter succ s root) := by
      refine ⟨h.inv.enter hr fun a ha => ?_, ?_, ?_⟩
      · rw [hstack] at ha
        cases ha
      · intro x hx
        rcases (entered_enter s root x).mp hx with hx | rfl
        · exact h.inside hx
        · exact hroot
      · rintro x (rfl | hx)
        · exact (entered_enter s x x).mpr (Or.inr rfl)
        · exact (entered_enter s root x).mpr (Or.inl (h.keeps hx))
    have hfuel : left vertices succ (enter succ s root) ≤ fuel vertices succ := by
      have hle := left_enter succ hroot hr (@entered_enter _ _ succ s root)
      have htotal : ((vertices.filter fun v => !s.index.has v).map
          fun v => (succ v).length + 1).sum ≤ fuel vertices succ :=
        List.Sublist.sum_le_sum (List.Sublist.map _ List.filter_sublist)
          fun _ _ => Nat.zero_le _
      have hpath : (enter succ s root).path = [(root, succ root)] := by
        rw [enter, hp]
      simp only [left, hpath, List.map_cons, List.map_nil, List.sum_cons, List.sum_nil]
      omega
    obtain ⟨hend, hnone⟩ := Loop.run_spec
      (Within vertices succ (insert root known)) (left vertices succ)
      (fun _ _ hs hstep => hs.step hclosed hstep) hstart hfuel
    refine ⟨hend, ?_⟩
    generalize Loop.run (Tarjan.step succ) (fuel vertices succ) (enter succ s root) = t
      at hend hnone
    cases hq : t.path with
    | nil => rfl
    | cons frame frames =>
        obtain ⟨v, unseen⟩ := frame
        rw [Tarjan.step, hq] at hnone
        cases unseen with
        | nil => cases frames <;> cases hnone
        | cons w rest =>
            simp only at hnone
            split at hnone
            · cases hnone
            · split at hnone <;> cases hnone

end Steps

/-- The components partition the vertices into the classes of mutual
reachability. -/
structure Partition (vertices : List α) (succ : α → List α) (components : List (List α)) :
    Prop where
  mem : ∀ {v}, v ∈ vertices ↔ ∃ c ∈ components, v ∈ c
  component : ∀ {c a b}, c ∈ components → a ∈ c → (b ∈ c ↔ Path succ a b ∧ Path succ b a)
  nodup : ∀ {c}, c ∈ components → c.Nodup ∧ c ≠ []
  disjoint : components.Pairwise List.Disjoint

/-- Searches from one root after the other, each of which ends with no frame left. -/
theorem Within.visits {vertices : List α} {succ : α → List α}
    (hclosed : ∀ v ∈ vertices, ∀ w ∈ succ v, w ∈ vertices) {roots : List α} {known : Set α}
    {s : State α} (hr : ∀ r ∈ roots, r ∈ vertices) (h : Within vertices succ known s)
    (hp : s.path = []) :
    Within vertices succ (known ∪ {r | r ∈ roots}) (roots.foldl (visit vertices succ) s) ∧
      (roots.foldl (visit vertices succ) s).path = [] := by
  induction roots generalizing known s with
  | nil =>
      refine ⟨⟨h.inv, h.inside, ?_⟩, hp⟩
      rintro x (hx | hx)
      · exact h.keeps hx
      · cases hx
  | cons r roots ih =>
      obtain ⟨hv, hvp⟩ := visit_spec hclosed h hp (hr r List.mem_cons_self)
      obtain ⟨he, hep⟩ := ih (fun x hx => hr x (List.mem_cons_of_mem _ hx)) hv hvp
      refine ⟨⟨he.inv, he.inside, ?_⟩, hep⟩
      rintro x (hx | hx)
      · exact he.keeps (Or.inl (Or.inr hx))
      · rcases List.mem_cons.mp hx with rfl | hx
        · exact he.keeps (Or.inl (Or.inl rfl))
        · exact he.keeps (Or.inr hx)

theorem within_init {vertices : List α} {succ : α → List α} :
    Within vertices succ ∅ (init : State α) :=
  ⟨inv_init, fun h => by simp [init, State.Entered, OMap.keys, OMap.empty] at h,
    fun h => absurd h (Set.notMem_empty _)⟩

/-- Tarjan's algorithm finds the strongly connected components. -/
theorem components_spec {vertices : List α} {succ : α → List α}
    (hclosed : ∀ v ∈ vertices, ∀ w ∈ succ v, w ∈ vertices) :
    Partition vertices succ (components vertices succ) := by
  obtain ⟨hw, hp⟩ := within_init.visits hclosed (fun _ h => h) rfl
  have hstack := hw.inv.stack_nil hp
  refine ⟨?_, hw.inv.component, hw.inv.component_nodup, hw.inv.disjoint⟩
  intro v
  have hent := hw.inv.entered (v := v)
  rw [hstack] at hent
  constructor
  · intro hv
    exact (hent.mp (hw.keeps (Or.inr hv))).resolve_left List.not_mem_nil
  · intro hd
    exact hw.inside (hent.mpr (Or.inr hd))

/-- Every search ends because it has nothing left to see. -/
theorem visits_end {vertices : List α} {succ : α → List α}
    (hclosed : ∀ v ∈ vertices, ∀ w ∈ succ v, w ∈ vertices) {before after : List α} {root : α}
    (hsplit : vertices = before ++ root :: after) :
    step succ (visit vertices succ (before.foldl (visit vertices succ) init) root) = none := by
  have hmem : ∀ r ∈ before ++ [root], r ∈ vertices := by
    intro r hr
    rw [hsplit]
    simp only [List.mem_append, List.mem_cons] at hr ⊢
    tauto
  have hp := (within_init.visits hclosed hmem rfl).2
  rw [List.foldl_append, List.foldl_cons, List.foldl_nil] at hp
  rw [step, hp]

end Tarjan
