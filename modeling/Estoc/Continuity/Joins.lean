import Mathlib.Algebra.Group.Action.Defs
import Mathlib.Algebra.Order.BigOperators.Group.Finset
import Mathlib.Algebra.Order.Ring.Nat
import Estoc.Continuity.Graph

/-!
# The join closure

What `close` leaves behind, for a graph with any edges in it. Sound: whatever
holds of the declared edges and is kept by the two rules, that supports of one
edge add up and that a local and a peer edge leaving one pair join, holds of
every edge there is afterwards. Complete: every such pair of edges has been
joined, with everything either of the two rests on. And the loop ends: each
edge of the span is queued once for being new and once for each identity its
support may still gain.

The invariant of the loop is `Closing`: a pair of edges that could be joined is
joined as it stands, or one of the two is still queued. An edge that gains
support is queued again, which is what keeps the joined pairs joined *as they
stand*.
-/

namespace Estoc.Continuity

set_option linter.unusedSectionVars false

variable {ι : Type} [DecidableEq ι]

namespace Graph

theorem mem_edges {g : Graph ι} {e : Edge ι} :
    e ∈ g.edges ↔ g.out.get? (e.from, e.to) = some e.toLabel := by
  rw [edges, List.mem_map, ← OMap.mem_entries]
  constructor
  · rintro ⟨⟨⟨a, b⟩, l⟩, h, rfl⟩
    exact h
  · intro h
    exact ⟨_, h, rfl⟩

theorem mem_from {g : Graph ι} {c : Channel} {e : Edge ι} :
    e ∈ g.from c ↔ e ∈ g.edges ∧ e.from = c := by
  rw [«from», List.mem_filter, decide_eq_true_eq]

theorem mem_to {g : Graph ι} {c : Channel} {e : Edge ι} :
    e ∈ g.to c ↔ e ∈ g.edges ∧ e.to = c := by
  rw [«to», List.mem_filter, decide_eq_true_eq]

theorem edge?_eq_some {g : Graph ι} {a b : Channel} {e : Edge ι} :
    g.edge? a b = some e ↔ e ∈ g.edges ∧ e.from = a ∧ e.to = b := by
  rw [edge?, Option.map_eq_some_iff, mem_edges]
  constructor
  · rintro ⟨l, h, rfl⟩
    exact ⟨h, rfl, rfl⟩
  · rintro ⟨h, rfl, rfl⟩
    exact ⟨_, h, rfl⟩

theorem hasOutgoing_iff {g : Graph ι} {c : Channel} :
    g.hasOutgoing c = true ↔ ∃ e ∈ g.edges, e.from = c := by
  rw [hasOutgoing, Bool.not_eq_true', List.isEmpty_eq_false_iff_exists_mem]
  simp only [mem_from]

/-! ## What an addition does -/

@[simp] theorem vertex_out (g : Graph ι) (c : Channel) : (g.vertex c).out = g.out := by
  rw [vertex]; split <;> rfl

@[simp] theorem vertex_queue (g : Graph ι) (c : Channel) : (g.vertex c).queue = g.queue := by
  rw [vertex]; split <;> rfl

@[simp] theorem vertex_admits (g : Graph ι) (c : Channel) : (g.vertex c).admits = g.admits := by
  rw [vertex]; split <;> rfl

@[simp] theorem vertex_collisions (g : Graph ι) (c : Channel) :
    (g.vertex c).identityCollisions = g.identityCollisions := by
  rw [vertex]; split <;> rfl

@[simp] theorem mem_vertex {g : Graph ι} {c x : Channel} :
    x ∈ (g.vertex c).vertices ↔ x ∈ g.vertices ∨ x = c := by
  rw [vertex]
  split
  · next h => exact ⟨Or.inl, fun hx => hx.elim id fun e => e ▸ h⟩
  · simp

theorem nodup_vertex {g : Graph ι} {c : Channel} (h : g.vertices.Nodup) :
    (g.vertex c).vertices.Nodup := by
  rw [vertex]
  split
  · exact h
  · next hc =>
    exact List.Nodup.append h (List.nodup_singleton c)
      (by simpa [List.disjoint_singleton] using hc)

/-- The label an addition leaves at an edge that had the label `l`. -/
def grown (l : Option (Label ι)) (side : Side) (support : Finset ι) (derived : Bool) :
    Label ι :=
  match l with
  | none => ⟨side, support, derived⟩
  | some l => ⟨l.replaces, l.support ∪ support, l.derived && derived⟩

/-- Whether an addition queues an edge that had the label `l`. -/
def grows (l : Option (Label ι)) (support : Finset ι) : Prop :=
  ∀ l', l = some l' → l'.support.card < (l'.support ∪ support).card

instance (l : Option (Label ι)) (support : Finset ι) : Decidable (grows l support) :=
  match l with
  | none => isTrue fun _ h => nomatch h
  | some l' =>
    if h : l'.support.card < (l'.support ∪ support).card then
      isTrue fun _ e => by cases e; exact h
    else isFalse fun hg => h (hg l' rfl)

theorem grows_none {support : Finset ι} : grows none support := fun _ h => nomatch h

theorem grows_some {l : Label ι} {support : Finset ι} :
    grows (some l) support ↔ l.support.card < (l.support ∪ support).card :=
  ⟨fun h => h l rfl, fun h _ e => by cases e; exact h⟩

/-- What does not grow had the support already. -/
theorem subset_of_not_grows {l : Label ι} {support : Finset ι}
    (h : ¬ grows (some l) support) : l.support ∪ support = l.support := by
  rw [grows_some, not_lt] at h
  exact (Finset.eq_of_subset_of_card_le Finset.subset_union_left h).symm

section Add

variable {g : Graph ι} {a b : Channel} {side : Side} {support : Finset ι} {derived : Bool}

theorem add_of_not_admits (h : ¬ (g.admits a = true ∧ g.admits b = true)) :
    g.add a b side support derived = g := by
  rw [add, if_pos]
  by_cases ha : g.admits a = true <;> simp_all

private theorem not_refused (h : g.admits a = true ∧ g.admits b = true) :
    ¬ (!g.admits a || !g.admits b) = true := by
  rw [h.1, h.2]; decide

theorem add_out (h : g.admits a = true ∧ g.admits b = true) :
    (g.add a b side support derived).out =
      g.out.set (a, b) (grown (g.out.get? (a, b)) side support derived) := by
  rw [add, if_neg (not_refused h)]
  simp only [vertex_out]
  split <;> rename_i he <;> rw [he] <;> rfl

theorem add_queue (h : g.admits a = true ∧ g.admits b = true) :
    (g.add a b side support derived).queue =
      if grows (g.out.get? (a, b)) support then (a, b) :: g.queue else g.queue := by
  rw [add, if_neg (not_refused h)]
  simp only [vertex_out, vertex_queue]
  split <;> rename_i he <;> rw [he]
  · rw [if_pos grows_none]
  · simp only [grows_some]

theorem add_vertices (h : g.admits a = true ∧ g.admits b = true) (x : Channel) :
    x ∈ (g.add a b side support derived).vertices ↔ x ∈ g.vertices ∨ x = a ∨ x = b := by
  rw [add, if_neg (not_refused h)]
  simp only [vertex_out]
  split <;> simp [or_assoc]

theorem add_nodup (h : g.vertices.Nodup) :
    (g.add a b side support derived).vertices.Nodup := by
  by_cases ha : g.admits a = true ∧ g.admits b = true
  · rw [add, if_neg (not_refused ha)]
    simp only [vertex_out]
    split <;> exact nodup_vertex (nodup_vertex h)
  · rwa [add_of_not_admits ha]

@[simp] theorem add_admits : (g.add a b side support derived).admits = g.admits := by
  by_cases h : g.admits a = true ∧ g.admits b = true
  · rw [add, if_neg (not_refused h)]
    simp only [vertex_out]
    split <;> simp
  · rw [add_of_not_admits h]

@[simp] theorem add_collisions :
    (g.add a b side support derived).identityCollisions = g.identityCollisions := by
  by_cases h : g.admits a = true ∧ g.admits b = true
  · rw [add, if_neg (not_refused h)]
    simp only [vertex_out]
    split <;> simp
  · rw [add_of_not_admits h]

end Add

/-- Nothing is lost, and what is new or gained support is queued. -/
structure Grows (g g' : Graph ι) : Prop where
  admits : g'.admits = g.admits
  vertices : ∀ {c}, c ∈ g.vertices → c ∈ g'.vertices
  queue : ∀ {k}, k ∈ g.queue → k ∈ g'.queue
  edge : ∀ {k l}, g.out.get? k = some l → ∃ l', g'.out.get? k = some l' ∧
    l'.replaces = l.replaces ∧ l.support ⊆ l'.support ∧
    (l'.support = l.support ∨ k ∈ g'.queue)
  fresh : ∀ {k}, k ∈ g'.out.keys → k ∈ g.out.keys ∨ k ∈ g'.queue

theorem Grows.refl (g : Graph ι) : Grows g g :=
  ⟨rfl, id, id, fun h => ⟨_, h, rfl, Finset.Subset.refl _, Or.inl rfl⟩, Or.inl⟩

theorem Grows.trans {g g' g'' : Graph ι} (h : Grows g g') (h' : Grows g' g'') :
    Grows g g'' where
  admits := h'.admits.trans h.admits
  vertices hc := h'.vertices (h.vertices hc)
  queue hk := h'.queue (h.queue hk)
  edge hk := by
    obtain ⟨l', hl', hr', hs', hq'⟩ := h.edge hk
    obtain ⟨l'', hl'', hr'', hs'', hq''⟩ := h'.edge hl'
    refine ⟨l'', hl'', hr''.trans hr', hs'.trans hs'', ?_⟩
    rcases hq'' with e'' | hq''
    · rcases hq' with e' | hq'
      · exact Or.inl (e''.trans e')
      · exact Or.inr (h'.queue hq')
    · exact Or.inr hq''
  fresh hk := by
    rcases h'.fresh hk with hk | hk
    · exact (h.fresh hk).imp id h'.queue
    · exact Or.inr hk

theorem grows_add (g : Graph ι) (a b : Channel) (side : Side) (support : Finset ι)
    (derived : Bool) : Grows g (g.add a b side support derived) := by
  by_cases h : g.admits a = true ∧ g.admits b = true
  · refine ⟨add_admits, fun hc => (add_vertices h _).mpr (Or.inl hc), ?_, ?_, ?_⟩
    · intro k hk
      rw [add_queue h]
      split
      · exact List.mem_cons_of_mem _ hk
      · exact hk
    · intro k l hl
      rw [add_out h, OMap.get?_set]
      split
      · next e =>
        subst e
        refine ⟨_, rfl, ?_⟩
        rw [add_queue h, hl]
        refine ⟨rfl, Finset.subset_union_left, ?_⟩
        by_cases hg : grows (some l) support
        · rw [if_pos hg]
          exact Or.inr List.mem_cons_self
        · exact Or.inl (subset_of_not_grows hg)
      · exact ⟨l, hl, rfl, Finset.Subset.refl _, Or.inl rfl⟩
    · intro k hk
      rw [add_out h, OMap.mem_keys_set] at hk
      rcases hk with hk | rfl
      · exact Or.inl hk
      · cases hl : g.out.get? (a, b) with
        | none =>
            rw [add_queue h, hl, if_pos grows_none]
            exact Or.inr List.mem_cons_self
        | some l => exact Or.inl (OMap.mem_keys.mpr ⟨l, hl⟩)
  · rw [add_of_not_admits h]
    exact Grows.refl g

/-- The edge asked for is there afterwards, with at least that support. -/
theorem add_has {g : Graph ι} {a b : Channel} (side : Side) (support : Finset ι)
    (derived : Bool) (ha : g.admits a = true) (hb : g.admits b = true) :
    ∃ l, (g.add a b side support derived).out.get? (a, b) = some l ∧
      support ⊆ l.support := by
  rw [add_out ⟨ha, hb⟩, OMap.get?_set_self]
  refine ⟨_, rfl, ?_⟩
  cases g.out.get? (a, b) with
  | none => exact Finset.Subset.refl _
  | some l => exact Finset.subset_union_right

theorem grows_join (g : Graph ι) (ours peer : Edge ι) : Grows g (g.join ours peer) := by
  rw [join]
  simp only
  split
  · exact ⟨rfl, id, id, fun h => ⟨_, h, rfl, Finset.Subset.refl _, Or.inl rfl⟩, Or.inl⟩
  · exact (grows_add _ _ _ _ _ _).trans (grows_add _ _ _ _ _ _)

/-! ## Completeness -/

/-- The join of a local edge `a → b` with a peer edge `a → d` is there, resting
on at least `support`. -/
def Joined (g : Graph ι) (a b d : Channel) (support : Finset ι) : Prop :=
  if b.localDid = d.peerDid then
    ∃ c, g.identityCollisions.get? [a, b, d] = some c ∧ support ⊆ c.support
  else
    ∀ c ∈ [b, d], g.admits c = true → g.admits ⟨b.localDid, d.peerDid⟩ = true →
      ∃ l, g.out.get? (c, ⟨b.localDid, d.peerDid⟩) = some l ∧ support ⊆ l.support

theorem joined_join {g : Graph ι} {ours peer : Edge ι} :
    Joined (g.join ours peer) ours.from ours.to peer.to (ours.support ∪ peer.support) := by
  rw [Joined, join]
  simp only
  split
  · rw [OMap.get?_set_self]
    exact ⟨_, rfl, Finset.Subset.refl _⟩
  · intro c hc hadm hjoined
    rw [add_admits, add_admits] at hadm hjoined
    rcases List.mem_cons.mp hc with rfl | hc
    · obtain ⟨l, hl, hs⟩ := add_has .peer (ours.support ∪ peer.support) true hadm hjoined
      obtain ⟨l', hl', _, hs', _⟩ := (grows_add _ peer.to
        ⟨ours.to.localDid, peer.to.peerDid⟩ .local
        (ours.support ∪ peer.support) true).edge hl
      exact ⟨l', hl', hs.trans hs'⟩
    · obtain rfl := List.mem_singleton.mp hc
      exact add_has _ _ _ (by rwa [add_admits]) (by rwa [add_admits])

/-- A join made stays made, unless the very pair is joined again, with less. -/
theorem Joined.join {g : Graph ι} {a b d : Channel} {s : Finset ι} (h : Joined g a b d s)
    {ours peer : Edge ι} (hle : ours.from = a → ours.to = b → peer.to = d →
      s ⊆ ours.support ∪ peer.support) : Joined (g.join ours peer) a b d s := by
  have hg := grows_join g ours peer
  rw [Joined] at h ⊢
  split at h
  · next he =>
    rw [if_pos he]
    obtain ⟨c, hc, hs⟩ := h
    rw [Graph.join]
    simp only
    split
    · rw [OMap.get?_set]
      split
      · next e =>
        simp only [List.cons.injEq, and_true] at e
        exact ⟨_, rfl, hle e.1.symm e.2.1.symm e.2.2.symm⟩
      · exact ⟨c, hc, hs⟩
    · rw [add_collisions, add_collisions]
      exact ⟨c, hc, hs⟩
  · next he =>
    rw [if_neg he]
    intro c hc hadm hjoined
    rw [hg.admits] at hadm hjoined
    obtain ⟨l, hl, hs⟩ := h c hc hadm hjoined
    obtain ⟨l', hl', _, hs', _⟩ := hg.edge hl
    exact ⟨l', hl', hs.trans hs'⟩

/-- Every local edge and peer edge leaving one pair are joined as they stand, or
one of them is queued, or `waits` excuses the two. -/
def Closing (waits : Channel × Channel → Channel × Channel → Prop) (g : Graph ι) : Prop :=
  ∀ a b d l m, g.out.get? (a, b) = some l → l.replaces = .local →
    g.out.get? (a, d) = some m → m.replaces = .peer →
    (a, b) ∈ g.queue ∨ (a, d) ∈ g.queue ∨ waits (a, b) (a, d) ∨
      Joined g a b d (l.support ∪ m.support)

/-- A join keeps what is closed closed, and settles the pair it joins. -/
theorem Closing.join {waits waits' : Channel × Channel → Channel × Channel → Prop}
    {g : Graph ι} (h : Closing waits g) {ours peer : Edge ι} (ho : ours ∈ g.edges)
    (hp : peer ∈ g.edges) (hfrom : ours.from = peer.from)
    (hwaits : ∀ a b d l, g.out.get? (a, b) = some l → l.replaces = .local →
      waits (a, b) (a, d) → waits' (a, b) (a, d) ∨
        ours.from = a ∧ ours.to = b ∧ peer.to = d) :
    Closing waits' (g.join ours peer) := by
  have hg := grows_join g ours peer
  rw [mem_edges] at ho hp
  rw [← hfrom] at hp
  -- the pair itself, its supports read where it stands
  have hsupport : ∀ {a b d l m}, g.out.get? (a, b) = some l → g.out.get? (a, d) = some m →
      ours.from = a → ours.to = b → peer.to = d →
      l.support ∪ m.support = ours.support ∪ peer.support := by
    rintro a b d l m hl hm rfl rfl rfl
    rw [ho] at hl
    rw [hp] at hm
    cases hl; cases hm; rfl
  intro a b d l' m' hl' hls hm' hms
  -- both edges were there, or one of them is new and queued
  rcases hg.fresh (OMap.mem_keys.mpr ⟨l', hl'⟩) with hk | hk
  · rcases hg.fresh (OMap.mem_keys.mpr ⟨m', hm'⟩) with hj | hj
    · obtain ⟨l, hl⟩ := OMap.mem_keys.mp hk
      obtain ⟨m, hm⟩ := OMap.mem_keys.mp hj
      obtain ⟨l'', hl'', hlr, _, hlq⟩ := hg.edge hl
      obtain ⟨m'', hm'', hmr, _, hmq⟩ := hg.edge hm
      rw [hl'] at hl''
      rw [hm'] at hm''
      obtain rfl := Option.some.inj hl''
      obtain rfl := Option.some.inj hm''
      rcases hlq with hle | hlq
      · rcases hmq with hme | hmq
        · -- neither gained support: what is to be joined is what it was
          rw [hle, hme]
          have hlocal := hlr.symm.trans hls
          rcases h a b d l m hl hlocal hm (hmr.symm.trans hms) with hq | hq | hw | hj
          · exact Or.inl (hg.queue hq)
          · exact Or.inr (Or.inl (hg.queue hq))
          · rcases hwaits a b d l hl hlocal hw with hw | ⟨ha, hb, hd⟩
            · exact Or.inr (Or.inr (Or.inl hw))
            · refine Or.inr (Or.inr (Or.inr ?_))
              rw [hsupport hl hm ha hb hd, ← ha, ← hb, ← hd]
              exact joined_join
          · refine Or.inr (Or.inr (Or.inr (hj.join fun ha hb hd => ?_)))
            rw [hsupport hl hm ha hb hd]
        · exact Or.inr (Or.inl hmq)
      · exact Or.inl hlq
    · exact Or.inr (Or.inl hj)
  · exact Or.inl hk

/-- Two edges met are joined, the local one first, when they replace opposite
sides. -/
theorem pair_cases (g : Graph ι) (a b d : Channel) :
    (g.pair (a, b) (a, d) = g ∧ ∀ l m, g.out.get? (a, b) = some l →
        g.out.get? (a, d) = some m → m.replaces = l.replaces) ∨
      ∃ ours peer, ours ∈ g.edges ∧ peer ∈ g.edges ∧ ours.from = a ∧ peer.from = a ∧
        ours.replaces = .local ∧ peer.replaces = .peer ∧
        (ours.to = b ∧ peer.to = d ∨ ours.to = d ∧ peer.to = b) ∧
        g.pair (a, b) (a, d) = g.join ours peer := by
  rw [pair, edge?, edge?]
  cases hl : g.out.get? (a, b) with
  | none => exact Or.inl ⟨rfl, fun _ _ h _ => nomatch h⟩
  | some l =>
      cases hm : g.out.get? (a, d) with
      | none => exact Or.inl ⟨rfl, fun _ _ _ h => nomatch h⟩
      | some m =>
          simp only [Option.map_some]
          have hle : ({ l with «from» := a, «to» := b } : Edge ι) ∈ g.edges := mem_edges.mpr hl
          have hme : ({ m with «from» := a, «to» := d } : Edge ι) ∈ g.edges := mem_edges.mpr hm
          by_cases hs : m.replaces = l.replaces
          · refine Or.inl ⟨if_pos hs, fun l' m' hl' hm' => ?_⟩
            cases hl'; cases hm'
            exact hs
          · rw [if_neg hs]
            by_cases hll : l.replaces = .local
            · rw [if_pos hll]
              refine Or.inr ⟨_, _, hle, hme, rfl, rfl, hll, ?_, Or.inl ⟨rfl, rfl⟩, rfl⟩
              cases hmr : m.replaces with
              | «local» => exact absurd (hmr.trans hll.symm) hs
              | peer => rfl
            · rw [if_neg hll]
              have hlp : l.replaces = .peer := by
                cases hlr : l.replaces with
                | «local» => exact absurd hlr hll
                | peer => rfl
              refine Or.inr ⟨_, _, hme, hle, rfl, rfl, ?_, hlp, Or.inr ⟨rfl, rfl⟩, rfl⟩
              cases hmr : m.replaces with
              | «local» => rfl
              | peer => exact absurd (hmr.trans hlp.symm) hs

theorem grows_pair (g : Graph ι) (a b d : Channel) : Grows g (g.pair (a, b) (a, d)) := by
  rcases pair_cases g a b d with ⟨h, _⟩ | ⟨ours, peer, _, _, _, _, _, _, _, h⟩
  · rw [h]; exact Grows.refl g
  · rw [h]; exact grows_join g ours peer

/-- The pairs the queued edge `key` has still to be met in. -/
def Unmet (key : Channel × Channel) (rest : List (Channel × Channel))
    (k p : Channel × Channel) : Prop := k = key ∧ p ∈ rest ∨ p = key ∧ k ∈ rest

/-- Meeting one more edge leaving the pair. -/
theorem Closing.pair {g : Graph ι} {a b d : Channel} {rest : List (Channel × Channel)}
    (h : Closing (Unmet (a, b) ((a, d) :: rest)) g) :
    Closing (Unmet (a, b) rest) (g.pair (a, b) (a, d)) := by
  -- a pair excused so far is excused still, or is the one met now
  have hunmet : ∀ {k p}, Unmet (a, b) ((a, d) :: rest) k p → Unmet (a, b) rest k p ∨
      (k = (a, b) ∧ p = (a, d)) ∨ (p = (a, b) ∧ k = (a, d)) := by
    rintro k p (⟨hk, hp⟩ | ⟨hp, hk⟩)
    · rcases List.mem_cons.mp hp with hp | hp
      · exact Or.inr (Or.inl ⟨hk, hp⟩)
      · exact Or.inl (Or.inl ⟨hk, hp⟩)
    · rcases List.mem_cons.mp hk with hk | hk
      · exact Or.inr (Or.inr ⟨hp, hk⟩)
      · exact Or.inl (Or.inr ⟨hp, hk⟩)
  rcases pair_cases g a b d with ⟨he, hsame⟩ | ⟨ours, peer, ho, hp, hof, hpf, hol, hpp, hto, he⟩
  · rw [he]
    intro x y z l m hl hls hm hms
    rcases h x y z l m hl hls hm hms with hq | hq | hw | hj
    · exact Or.inl hq
    · exact Or.inr (Or.inl hq)
    · rcases hunmet hw with hw | ⟨hk, hp⟩ | ⟨hp, hk⟩
      · exact Or.inr (Or.inr (Or.inl hw))
      · have := hsame l m (hk ▸ hl) (hp ▸ hm)
        exact absurd (hms.symm.trans (this.trans hls)) (by decide)
      · have := hsame m l (hp ▸ hm) (hk ▸ hl)
        exact absurd (hls.symm.trans (this.trans hms)).symm (by decide)
    · exact Or.inr (Or.inr (Or.inr hj))
  · rw [he]
    refine h.join ho hp (hof.trans hpf.symm) fun x y z l hl hls hw => ?_
    rw [mem_edges, hof] at ho
    rw [mem_edges, hpf] at hp
    -- the two met are the local edge and the peer edge, whichever was queued
    have hboth : ∀ {y' z' : Channel}, g.out.get? (a, y') = some l →
        (y' = b ∧ z' = d ∨ y' = d ∧ z' = b) →
        ours.from = a ∧ ours.to = y' ∧ peer.to = z' := by
      rintro y' z' hl (⟨rfl, rfl⟩ | ⟨rfl, rfl⟩)
      · rcases hto with ⟨hy, hz⟩ | ⟨hy, hz⟩
        · exact ⟨hof, hy, hz⟩
        · rw [hz, hl] at hp
          cases hp
          exact absurd (hls.symm.trans hpp) (by decide)
      · rcases hto with ⟨hy, hz⟩ | ⟨hy, hz⟩
        · rw [hz, hl] at hp
          cases hp
          exact absurd (hls.symm.trans hpp) (by decide)
        · exact ⟨hof, hy, hz⟩
    rcases hunmet hw with hw | ⟨hk, hp⟩ | ⟨hp, hk⟩
    · exact Or.inl hw
    · obtain ⟨rfl, rfl⟩ := Prod.mk.inj hk
      obtain ⟨_, rfl⟩ := Prod.mk.inj hp
      exact Or.inr (hboth hl (Or.inl ⟨rfl, rfl⟩))
    · obtain ⟨rfl, rfl⟩ := Prod.mk.inj hp
      obtain ⟨_, rfl⟩ := Prod.mk.inj hk
      exact Or.inr (hboth hl (Or.inr ⟨rfl, rfl⟩))

theorem Closing.meet {a b : Channel} :
    ∀ {rest : List (Channel × Channel)} {g : Graph ι}, (∀ p ∈ rest, p.1 = a) →
      Closing (Unmet (a, b) rest) g →
      Closing (fun _ _ => False) (rest.foldl (fun g p => g.pair (a, b) p) g)
  | [], g, _, h => by
      intro x y z l m hl hls hm hms
      rcases h x y z l m hl hls hm hms with hq | hq | hw | hj
      · exact Or.inl hq
      · exact Or.inr (Or.inl hq)
      · rcases hw with ⟨_, hp⟩ | ⟨_, hk⟩
        · exact absurd hp List.not_mem_nil
        · exact absurd hk List.not_mem_nil
      · exact Or.inr (Or.inr (Or.inr hj))
  | p :: rest, g, hrest, h => by
      obtain ⟨a', d⟩ := p
      obtain rfl : a' = a := hrest (a', d) List.mem_cons_self
      have htail : ∀ p ∈ rest, p.1 = a' := fun p hp => hrest p (List.mem_cons_of_mem _ hp)
      rw [List.foldl_cons]
      exact Closing.meet htail h.pair

theorem grows_meet {a b : Channel} :
    ∀ {rest : List (Channel × Channel)} {g : Graph ι}, (∀ p ∈ rest, p.1 = a) →
      Grows g (rest.foldl (fun g p => g.pair (a, b) p) g)
  | [], g, _ => Grows.refl g
  | p :: rest, g, hrest => by
      obtain ⟨a', d⟩ := p
      obtain rfl : a' = a := hrest (a', d) List.mem_cons_self
      have htail : ∀ p ∈ rest, p.1 = a' := fun p hp => hrest p (List.mem_cons_of_mem _ hp)
      exact (grows_pair g a' b d).trans (grows_meet htail)

/-- The edges leaving a pair, as their ends. -/
def partners (g : Graph ι) (a : Channel) : List (Channel × Channel) :=
  (g.from a).map fun e => (e.from, e.to)

theorem mem_partners {g : Graph ι} {a : Channel} {k : Channel × Channel} :
    k ∈ g.partners a ↔ k ∈ g.out.keys ∧ k.1 = a := by
  rw [partners, List.mem_map]
  constructor
  · rintro ⟨e, he, rfl⟩
    obtain ⟨he, hf⟩ := mem_from.mp he
    exact ⟨OMap.mem_keys.mpr ⟨_, mem_edges.mp he⟩, hf⟩
  · rintro ⟨hk, hf⟩
    obtain ⟨l, hl⟩ := OMap.mem_keys.mp hk
    exact ⟨{ l with «from» := k.1, «to» := k.2 }, mem_from.mpr ⟨mem_edges.mpr hl, hf⟩, rfl⟩

theorem closeStep_eq {g : Graph ι} {a b : Channel} {rest : List (Channel × Channel)}
    (hq : g.queue = (a, b) :: rest) :
    g.closeStep = some ((g.partners a).foldl (fun g p => g.pair (a, b) p)
      { g with queue := rest }) := by
  rw [closeStep, hq]
  rfl

/-- One round leaves no pair out. -/
theorem Closing.step {g g' : Graph ι} (h : Closing (fun _ _ => False) g)
    (hs : g.closeStep = some g') : Closing (fun _ _ => False) g' := by
  match hq : g.queue with
  | [] => rw [closeStep, hq] at hs; cases hs
  | (a, b) :: rest =>
      rw [closeStep_eq hq] at hs
      cases hs
      refine Closing.meet (fun p hp => (mem_partners.mp hp).2) ?_
      intro x y z l m hl hls hm hms
      have hback : ∀ {k}, k ∈ g.queue → k = (a, b) ∨ k ∈ rest := by
        intro k hk
        rw [hq] at hk
        exact List.mem_cons.mp hk
      have hkey : ∀ {k}, k ∈ g.out.keys → k.1 = a → k ∈ g.partners a :=
        fun hk ha => mem_partners.mpr ⟨hk, ha⟩
      rcases h x y z l m hl hls hm hms with hk | hk | hw | hj
      · rcases hback hk with e | hk
        · obtain ⟨rfl, rfl⟩ := Prod.mk.inj e
          exact Or.inr (Or.inr (Or.inl (Or.inl
            ⟨rfl, hkey (OMap.mem_keys.mpr ⟨m, hm⟩) rfl⟩)))
        · exact Or.inl hk
      · rcases hback hk with e | hk
        · obtain ⟨rfl, rfl⟩ := Prod.mk.inj e
          exact Or.inr (Or.inr (Or.inl (Or.inr
            ⟨rfl, hkey (OMap.mem_keys.mpr ⟨l, hl⟩) rfl⟩)))
        · exact Or.inr (Or.inl hk)
      · exact hw.elim
      · exact Or.inr (Or.inr (Or.inr hj))

/-! ## Soundness -/

/-- What holds of an edge by its ends, its side and its support, and of a
collision by its channels and its support, when the rules of the closure keep
it. -/
structure Rules (admits : Channel → Bool) (M : Channel → Channel → Side → Finset ι → Prop)
    (K : List Channel → Finset ι → Prop) : Prop where
  union : ∀ {a b side side' s t}, M a b side s → M a b side' t → M a b side (s ∪ t)
  join : ∀ {a b d s t}, M a b .local s → M a d .peer t → b.localDid ≠ d.peerDid →
    admits ⟨b.localDid, d.peerDid⟩ = true →
    M b ⟨b.localDid, d.peerDid⟩ .peer (s ∪ t) ∧ M d ⟨b.localDid, d.peerDid⟩ .local (s ∪ t)
  collision : ∀ {a b d s t}, M a b .local s → M a d .peer t → b.localDid = d.peerDid →
    K [a, b, d] (s ∪ t)

structure Sound (M : Channel → Channel → Side → Finset ι → Prop)
    (K : List Channel → Finset ι → Prop) (g : Graph ι) : Prop where
  edge : ∀ {a b l}, g.out.get? (a, b) = some l → M a b l.replaces l.support
  collision : ∀ {k c}, g.identityCollisions.get? k = some c →
    c.channels = k ∧ K k c.support
  ends : ∀ {a b}, (a, b) ∈ g.out.keys → a ∈ g.vertices ∧ b ∈ g.vertices
  touched : ∀ {c}, c ∈ g.vertices → ∃ k ∈ g.out.keys, k.1 = c ∨ k.2 = c
  admitted : ∀ {a b}, (a, b) ∈ g.out.keys → g.admits a = true ∧ g.admits b = true
  nodup : g.vertices.Nodup

section Soundness

variable {M : Channel → Channel → Side → Finset ι → Prop}
  {K : List Channel → Finset ι → Prop} {admits : Channel → Bool} {g : Graph ι}

theorem sound_new : Sound M K (new admits : Graph ι) where
  edge h := nomatch h
  collision h := nomatch h
  ends h := by simp [new, OMap.keys, OMap.empty] at h
  touched h := by simp [new] at h
  admitted h := by simp [new, OMap.keys, OMap.empty] at h
  nodup := List.nodup_nil

theorem Sound.add (hr : Rules admits M K) (h : Sound M K g) {a b : Channel} {side : Side}
    {support : Finset ι} {derived : Bool}
    (hm : g.admits a = true → g.admits b = true → M a b side support) :
    Sound M K (g.add a b side support derived) := by
  by_cases hadm : g.admits a = true ∧ g.admits b = true
  · have hkeys : ∀ {k}, k ∈ (g.add a b side support derived).out.keys →
        k ∈ g.out.keys ∨ k = (a, b) := by
      intro k hk
      rw [add_out hadm] at hk
      exact OMap.mem_keys_set.mp hk
    refine ⟨?_, ?_, ?_, ?_, ?_, add_nodup h.nodup⟩
    · intro x y l hl
      rw [add_out hadm, OMap.get?_set] at hl
      split at hl
      · next e =>
        obtain ⟨rfl, rfl⟩ := Prod.mk.inj e
        cases hl
        cases hold : g.out.get? (x, y) with
        | none => exact hm hadm.1 hadm.2
        | some l => exact hr.union (h.edge hold) (hm hadm.1 hadm.2)
      · exact h.edge hl
    · intro k c hc
      rw [add_collisions] at hc
      exact h.collision hc
    · intro x y hk
      rw [add_vertices hadm, add_vertices hadm]
      rcases hkeys hk with hk | e
      · exact ⟨Or.inl (h.ends hk).1, Or.inl (h.ends hk).2⟩
      · obtain ⟨rfl, rfl⟩ := Prod.mk.inj e
        exact ⟨Or.inr (Or.inl rfl), Or.inr (Or.inr rfl)⟩
    · intro c hc
      have hmem : ∀ {k}, k ∈ g.out.keys ∨ k = (a, b) →
          k ∈ (g.add a b side support derived).out.keys := by
        intro k hk
        rw [add_out hadm]
        exact OMap.mem_keys_set.mpr hk
      rw [add_vertices hadm] at hc
      rcases hc with hc | rfl | rfl
      · obtain ⟨k, hk, hkc⟩ := h.touched hc
        exact ⟨k, hmem (Or.inl hk), hkc⟩
      · exact ⟨(c, b), hmem (Or.inr rfl), Or.inl rfl⟩
      · exact ⟨(a, c), hmem (Or.inr rfl), Or.inr rfl⟩
    · intro x y hk
      rw [add_admits]
      rcases hkeys hk with hk | e
      · exact h.admitted hk
      · obtain ⟨rfl, rfl⟩ := Prod.mk.inj e
        exact hadm
  · rw [add_of_not_admits hadm]
    exact h

theorem Sound.join (hr : Rules g.admits M K) (h : Sound M K g) {ours peer : Edge ι}
    (ho : ours ∈ g.edges) (hp : peer ∈ g.edges) (hfrom : ours.from = peer.from)
    (hol : ours.replaces = .local) (hpp : peer.replaces = .peer) :
    Sound M K (g.join ours peer) := by
  have hmo := h.edge (mem_edges.mp ho)
  have hmp := h.edge (mem_edges.mp hp)
  rw [hol] at hmo
  rw [hpp, ← hfrom] at hmp
  rw [Graph.join]
  simp only
  split
  · next he =>
    refine ⟨h.edge, ?_, h.ends, h.touched, h.admitted, h.nodup⟩
    intro k c hc
    rw [OMap.get?_set] at hc
    split at hc
    · next e =>
      cases hc
      exact ⟨e.symm, e ▸ hr.collision hmo hmp he⟩
    · exact h.collision hc
  · next hne =>
    refine (h.add hr fun _ hj => (hr.join hmo hmp hne hj).1).add hr fun _ hj => ?_
    rw [add_admits] at hj
    exact (hr.join hmo hmp hne hj).2

theorem Sound.pair (hr : Rules g.admits M K) (h : Sound M K g) (a b d : Channel) :
    Sound M K (g.pair (a, b) (a, d)) := by
  rcases pair_cases g a b d with ⟨he, _⟩ | ⟨ours, peer, ho, hp, hof, hpf, hol, hpp, _, he⟩
  · rw [he]; exact h
  · rw [he]; exact h.join hr ho hp (hof.trans hpf.symm) hol hpp

theorem Sound.meet {a b : Channel} :
    ∀ {rest : List (Channel × Channel)} {g : Graph ι}, Rules g.admits M K →
      (∀ p ∈ rest, p.1 = a) → Sound M K g →
      Sound M K (rest.foldl (fun g p => g.pair (a, b) p) g)
  | [], _, _, _, h => h
  | p :: rest, g, hr, hrest, h => by
      obtain ⟨a', d⟩ := p
      obtain rfl : a' = a := hrest (a', d) List.mem_cons_self
      have htail : ∀ p ∈ rest, p.1 = a' := fun p hp => hrest p (List.mem_cons_of_mem _ hp)
      rw [List.foldl_cons]
      refine Sound.meet ?_ htail (h.pair hr a' b d)
      rwa [(grows_pair g a' b d).admits]

theorem Sound.step (hr : Rules g.admits M K) (h : Sound M K g) {g' : Graph ι}
    (hs : g.closeStep = some g') : Sound M K g' := by
  match hq : g.queue with
  | [] => rw [closeStep, hq] at hs; cases hs
  | (a, b) :: rest =>
      rw [closeStep_eq hq] at hs
      cases hs
      exact Sound.meet hr (fun p hp => (mem_partners.mp hp).2)
        ⟨h.edge, h.collision, h.ends, h.touched, h.admitted, h.nodup⟩

end Soundness

/-! ## Termination -/

section Termination

variable {L P : Finset Did} {I : Finset ι} {g : Graph ι}

/-- Channels of the span: a local DID and a peer DID of the two sets. -/
def spanOf (L P : Finset Did) : Finset Channel := (L ×ˢ P).image fun p => ⟨p.1, p.2⟩

theorem mem_spanOf {c : Channel} : c ∈ spanOf L P ↔ c.localDid ∈ L ∧ c.peerDid ∈ P := by
  rw [spanOf, Finset.mem_image]
  constructor
  · rintro ⟨⟨x, y⟩, h, rfl⟩
    exact Finset.mem_product.mp h
  · intro h
    exact ⟨(c.localDid, c.peerDid), Finset.mem_product.mpr h, rfl⟩

/-- An edge of the span that rests on the given identities. -/
def Inside (L P : Finset Did) (I : Finset ι) (a b : Channel) (_ : Side) (s : Finset ι) :
    Prop := a ∈ spanOf L P ∧ b ∈ spanOf L P ∧ s ⊆ I

theorem rules_inside (admits : Channel → Bool) :
    Rules admits (Inside L P I) fun _ _ => True where
  union h h' := ⟨h.1, h.2.1, Finset.union_subset h.2.2 h'.2.2⟩
  join := by
    rintro a b d s t ⟨_, hb, hs⟩ ⟨_, hd, ht⟩ _ _
    have hj : (⟨b.localDid, d.peerDid⟩ : Channel) ∈ spanOf L P :=
      mem_spanOf.mpr ⟨(mem_spanOf.mp hb).1, (mem_spanOf.mp hd).2⟩
    exact ⟨⟨hb, hj, Finset.union_subset hs ht⟩, ⟨hd, hj, Finset.union_subset hs ht⟩⟩
  collision _ _ _ := trivial

/-- How often an edge can still be queued: once for being new, and once for each
identity. -/
def budget (I : Finset ι) : Option (Label ι) → Nat
  | none => I.card + 1
  | some l => I.card - l.support.card

def cost (L P : Finset Did) (I : Finset ι) (g : Graph ι) : Nat :=
  g.queue.length + ∑ k ∈ spanOf L P ×ˢ spanOf L P, budget I (g.out.get? k)

theorem cost_add {a b : Channel} {side : Side} {support : Finset ι} {derived : Bool}
    (hg : Sound (Inside L P I) (fun _ _ => True) g) (ha : a ∈ spanOf L P)
    (hb : b ∈ spanOf L P) (hs : support ⊆ I) :
    cost L P I (g.add a b side support derived) ≤ cost L P I g := by
  by_cases h : g.admits a = true ∧ g.admits b = true
  · have hk : (a, b) ∈ spanOf L P ×ˢ spanOf L P := Finset.mem_product.mpr ⟨ha, hb⟩
    rw [cost, cost, add_queue h, add_out h, ← Finset.sum_erase_add _ _ hk,
      ← Finset.sum_erase_add _ _ hk, OMap.get?_set_self]
    have hrest : ∀ k ∈ (spanOf L P ×ˢ spanOf L P).erase (a, b),
        budget I ((g.out.set (a, b)
          (grown (g.out.get? (a, b)) side support derived)).get? k) =
          budget I (g.out.get? k) :=
      fun k hk => by rw [OMap.get?_set_ne _ _ (Finset.ne_of_mem_erase hk)]
    rw [Finset.sum_congr rfl hrest]
    -- the edge itself: queued once more only where its budget falls
    cases hl : g.out.get? (a, b) with
    | none =>
        rw [if_pos grows_none, List.length_cons, grown, budget, budget]
        omega
    | some l =>
        have hcard : (l.support ∪ support).card ≤ I.card :=
          Finset.card_le_card (Finset.union_subset (hg.edge hl).2.2 hs)
        have hmono : l.support.card ≤ (l.support ∪ support).card :=
          Finset.card_le_card Finset.subset_union_left
        simp only [grown, budget]
        split
        · next hgrow =>
          rw [grows_some] at hgrow
          rw [List.length_cons]
          omega
        · omega
  · rw [add_of_not_admits h]

theorem cost_join {ours peer : Edge ι} (hg : Sound (Inside L P I) (fun _ _ => True) g)
    (ho : ours ∈ g.edges) (hp : peer ∈ g.edges) :
    cost L P I (g.join ours peer) ≤ cost L P I g := by
  obtain ⟨_, hb, hs⟩ := hg.edge (mem_edges.mp ho)
  obtain ⟨_, hd, ht⟩ := hg.edge (mem_edges.mp hp)
  have hst := Finset.union_subset hs ht
  have hj : (⟨ours.to.localDid, peer.to.peerDid⟩ : Channel) ∈ spanOf L P :=
    mem_spanOf.mpr ⟨(mem_spanOf.mp hb).1, (mem_spanOf.mp hd).2⟩
  rw [Graph.join]
  simp only
  split
  · exact le_rfl
  · exact (cost_add (hg.add (rules_inside g.admits) fun _ _ => ⟨hb, hj, hst⟩) hd hj hst).trans
      (cost_add hg hb hj hst)

theorem cost_pair (hg : Sound (Inside L P I) (fun _ _ => True) g) (a b d : Channel) :
    cost L P I (g.pair (a, b) (a, d)) ≤ cost L P I g := by
  rcases pair_cases g a b d with ⟨he, _⟩ | ⟨ours, peer, ho, hp, _, _, _, _, _, he⟩
  · rw [he]
  · rw [he]; exact cost_join hg ho hp

theorem cost_meet {a b : Channel} :
    ∀ {rest : List (Channel × Channel)} {g : Graph ι}, (∀ p ∈ rest, p.1 = a) →
      Sound (Inside L P I) (fun _ _ => True) g →
      cost L P I (rest.foldl (fun g p => g.pair (a, b) p) g) ≤ cost L P I g
  | [], _, _, _ => le_rfl
  | p :: rest, g, hrest, h => by
      obtain ⟨a', d⟩ := p
      obtain rfl : a' = a := hrest (a', d) List.mem_cons_self
      have htail : ∀ p ∈ rest, p.1 = a' := fun p hp => hrest p (List.mem_cons_of_mem _ hp)
      rw [List.foldl_cons]
      exact (cost_meet htail (h.pair (rules_inside g.admits) a' b d)).trans
        (cost_pair h a' b d)

theorem cost_step (hg : Sound (Inside L P I) (fun _ _ => True) g) {g' : Graph ι}
    (hs : g.closeStep = some g') : cost L P I g' < cost L P I g := by
  match hq : g.queue with
  | [] => rw [closeStep, hq] at hs; cases hs
  | (a, b) :: rest =>
      rw [closeStep_eq hq] at hs
      cases hs
      have hpop : Sound (Inside L P I) (fun _ _ => True) { g with queue := rest } :=
        ⟨hg.edge, hg.collision, hg.ends, hg.touched, hg.admitted, hg.nodup⟩
      refine (cost_meet (fun p hp => (mem_partners.mp hp).2) hpop).trans_lt ?_
      rw [cost, cost, hq]
      exact Nat.add_lt_add_right (Nat.lt_succ_self rest.length) _

/-- A graph is inside its own span, on its own identities. -/
theorem Sound.inside {M : Channel → Channel → Side → Finset ι → Prop}
    {K : List Channel → Finset ι → Prop} (h : Sound M K g) :
    Sound (Inside (g.vertices.map Channel.localDid).toFinset
      (g.vertices.map Channel.peerDid).toFinset g.identities) (fun _ _ => True) g := by
  have hspan : ∀ {c}, c ∈ g.vertices → c ∈ spanOf (g.vertices.map Channel.localDid).toFinset
      (g.vertices.map Channel.peerDid).toFinset := by
    intro c hc
    rw [mem_spanOf, List.mem_toFinset, List.mem_toFinset]
    exact ⟨List.mem_map_of_mem hc, List.mem_map_of_mem hc⟩
  refine ⟨?_, fun hc => ⟨(h.collision hc).1, trivial⟩, h.ends, h.touched, h.admitted,
    h.nodup⟩
  intro a b l hl
  obtain ⟨ha, hb⟩ := h.ends (OMap.mem_keys.mpr ⟨l, hl⟩)
  refine ⟨hspan ha, hspan hb, ?_⟩
  have he : ({ l with «from» := a, «to» := b } : Edge ι) ∈ g.edges := mem_edges.mpr hl
  have hfold : ∀ (es : List (Edge ι)) (e : Edge ι), e ∈ es →
      e.support ⊆ es.foldr (fun e s => e.support ∪ s) ∅ := by
    intro es
    induction es with
    | nil => intro e he; cases he
    | cons x es ih =>
        intro e he
        rw [List.foldr_cons]
        rcases List.mem_cons.mp he with rfl | he
        · exact Finset.subset_union_left
        · exact (ih e he).trans Finset.subset_union_right
  exact hfold g.edges _ he

theorem cost_le_fuel : cost (g.vertices.map Channel.localDid).toFinset
    (g.vertices.map Channel.peerDid).toFinset g.identities g ≤ g.fuel := by
  rw [cost, fuel]
  refine Nat.add_le_add_left ?_ _
  rw [← smul_eq_mul]
  refine Finset.sum_le_card_nsmul _ _ _ fun k _ => ?_
  cases g.out.get? k with
  | none => exact le_rfl
  | some l => exact (Nat.sub_le _ _).trans (Nat.le_succ _)

end Termination

/-! ## The closure -/

/-- Every local edge and peer edge leaving one pair are joined as they stand. -/
def Closed (g : Graph ι) : Prop :=
  ∀ {a b d l m}, g.out.get? (a, b) = some l → l.replaces = .local →
    g.out.get? (a, d) = some m → m.replaces = .peer →
    Joined g a b d (l.support ∪ m.support)

/-- Nothing is lost. -/
structure Extends (g g' : Graph ι) : Prop where
  admits : g'.admits = g.admits
  vertices : ∀ {c}, c ∈ g.vertices → c ∈ g'.vertices
  edge : ∀ {k l}, g.out.get? k = some l → ∃ l', g'.out.get? k = some l' ∧
    l'.replaces = l.replaces ∧ l.support ⊆ l'.support

theorem Grows.extends {g g' : Graph ι} (h : Grows g g') : Extends g g' :=
  ⟨h.admits, h.vertices, fun hk =>
    let ⟨l', hl', hr, hs, _⟩ := h.edge hk
    ⟨l', hl', hr, hs⟩⟩

theorem Extends.trans {g g' g'' : Graph ι} (h : Extends g g') (h' : Extends g' g'') :
    Extends g g'' :=
  ⟨h'.admits.trans h.admits, fun hc => h'.vertices (h.vertices hc), fun hk =>
    let ⟨_, hl', hr, hs⟩ := h.edge hk
    let ⟨l'', hl'', hr', hs'⟩ := h'.edge hl'
    ⟨l'', hl'', hr'.trans hr, hs.trans hs'⟩⟩

theorem extends_step {g g' : Graph ι} (hs : g.closeStep = some g') : Extends g g' := by
  match hq : g.queue with
  | [] => rw [closeStep, hq] at hs; cases hs
  | (a, b) :: rest =>
      rw [closeStep_eq hq] at hs
      cases hs
      have hpartners : ∀ p ∈ g.partners a, p.1 = a := fun p hp => (mem_partners.mp hp).2
      have h : Grows { g with queue := rest } _ := @grows_meet ι _ a b _ _ hpartners
      exact ⟨h.admits, h.vertices, h.extends.edge⟩

/-- A graph every edge of which is still queued, as additions leave it. -/
def Queued (g : Graph ι) : Prop := ∀ {k}, k ∈ g.out.keys → k ∈ g.queue

theorem queued_new {admits : Channel → Bool} : Queued (new admits : Graph ι) := by
  intro k hk
  simp [new, OMap.keys, OMap.empty] at hk

theorem Queued.add {g : Graph ι} (h : Queued g) {a b : Channel} {side : Side}
    {support : Finset ι} {derived : Bool} : Queued (g.add a b side support derived) := by
  intro k hk
  have hg := grows_add g a b side support derived
  exact (hg.fresh hk).elim (fun hk => hg.queue (h hk)) id

/-- Closing a graph of declared edges ends with nothing queued. What the rules keep holds
throughout, and so do what was there and what is joined. -/
theorem close_run {M : Channel → Channel → Side → Finset ι → Prop}
    {K : List Channel → Finset ι → Prop} {g : Graph ι} (hr : Rules g.admits M K)
    (h : Sound M K g) (hq : Queued g) :
    (Sound M K g.close ∧ Extends g g.close ∧ Closing (fun _ _ => False) g.close) ∧
      g.close.queue = [] := by
  obtain ⟨⟨hsound, _, hext, hclosing⟩, hnone⟩ := Loop.run_spec
    (fun g' => Sound M K g' ∧
      Sound (Inside (g.vertices.map Channel.localDid).toFinset
        (g.vertices.map Channel.peerDid).toFinset g.identities) (fun _ _ => True) g' ∧
      Extends g g' ∧ Closing (fun _ _ => False) g')
    (cost (g.vertices.map Channel.localDid).toFinset
      (g.vertices.map Channel.peerDid).toFinset g.identities)
    (fun s s' hs hstep =>
      ⟨⟨hs.1.step (hs.2.2.1.admits ▸ hr) hstep,
        hs.2.1.step (rules_inside _) hstep, hs.2.2.1.trans (extends_step hstep),
        hs.2.2.2.step hstep⟩, cost_step hs.2.1 hstep⟩)
    (s := g) ⟨h, h.inside, (Grows.refl g).extends, fun a b d l m hl _ _ _ =>
      Or.inl (hq (OMap.mem_keys.mpr ⟨l, hl⟩))⟩ cost_le_fuel
  refine ⟨⟨hsound, hext, hclosing⟩, ?_⟩
  rw [close]
  match hqueue : (Loop.run closeStep g.fuel g).queue with
  | [] => rfl
  | (a, b) :: rest => rw [closeStep_eq hqueue] at hnone; cases hnone

/-- With nothing queued every two edges that could be joined are. -/
theorem Closing.closed {g : Graph ι} (h : Closing (fun _ _ => False) g) (hq : g.queue = []) :
    Closed g := by
  intro a b d l m hl hls hm hms
  rcases h a b d l m hl hls hm hms with hk | hk | hw | hj
  · rw [hq] at hk; cases hk
  · rw [hq] at hk; cases hk
  · exact hw.elim
  · exact hj

/-- Closing a graph of declared edges: what the rules keep holds of it, nothing
is lost, and no join is left out. -/
theorem close_spec {M : Channel → Channel → Side → Finset ι → Prop}
    {K : List Channel → Finset ι → Prop} {g : Graph ι} (hr : Rules g.admits M K)
    (h : Sound M K g) (hq : Queued g) :
    Sound M K g.close ∧ Extends g g.close ∧ Closed g.close := by
  obtain ⟨⟨hsound, hext, hclosing⟩, hqueue⟩ := close_run hr h hq
  exact ⟨hsound, hext, hclosing.closed hqueue⟩

end Graph

end Estoc.Continuity
