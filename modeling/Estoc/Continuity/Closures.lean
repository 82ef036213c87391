import Estoc.Continuity.Joins

/-!
# The closure over candidates

A closure admits candidates in rounds, each judged against the graph of what was
admitted before it. Two things are said of the result, whatever `confirms` is.
What holds of the links given, of the joins, and of every candidate confirmed in
a graph all of whose edges it already holds of, holds of every edge of the final
graph. And nothing is left out: the links given and the candidates admitted are
edges wherever both their ends are admitted, the graph is closed under joins, and
no candidate still waiting is confirmed in it.
-/

namespace Estoc.Continuity

set_option linter.unusedSectionVars false

variable {ι : Type} [DecidableEq ι]

namespace Closure

variable {peerLinks candidates : List (Link ι)} {admits : Channel → Bool}
  {confirms : Graph ι → Link ι → Option (Finset ι)}
  {M : Channel → Channel → Side → Finset ι → Prop} {K : List Channel → Finset ι → Prop}

/-- The links, each with its support, added to a graph. -/
def addAll (side : Side) (links : List (Link ι × Finset ι)) (g : Graph ι) : Graph ι :=
  links.foldl (fun g l => g.add l.1.from l.1.to side l.2 false) g

structure Added (M : Channel → Channel → Side → Finset ι → Prop)
    (K : List Channel → Finset ι → Prop) (g g' : Graph ι) : Prop where
  grows : Graph.Grows g g'
  sound : Graph.Sound M K g'
  queued : Graph.Queued g'

/-- The edges added to a graph, one after the other. -/
def addEach (edges : List (Edge ι)) (g : Graph ι) : Graph ι :=
  edges.foldl (fun g e => g.add e.from e.to e.replaces e.support e.derived) g

theorem addEach_spec :
    ∀ {edges : List (Edge ι)} {g : Graph ι}, Graph.Rules g.admits M K →
      (∀ e ∈ edges, g.admits e.from = true → g.admits e.to = true →
        M e.from e.to e.replaces e.support) →
      Graph.Sound M K g → Graph.Queued g →
      Added M K g (addEach edges g) ∧
        ∀ e ∈ edges, g.admits e.from = true → g.admits e.to = true →
          ∃ label, (addEach edges g).out.get? (e.from, e.to) = some label ∧
            e.support ⊆ label.support
  | [], g, _, _, hs, hq => ⟨⟨Graph.Grows.refl g, hs, hq⟩, fun _ h => nomatch h⟩
  | e :: edges, g, hr, hm, hs, hq => by
      have hgrow := Graph.grows_add g e.from e.to e.replaces e.support e.derived
      have hadm := hgrow.admits
      obtain ⟨⟨hg, hsound, hqueued⟩, hhas⟩ := @addEach_spec edges
        (g.add e.from e.to e.replaces e.support e.derived) (hadm.symm ▸ hr)
        (fun x hx ha hb => hm x (List.mem_cons_of_mem _ hx) (hadm ▸ ha) (hadm ▸ hb))
        (hs.add hr (hm e List.mem_cons_self)) hq.add
      refine ⟨⟨hgrow.trans hg, hsound, hqueued⟩, ?_⟩
      intro x hx ha hb
      rcases List.mem_cons.mp hx with rfl | hx
      · obtain ⟨label, hl, hsub⟩ := Graph.add_has x.replaces x.support x.derived ha hb
        obtain ⟨label', hl', _, hsub', _⟩ := hg.edge hl
        exact ⟨label', hl', hsub.trans hsub'⟩
      · exact hhas x hx (hadm.symm ▸ ha) (hadm.symm ▸ hb)

/-- A link with its support, as the edge it is added as. -/
def asEdge (side : Side) (l : Link ι × Finset ι) : Edge ι :=
  { replaces := side, support := l.2, derived := false, «from» := l.1.from, «to» := l.1.to }

theorem addAll_eq (side : Side) (links : List (Link ι × Finset ι)) (g : Graph ι) :
    addAll side links g = addEach (links.map (asEdge side)) g := by
  rw [addAll, addEach, List.foldl_map]
  rfl

theorem addAll_spec {side : Side} {links : List (Link ι × Finset ι)} {g : Graph ι}
    (hr : Graph.Rules g.admits M K)
    (hm : ∀ l ∈ links, g.admits l.1.from = true → g.admits l.1.to = true →
      M l.1.from l.1.to side l.2)
    (hs : Graph.Sound M K g) (hq : Graph.Queued g) :
    Added M K g (addAll side links g) ∧
      ∀ l ∈ links, g.admits l.1.from = true → g.admits l.1.to = true →
        ∃ label, (addAll side links g).out.get? (l.1.from, l.1.to) = some label ∧
          l.2 ⊆ label.support := by
  rw [addAll_eq]
  obtain ⟨hadded, hhas⟩ := @addEach_spec _ _ M K (links.map (asEdge side)) g hr
    (fun e he ha hb => by
      obtain ⟨l, hl, rfl⟩ := List.mem_map.mp he
      exact hm l hl ha hb) hs hq
  exact ⟨hadded, fun l hl ha hb => hhas _ (List.mem_map_of_mem hl) ha hb⟩

theorem build_eq (admitted : List (Link ι × Finset ι)) :
    build peerLinks admits admitted =
      (addAll .local (admitted.map fun l => (l.1, insert l.1.identity l.2))
        (addAll .peer (peerLinks.map fun l => (l, {l.identity})) (Graph.new admits))).close := by
  rw [build, addAll, addAll, List.foldl_map, List.foldl_map]

/-- The link is an edge that rests on `support`, where its ends are admitted. -/
def IsEdge (admits : Channel → Bool) (g : Graph ι) (l : Link ι) (support : Finset ι) : Prop :=
  admits l.from = true → admits l.to = true →
    ∃ label, g.out.get? (l.from, l.to) = some label ∧ support ⊆ label.support

/-- What holds of the edges of a closure, by the ends, the side and the support
of each. -/
structure Justifies (peerLinks candidates : List (Link ι)) (admits : Channel → Bool)
    (confirms : Graph ι → Link ι → Option (Finset ι))
    (M : Channel → Channel → Side → Finset ι → Prop)
    (K : List Channel → Finset ι → Prop) : Prop where
  rules : Graph.Rules admits M K
  peer : ∀ l ∈ peerLinks, admits l.from = true → admits l.to = true →
    M l.from l.to .peer {l.identity}
  candidate : ∀ {g : Graph ι} {support}, Graph.Sound M K g → ∀ l ∈ candidates,
    confirms g l = some support → admits l.from = true → admits l.to = true →
    M l.from l.to .local (insert l.identity support)

/-- What is known of a closure in progress. -/
structure Built (peerLinks candidates : List (Link ι)) (admits : Channel → Bool)
    (confirms : Graph ι → Link ι → Option (Finset ι))
    (M : Channel → Channel → Side → Finset ι → Prop)
    (K : List Channel → Finset ι → Prop) (s : Closure ι) : Prop where
  admits_eq : s.graph.admits = admits
  sound : Graph.Sound M K s.graph
  closed : s.graph.Closed
  peer : ∀ l ∈ peerLinks, IsEdge admits s.graph l {l.identity}
  admitted : ∀ {l support}, (l, support) ∈ s.admitted →
    IsEdge admits s.graph l (insert l.identity support)
  justified : ∀ {l support}, (l, support) ∈ s.admitted → l ∈ candidates ∧
    ∃ g, Graph.Sound M K g ∧ confirms g l = some support
  waiting : s.waiting.Sublist candidates
  all : ∀ {l}, l ∈ candidates → (∃ support, (l, support) ∈ s.admitted) ∨ l ∈ s.waiting
  apart : candidates.Nodup → ∀ {l support}, (l, support) ∈ s.admitted → l ∉ s.waiting

theorem build_spec (hj : Justifies peerLinks candidates admits confirms M K)
    (admitted : List (Link ι × Finset ι))
    (hadmitted : ∀ {l support}, (l, support) ∈ admitted → l ∈ candidates ∧
      ∃ g, Graph.Sound M K g ∧ confirms g l = some support) :
    (build peerLinks admits admitted).admits = admits ∧
      Graph.Sound M K (build peerLinks admits admitted) ∧
      (build peerLinks admits admitted).Closed ∧
      (∀ l ∈ peerLinks, IsEdge admits (build peerLinks admits admitted) l {l.identity}) ∧
      ∀ {l support}, (l, support) ∈ admitted →
        IsEdge admits (build peerLinks admits admitted) l (insert l.identity support) := by
  obtain ⟨hp, hphas⟩ := @addAll_spec ι _ M K .peer
    (peerLinks.map fun l => (l, {l.identity})) (Graph.new admits) hj.rules (by
      intro l hl ha hb
      obtain ⟨x, hx, rfl⟩ := List.mem_map.mp hl
      exact hj.peer x hx ha hb) Graph.sound_new Graph.queued_new
  have hadm : (addAll .peer (peerLinks.map fun l => (l, {l.identity}))
      (Graph.new admits)).admits = admits := hp.grows.admits
  obtain ⟨ha, hahas⟩ := @addAll_spec ι _ M K .local
    (admitted.map fun l => (l.1, insert l.1.identity l.2)) _ (hadm.symm ▸ hj.rules) (by
      intro l hl hfrom hto
      obtain ⟨⟨x, support⟩, hx, rfl⟩ := List.mem_map.mp hl
      obtain ⟨hxc, g, hg, hconf⟩ := hadmitted hx
      exact hj.candidate hg x hxc hconf (hadm ▸ hfrom) (hadm ▸ hto)) hp.sound hp.queued
  have hadm' := ha.grows.admits.trans hadm
  obtain ⟨hsound, hext, hclosed⟩ := Graph.close_spec (hadm'.symm ▸ hj.rules) ha.sound ha.queued
  rw [build_eq]
  refine ⟨hext.admits.trans hadm', hsound, hclosed, ?_, ?_⟩
  · intro l hl hfrom hto
    obtain ⟨label, hlabel, hsub⟩ := hphas (l, {l.identity}) (List.mem_map_of_mem hl) hfrom hto
    obtain ⟨label', hlabel', _, hsub', _⟩ := ha.grows.edge hlabel
    obtain ⟨label'', hlabel'', _, hsub''⟩ := hext.edge hlabel'
    exact ⟨label'', hlabel'', hsub.trans (hsub'.trans hsub'')⟩
  · intro l support hl hfrom hto
    obtain ⟨label, hlabel, hsub⟩ := hahas (l, insert l.identity support)
      (List.mem_map.mpr ⟨_, hl, rfl⟩) (hadm.symm ▸ hfrom) (hadm.symm ▸ hto)
    obtain ⟨label', hlabel', _, hsub'⟩ := hext.edge hlabel
    exact ⟨label', hlabel', hsub.trans hsub'⟩

/-! ## Rounds -/

/-- The candidates of a list, whatever confirmed them. -/
def Has (chosen : List (Link ι × Finset ι)) (l : Link ι) : Prop := ∃ support, (l, support) ∈ chosen

/-- What a round that admits something does: the waiting candidates its graph confirms are
admitted, the others go on waiting. -/
structure Admits (peerLinks : List (Link ι)) (admits : Channel → Bool)
    (confirms : Graph ι → Link ι → Option (Finset ι)) (s s' : Closure ι) : Prop where
  graph : s'.graph = build peerLinks admits s'.admitted
  admitted : ∀ l support, (l, support) ∈ s'.admitted ↔
    (l, support) ∈ s.admitted ∨ (l ∈ s.waiting ∧ confirms s.graph l = some support)
  waiting : s'.waiting = s.waiting.filter fun l => (confirms s.graph l).isNone
  shorter : s'.waiting.length < s.waiting.length

theorem mem_progressed {s : Closure ι} {l : Link ι} {support : Finset ι} :
    (l, support) ∈ s.waiting.filterMap (fun link =>
        (confirms s.graph link).map fun support => (link, support)) ↔
      l ∈ s.waiting ∧ confirms s.graph l = some support := by
  rw [List.mem_filterMap]
  constructor
  · rintro ⟨x, hx, e⟩
    obtain ⟨t, ht, e⟩ := Option.map_eq_some_iff.mp e
    cases e
    exact ⟨hx, ht⟩
  · rintro ⟨hl, hs⟩
    exact ⟨l, hl, by rw [hs]; rfl⟩

theorem round_some {s s' : Closure ι} (h : round peerLinks admits confirms s = some s') :
    Admits peerLinks admits confirms s s' := by
  rw [round] at h
  simp only at h
  split at h
  · cases h
  · next hne =>
    cases h
    rw [Bool.not_eq_true, List.isEmpty_eq_false_iff_exists_mem] at hne
    refine ⟨rfl, fun l support => ?_, rfl, ?_⟩
    · rw [List.mem_append, mem_progressed]
    · -- at least one candidate moved from the waiting to the admitted
      obtain ⟨⟨l, support⟩, hl⟩ := hne
      obtain ⟨hw, hc⟩ := mem_progressed.mp hl
      refine lt_of_le_of_ne (List.length_filter_le _ _) fun heq => ?_
      have hall := List.length_filter_eq_length_iff.mp heq l hw
      rw [hc] at hall
      cases hall

theorem round_none {s : Closure ι} : round peerLinks admits confirms s = none ↔
    ∀ l ∈ s.waiting, confirms s.graph l = none := by
  rw [round]
  simp only
  constructor
  · intro h l hl
    split at h
    · next hempty =>
      by_contra hc
      obtain ⟨support, hc⟩ := Option.ne_none_iff_exists'.mp hc
      have hmem := mem_progressed.mpr ⟨hl, hc⟩
      rw [List.isEmpty_iff.mp hempty] at hmem
      cases hmem
    · cases h
  · intro h
    rw [if_pos]
    refine List.isEmpty_iff.mpr (List.eq_nil_iff_forall_not_mem.mpr fun x hx => ?_)
    obtain ⟨hw, hc⟩ := mem_progressed.mp hx
    rw [h _ hw] at hc
    cases hc

theorem Built.round (hj : Justifies peerLinks candidates admits confirms M K)
    {s s' : Closure ι} (h : Built peerLinks candidates admits confirms M K s)
    (hs : Closure.round peerLinks admits confirms s = some s') :
    Built peerLinks candidates admits confirms M K s' ∧
      s'.waiting.length < s.waiting.length := by
  obtain ⟨hgraph, hadm, hwaiting, hlt⟩ := round_some hs
  have hjust : ∀ {l support}, (l, support) ∈ s'.admitted →
      l ∈ candidates ∧ ∃ g, Graph.Sound M K g ∧ confirms g l = some support := by
    intro l support hl
    rcases (hadm l support).mp hl with hl | ⟨hw, hc⟩
    · exact h.justified hl
    · exact ⟨h.waiting.subset hw, s.graph, h.sound, hc⟩
  obtain ⟨hadmits, hsound, hclosed, hpeer, hadmitted⟩ := build_spec hj _ hjust
  rw [← hgraph] at hadmits hsound hclosed hpeer hadmitted
  refine ⟨⟨hadmits, hsound, hclosed, hpeer, hadmitted, hjust, ?_, ?_, ?_⟩, hlt⟩
  · exact hwaiting ▸ List.filter_sublist.trans h.waiting
  · intro l hl
    rcases h.all hl with ⟨support, hin⟩ | hw
    · exact Or.inl ⟨support, (hadm l support).mpr (Or.inl hin)⟩
    · cases hc : confirms s.graph l with
      | none => exact Or.inr (hwaiting ▸ List.mem_filter.mpr ⟨hw, by rw [hc]; rfl⟩)
      | some support => exact Or.inl ⟨support, (hadm l support).mpr (Or.inr ⟨hw, hc⟩)⟩
  · intro hnodup l support hl hw
    rw [hwaiting] at hw
    obtain ⟨hw, hnone⟩ := List.mem_filter.mp hw
    rcases (hadm l support).mp hl with hl | ⟨_, hc⟩
    · exact h.apart hnodup hl hw
    · rw [hc] at hnone
      cases hnone

end Closure

/-- A closure is built to the end: what justifies its edges holds of them, and no
candidate left waiting is confirmed. -/
theorem closure_spec {peerLinks candidates : List (Link ι)} {admits : Channel → Bool}
    {confirms : Graph ι → Link ι → Option (Finset ι)}
    {M : Channel → Channel → Side → Finset ι → Prop} {K : List Channel → Finset ι → Prop}
    (hj : Closure.Justifies peerLinks candidates admits confirms M K) :
    Closure.Built peerLinks candidates admits confirms M K
        (closure peerLinks candidates admits confirms) ∧
      ∀ l ∈ (closure peerLinks candidates admits confirms).waiting,
        confirms (closure peerLinks candidates admits confirms).graph l = none := by
  obtain ⟨hadm, hsound, hclosed, hpeer, hadmitted⟩ :=
    Closure.build_spec hj [] fun h => nomatch h
  obtain ⟨hbuilt, hend⟩ := Loop.run_spec
    (Closure.Built peerLinks candidates admits confirms M K) (fun s => s.waiting.length)
    (fun _ _ hs hround => hs.round hj hround)
    (s := ⟨Closure.build peerLinks admits [], [], candidates⟩)
    ⟨hadm, hsound, hclosed, hpeer, hadmitted, (fun h => nomatch h), List.Sublist.refl _,
      Or.inr, fun _ _ _ h => nomatch h⟩ le_rfl
  exact ⟨hbuilt, Closure.round_none.mp hend⟩

end Estoc.Continuity
