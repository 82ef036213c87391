import Estoc.Continuity.Least

/-!
# Confirmation is well-founded

A closure admits candidates in rounds, each judged against the graph of those
admitted in the rounds before. The round a candidate came in with is its rank:
what confirmed it is there without it and without every candidate of its own round
or a later one. Since more links only ever confirm more, the rounds end at the
least set of candidates that has every candidate its own graph confirms.

That more links confirm more needs the links to be what facts declare, each
replacing exactly the endpoint it says: then a link added never takes an edge's
side from another.
-/

namespace Estoc.Continuity

set_option linter.unusedSectionVars false

namespace Closure

variable {ι : Type} [DecidableEq ι]

/-! ## The graph of some candidates -/

/-- The edges a closure adds: the peer links, and the candidates chosen, each with what
confirmed it. -/
def chosenEdges (peerLinks : List (Link ι)) (chosen : List (Link ι × Finset ι)) :
    List (Edge ι) :=
  (peerLinks.map fun l => asEdge .peer (l, {l.identity})) ++
    chosen.map fun l => asEdge .local (l.1, insert l.1.identity l.2)

theorem build_eq_declare (peerLinks : List (Link ι)) (admits : Channel → Bool)
    (chosen : List (Link ι × Finset ι)) :
    build peerLinks admits chosen = (Graph.declare admits (chosenEdges peerLinks chosen)).close := by
  rw [build_eq, addAll_eq, addAll_eq, Graph.declare, chosenEdges, addEach, addEach, addEach,
    List.foldl_append, List.map_map, List.map_map]
  rfl

/-- Links that replace exactly the endpoint they say: the peer's, or our own. -/
structure Proper (peerLinks candidates : List (Link ι)) : Prop where
  peer : ∀ l ∈ peerLinks, Replaces .peer l.from l.to
  candidate : ∀ l ∈ candidates, Replaces .local l.from l.to

section Graphs

variable {peerLinks peerLinks' candidates : List (Link ι)} {admits : Channel → Bool}
  {chosen chosen' : List (Link ι × Finset ι)}

theorem Proper.edges (h : Proper peerLinks candidates) (hc : ∀ l, Has chosen l → l ∈ candidates) :
    ∀ e ∈ chosenEdges peerLinks chosen, Replaces e.replaces e.from e.to := by
  intro e he
  rw [chosenEdges, List.mem_append, List.mem_map, List.mem_map] at he
  rcases he with ⟨l, hl, rfl⟩ | ⟨l, hl, rfl⟩
  · exact h.peer l hl
  · exact h.candidate l.1 (hc l.1 ⟨l.2, hl⟩)

theorem leads_build (h : Proper peerLinks candidates) (hc : ∀ l, Has chosen l → l ∈ candidates)
    {side : Side} {a b : Channel} : (build peerLinks admits chosen).Leads (some side) a b ↔
      Derives admits (chosenEdges peerLinks chosen) a b side := by
  have hleast := (Graph.declare_close admits (chosenEdges peerLinks chosen)).isLeast
    (oneSided_of_replaces (h.edges hc))
  rw [← hleast.edge, ← build_eq_declare]
  constructor
  · rintro ⟨e, he, rfl, rfl, hk⟩
    exact ⟨_, Graph.mem_edges.mp he, ofKind_some.mp hk⟩
  · rintro ⟨l, hl, hs⟩
    exact ⟨{ l with «from» := a, «to» := b }, Graph.mem_edges.mpr hl, rfl, rfl, ofKind_some.mpr hs⟩

/-- More links, by whatever confirmed, lead everywhere fewer lead. -/
theorem reaches_build (h : Proper peerLinks candidates) (h' : Proper peerLinks' candidates)
    (hc' : ∀ l, Has chosen' l → l ∈ candidates) (hp : ∀ l ∈ peerLinks, l ∈ peerLinks')
    (hle : ∀ l, Has chosen l → Has chosen' l) {side : Side} {a b : Channel}
    (hr : (build peerLinks admits chosen).Reaches (some side) a b) :
    (build peerLinks' admits chosen').Reaches (some side) a b := by
  refine Relation.ReflTransGen.mono (fun x y hxy => ?_) _ _ hr
  have hc := fun l hl => hc' l (hle l hl)
  refine (leads_build h' hc').mpr (((leads_build h hc).mp hxy).of_ends fun e he => ?_)
  rw [chosenEdges, List.mem_append, List.mem_map, List.mem_map] at he
  rcases he with ⟨l, hl, rfl⟩ | ⟨l, hl, rfl⟩
  · exact ⟨_, List.mem_append_left _ (List.mem_map_of_mem (hp l hl)), rfl, rfl, rfl⟩
  · obtain ⟨support, hl'⟩ := hle l.1 ⟨l.2, hl⟩
    exact ⟨_, List.mem_append_right _ (List.mem_map_of_mem hl'), rfl, rfl, rfl⟩

end Graphs

/-! ## Confirmed in the graph of some candidates -/

/-- What has been admitted, whatever confirmed it. -/
def links (s : Closure ι) : List (Link ι) := s.admitted.map Prod.fst

theorem mem_links {s : Closure ι} {l : Link ι} : l ∈ s.links ↔ Has s.admitted l := by
  rw [links, List.mem_map]
  constructor
  · rintro ⟨x, hx, rfl⟩
    exact ⟨x.2, hx⟩
  · rintro ⟨support, hl⟩
    exact ⟨_, hl, rfl⟩

/-- The links as candidates chosen, with nothing named that confirmed them. -/
def bare (A : List (Link ι)) : List (Link ι × Finset ι) := A.map fun l => (l, ∅)

theorem has_bare {A : List (Link ι)} {l : Link ι} : Has (bare A) l ↔ l ∈ A := by
  rw [Has, bare]
  constructor
  · rintro ⟨support, hl⟩
    obtain ⟨x, hx, e⟩ := List.mem_map.mp hl
    exact (Prod.mk.inj e).1 ▸ hx
  · exact fun hl => ⟨∅, List.mem_map_of_mem hl⟩

/-- The candidate is confirmed in the closed graph of the peer links and of `A`. -/
def ConfirmedIn (writers : List Entry) (peerLinks : List (Link FactIdentity))
    (admits : Channel → Bool) (A : List (Link FactIdentity)) (l : Link FactIdentity) : Prop :=
  confirming writers (build peerLinks admits (bare A)) l ≠ none

section Confirmed

variable {writers : List Entry} {peerLinks peerLinks' candidates : List (Link FactIdentity)}
  {admits : Channel → Bool} {l : Link FactIdentity}

theorem confirming_build_mono {chosen chosen' : List (Link FactIdentity × Finset FactIdentity)}
    (h : Proper peerLinks candidates) (h' : Proper peerLinks' candidates)
    (hc' : ∀ l, Has chosen' l → l ∈ candidates) (hp : ∀ l ∈ peerLinks, l ∈ peerLinks')
    (hle : ∀ l, Has chosen l → Has chosen' l)
    (hl : confirming writers (build peerLinks admits chosen) l ≠ none) :
    confirming writers (build peerLinks' admits chosen') l ≠ none := by
  rw [Ne, confirming_none, not_not] at hl ⊢
  obtain ⟨o, ho, hlocal, c, hc, hpeer⟩ := hl
  exact ⟨o, ho, hlocal, c, reaches_build h h' hc' hp hle hc, hpeer⟩

theorem ConfirmedIn.mono {A A' : List (Link FactIdentity)} (h : Proper peerLinks candidates)
    (hA' : A' ⊆ candidates) (hle : A ⊆ A') (hl : ConfirmedIn writers peerLinks admits A l) :
    ConfirmedIn writers peerLinks admits A' l :=
  confirming_build_mono h h (fun _ hl => hA' (has_bare.mp hl)) (fun _ hp => hp)
    (fun _ hl => has_bare.mpr (hle (has_bare.mp hl))) hl

/-- What confirmed the candidates admitted so far has no say in what they confirm. -/
theorem confirmedIn_links {s : Closure FactIdentity} (h : Proper peerLinks candidates)
    (hc : s.links ⊆ candidates) : ConfirmedIn writers peerLinks admits s.links l ↔
      confirming writers (build peerLinks admits s.admitted) l ≠ none := by
  have hc' : ∀ l, Has s.admitted l → l ∈ candidates := fun l hl => hc (mem_links.mpr hl)
  have hb : ∀ l, Has (bare s.links) l → l ∈ candidates := fun l hl => hc (has_bare.mp hl)
  constructor
  · exact confirming_build_mono h h hc' (fun _ hp => hp)
      fun l hl => mem_links.mp (has_bare.mp hl)
  · exact confirming_build_mono h h hb (fun _ hp => hp)
      fun l hl => has_bare.mpr (mem_links.mpr hl)

/-! ## The rounds -/

/-- The members can be ranked below `n` so that each is confirmed in the graph of those of
lower rank. -/
def RankedBelow (writers : List Entry) (peerLinks : List (Link FactIdentity))
    (admits : Channel → Bool) (A : List (Link FactIdentity)) (n : Nat) : Prop :=
  ∃ rank : Link FactIdentity → Nat, ∀ l ∈ A, rank l < n ∧
    ConfirmedIn writers peerLinks admits (A.filter fun x => rank x < rank l) l

/-- Every candidate confirmed in the graph of the set is in it. -/
def ClosedUnder (writers : List Entry) (peerLinks candidates : List (Link FactIdentity))
    (admits : Channel → Bool) (A : List (Link FactIdentity)) : Prop :=
  A ⊆ candidates ∧ ∀ l ∈ candidates, ConfirmedIn writers peerLinks admits A l → l ∈ A

/-- What holds of a closure after every round. -/
structure Rounds (writers : List Entry) (peerLinks candidates : List (Link FactIdentity))
    (admits : Channel → Bool) (s : Closure FactIdentity) : Prop where
  graph : s.graph = build peerLinks admits s.admitted
  all : ∀ l ∈ candidates, l ∈ s.links ∨ l ∈ s.waiting
  waiting : s.waiting ⊆ candidates
  links : s.links ⊆ candidates
  ranked : ∃ n, RankedBelow writers peerLinks admits s.links n
  least : ∀ A, ClosedUnder writers peerLinks candidates admits A → s.links ⊆ A

/-- A candidate the round's graph confirms is confirmed by what was admitted before. -/
theorem Rounds.confirms {s : Closure FactIdentity} (h : Proper peerLinks candidates)
    (hs : Rounds writers peerLinks candidates admits s) :
    confirming writers s.graph l ≠ none ↔ ConfirmedIn writers peerLinks admits s.links l := by
  rw [hs.graph, confirmedIn_links h hs.links]

theorem Rounds.start (peerLinks candidates : List (Link FactIdentity)) :
    Rounds writers peerLinks candidates admits ⟨build peerLinks admits [], [], candidates⟩ where
  graph := rfl
  all := fun _ hl => Or.inr hl
  waiting := fun _ hl => hl
  links := fun _ hl => nomatch hl
  ranked := ⟨0, fun _ => 0, fun _ hl => nomatch hl⟩
  least := fun _ _ _ hl => nomatch hl

/-- The candidates of the `n`th round rank `n`: what confirmed them came in before. -/
theorem RankedBelow.step {A A' : List (Link FactIdentity)} {n : Nat}
    (h : Proper peerLinks candidates) (hA' : A' ⊆ candidates) (hle : A ⊆ A')
    (hnew : ∀ l ∈ A', l ∉ A → ConfirmedIn writers peerLinks admits A l)
    (hr : RankedBelow writers peerLinks admits A n) :
    RankedBelow writers peerLinks admits A' (n + 1) := by
  classical
  obtain ⟨rank, hrank⟩ := hr
  have hfilter : ∀ p : Link FactIdentity → Bool, A'.filter p ⊆ candidates := fun p =>
    fun l hl => hA' (List.mem_filter.mp hl).1
  refine ⟨fun l => if l ∈ A then rank l else n, fun l hl => ?_⟩
  simp only
  split
  · next hin =>
    obtain ⟨hlt, hconf⟩ := hrank l hin
    refine ⟨by omega, hconf.mono h (hfilter _) fun x hx => ?_⟩
    obtain ⟨hxA, hx⟩ := List.mem_filter.mp hx
    exact List.mem_filter.mpr ⟨hle hxA, by simpa [hxA] using hx⟩
  · next hout =>
    refine ⟨by omega, (hnew l hl hout).mono h (hfilter _) fun x hx => ?_⟩
    exact List.mem_filter.mpr ⟨hle hx, by simpa [hx] using (hrank x hx).1⟩

theorem Rounds.step (h : Proper peerLinks candidates) {s s' : Closure FactIdentity}
    (hs : Rounds writers peerLinks candidates admits s)
    (hround : round peerLinks admits (confirming writers) s = some s') :
    Rounds writers peerLinks candidates admits s' ∧ s'.waiting.length < s.waiting.length := by
  obtain ⟨hgraph, hadm, hwaiting, hlt⟩ := round_some hround
  have hlinks : ∀ l, l ∈ s'.links ↔
      l ∈ s.links ∨ (l ∈ s.waiting ∧ confirming writers s.graph l ≠ none) := by
    intro l
    rw [mem_links, mem_links]
    simp only [Has, hadm, exists_or, exists_and_left, Option.ne_none_iff_exists']
  have hsub : s'.links ⊆ candidates := fun l hl =>
    ((hlinks l).mp hl).elim (fun hl => hs.links hl) fun hl => hs.waiting hl.1
  refine ⟨⟨hgraph, fun l hl => ?_, fun l hl => ?_, hsub, ?_, fun A hA l hl => ?_⟩, hlt⟩
  · rcases hs.all l hl with hin | hw
    · exact Or.inl ((hlinks l).mpr (Or.inl hin))
    · by_cases hc : confirming writers s.graph l = none
      · exact Or.inr (hwaiting ▸ List.mem_filter.mpr ⟨hw, Option.isNone_iff_eq_none.mpr hc⟩)
      · exact Or.inl ((hlinks l).mpr (Or.inr ⟨hw, hc⟩))
  · exact hs.waiting (List.mem_filter.mp (hwaiting ▸ hl)).1
  · obtain ⟨n, hn⟩ := hs.ranked
    refine ⟨n + 1, hn.step h hsub (fun l hl => (hlinks l).mpr (Or.inl hl)) fun l hl hout => ?_⟩
    exact (hs.confirms h).mp (((hlinks l).mp hl).resolve_left hout).2
  · rcases (hlinks l).mp hl with hl | ⟨hw, hc⟩
    · exact hs.least A hA hl
    · exact hA.2 l (hs.waiting hw) (((hs.confirms h).mp hc).mono h hA.1 (hs.least A hA))

theorem closure_ends (peerLinks candidates : List (Link FactIdentity)) (admits : Channel → Bool) :
    round peerLinks admits (confirming writers)
      (closure peerLinks candidates admits (confirming writers)) = none := by
  rw [closure]
  exact (Loop.run_spec (fun _ => True) (fun s : Closure FactIdentity => s.waiting.length)
    (fun _ _ _ hround => ⟨trivial, (round_some hround).shorter⟩)
    (s := ⟨build peerLinks admits [], [], candidates⟩) trivial le_rfl).2

theorem closure_rounds (h : Proper peerLinks candidates) :
    Rounds writers peerLinks candidates admits
      (closure peerLinks candidates admits (confirming writers)) :=
  Loop.run_inv (Rounds writers peerLinks candidates admits)
    (fun _ _ hs hround => (hs.step h hround).1) (Rounds.start peerLinks candidates)

/-- What a closure admits is exactly what its own graph confirms. -/
theorem mem_closure_links (h : Proper peerLinks candidates) :
    l ∈ (closure peerLinks candidates admits (confirming writers)).links ↔ l ∈ candidates ∧
      ConfirmedIn writers peerLinks admits
        (closure peerLinks candidates admits (confirming writers)).links l := by
  have hs := @closure_rounds writers peerLinks candidates admits h
  constructor
  · intro hl
    obtain ⟨n, rank, hrank⟩ := hs.ranked
    exact ⟨hs.links hl, (hrank l hl).2.mono h hs.links fun x hx => (List.mem_filter.mp hx).1⟩
  · rintro ⟨hl, hconf⟩
    rcases hs.all l hl with hin | hw
    · exact hin
    · exact absurd (round_none.mp (closure_ends peerLinks candidates admits) l hw)
        ((hs.confirms h).mpr hconf)

end Confirmed

/-! ## The least set -/

/-- The least of the sets of candidates that hold every candidate their own graph confirms: it
holds no other, its members can be ranked by what confirms them, and no ring of candidates that
only its own members would confirm gets in. -/
structure LeastConfirmed (writers : List Entry) (peerLinks candidates : List (Link FactIdentity))
    (admits : Channel → Bool) (A : List (Link FactIdentity)) : Prop where
  within : A ⊆ candidates
  confirmed : ∀ l ∈ candidates, l ∈ A ↔ ConfirmedIn writers peerLinks admits A l
  least : ∀ B, ClosedUnder writers peerLinks candidates admits B → A ⊆ B
  ranked : ∃ rank : Link FactIdentity → Nat, ∀ l ∈ A,
    ConfirmedIn writers peerLinks admits (A.filter fun x => rank x < rank l) l
  noRing : ∀ ring : Link FactIdentity → Bool,
    (∀ l ∈ candidates, ring l = true →
      ¬ ConfirmedIn writers peerLinks admits (A.filter fun x => !ring x) l) →
    ∀ l ∈ A, ring l = false

section Least

variable {writers : List Entry} {peerLinks peerLinks' candidates candidates' :
  List (Link FactIdentity)} {admits : Channel → Bool} {A A' : List (Link FactIdentity)}

theorem noRing_of_rank (h : Proper peerLinks candidates) (hA : A ⊆ candidates)
    {rank : Link FactIdentity → Nat}
    (hr : ∀ l ∈ A, ConfirmedIn writers peerLinks admits (A.filter fun x => rank x < rank l) l)
    {ring : Link FactIdentity → Bool}
    (hring : ∀ l ∈ candidates, ring l = true →
      ¬ ConfirmedIn writers peerLinks admits (A.filter fun x => !ring x) l) :
    ∀ l ∈ A, ring l = false := by
  -- the first member of the ring to come in would be confirmed without it
  have hbelow : ∀ n, ∀ l ∈ A, rank l < n → ring l = false := by
    intro n
    induction n with
    | zero => exact fun l _ hl => absurd hl (Nat.not_lt_zero _)
    | succ n ih =>
        intro l hl hlt
        by_contra hin
        rw [Bool.not_eq_false] at hin
        refine hring l (hA hl) hin ((hr l hl).mono h
          (fun x hx => hA (List.mem_filter.mp hx).1) fun x hx => ?_)
        obtain ⟨hxA, hx⟩ := List.mem_filter.mp hx
        refine List.mem_filter.mpr ⟨hxA, ?_⟩
        rw [ih x hxA (by have := of_decide_eq_true hx; omega)]
        rfl
  exact fun l hl => hbelow _ l hl (Nat.lt_succ_self _)

theorem leastConfirmed_closure (h : Proper peerLinks candidates) :
    LeastConfirmed writers peerLinks candidates admits
      (closure peerLinks candidates admits (confirming writers)).links := by
  have hs := @closure_rounds writers peerLinks candidates admits h
  obtain ⟨n, rank, hrank⟩ := hs.ranked
  refine ⟨hs.links, fun l hl => ?_, hs.least, ⟨rank, fun l hl => (hrank l hl).2⟩, ?_⟩
  · rw [mem_closure_links h]
    exact and_iff_right hl
  · exact fun ring => noRing_of_rank h hs.links fun l hl => (hrank l hl).2

/-- The least set is one, however the links are listed. -/
theorem LeastConfirmed.subset (h : Proper peerLinks candidates)
    (h' : Proper peerLinks' candidates') (hp : ∀ l, l ∈ peerLinks' ↔ l ∈ peerLinks)
    (hc : ∀ l, l ∈ candidates' ↔ l ∈ candidates)
    (hA : LeastConfirmed writers peerLinks candidates admits A)
    (hA' : LeastConfirmed writers peerLinks' candidates' admits A') : A ⊆ A' := by
  have hsub : A' ⊆ candidates := fun l hl => (hc l).mp (hA'.within hl)
  refine hA.least A' ⟨hsub, fun l hl hconf => (hA'.confirmed l ((hc l).mpr hl)).mpr ?_⟩
  refine @confirming_build_mono writers peerLinks peerLinks' candidates admits l _ _ h
    ⟨h'.peer, h.candidate⟩ (fun x hx => hsub (has_bare.mp hx)) (fun x hx => (hp x).mpr hx)
    (fun _ hx => hx) hconf

end Least

/-- The rounds end, whatever the links; and for links that replace exactly the endpoint they
say, what they admitted is the least set of candidates that holds every candidate its graph
confirms, in whatever order and however often the links are listed. -/
theorem closure_is_ranked (writers : List Entry) (peerLinks candidates : List (Link FactIdentity))
    (admits : Channel → Bool) :
    round peerLinks admits (confirming writers)
      (closure peerLinks candidates admits (confirming writers)) = none ∧
    (Proper peerLinks candidates →
      LeastConfirmed writers peerLinks candidates admits
        (closure peerLinks candidates admits (confirming writers)).links ∧
      ∀ peerLinks' candidates' : List (Link FactIdentity),
        (∀ l, l ∈ peerLinks' ↔ l ∈ peerLinks) → (∀ l, l ∈ candidates' ↔ l ∈ candidates) →
        ∀ l, l ∈ (closure peerLinks' candidates' admits (confirming writers)).links ↔
          l ∈ (closure peerLinks candidates admits (confirming writers)).links) := by
  refine ⟨closure_ends peerLinks candidates admits, fun h => ⟨leastConfirmed_closure h, ?_⟩⟩
  intro peerLinks' candidates' hp hc l
  have h' : Proper peerLinks' candidates' :=
    ⟨fun l hl => h.peer l ((hp l).mp hl), fun l hl => h.candidate l ((hc l).mp hl)⟩
  have hA := @leastConfirmed_closure writers peerLinks candidates admits h
  have hA' := @leastConfirmed_closure writers peerLinks' candidates' admits h'
  exact ⟨fun hl => hA'.subset h' h (fun l => (hp l).symm) (fun l => (hc l).symm) hA hl,
    fun hl => hA.subset h h' hp hc hA' hl⟩

/-- The links facts declare are of that kind. -/
theorem proper_linksOf {entries : Entries} (hE : entries.Wf) (admits : Entry → Bool) :
    Proper (entries.peerLinks admits) (entries.candidates admits) := by
  constructor
  · intro l hl
    obtain ⟨e, he, _, hlinks, _⟩ := mem_linksOf.mp hl
    exact (hE.links he hlinks).1
  · intro l hl
    obtain ⟨e, he, _, hlinks, _⟩ := mem_linksOf.mp hl
    exact (hE.links he hlinks).1

/-! ## The diamond, and a link that replaces the other endpoint

The second candidate below is declared our own rotation of what the diamond derives
as the peer's. It is confirmed through that edge, and being admitted takes it away. -/

def entriesOf (facts : List ContinuityFact) : Entries :=
  facts.map fun fact => entryOf (identityOf fact) fact

theorem wf_bothRotated : (entriesOf bothRotated).Wf where
  nodup := by
    rw [entriesOf, List.map_map]
    exact List.Nodup.map identityOf_injective (by decide)
  valid he := by
    obtain ⟨f, hf, rfl⟩ := List.mem_map.mp he
    exact bothRotated_valid f hf
  entry he := by
    obtain ⟨f, _, rfl⟩ := List.mem_map.mp he
    rfl

/-- What `bothRotated` has the closure admit. -/
def diamond : Closure FactIdentity :=
  closure ((entriesOf bothRotated).peerLinks fun _ => true)
    ((entriesOf bothRotated).candidates fun _ => true) (fun _ => true)
    (confirming ((entriesOf bothRotated).writersOf fun _ => true))

theorem closure_is_ranked_bothRotated :
    LeastConfirmed ((entriesOf bothRotated).writersOf fun _ => true)
      ((entriesOf bothRotated).peerLinks fun _ => true)
      ((entriesOf bothRotated).candidates fun _ => true) (fun _ => true) diamond.links :=
  ((closure_is_ranked ((entriesOf bothRotated).writersOf fun _ => true)
    ((entriesOf bothRotated).peerLinks fun _ => true)
    ((entriesOf bothRotated).candidates fun _ => true) (fun _ => true)).2
    (proper_linksOf wf_bothRotated _)).1

def writersAtBoth : List Entry :=
  entriesOf [.peerObservation ⟨aliceOld, bobOld⟩ none, .peerObservation ⟨aliceNew, bobNew⟩ none]

def rotatedPeer : List (Link FactIdentity) :=
  [⟨identityOf (.peerObservation ⟨aliceOld, bobNew⟩ (some bobOld)), ⟨aliceOld, bobOld⟩,
    ⟨aliceOld, bobNew⟩⟩]

def asOurs : Link FactIdentity :=
  ⟨identityOf (.localDecision ⟨aliceNew, bobOld⟩ (.rotate bobNew)), ⟨aliceNew, bobOld⟩,
    ⟨aliceNew, bobNew⟩⟩

def rotatedOurs : List (Link FactIdentity) :=
  [⟨identityOf (.localDecision ⟨aliceOld, bobOld⟩ (.rotate aliceNew)), ⟨aliceOld, bobOld⟩,
    ⟨aliceNew, bobOld⟩⟩, asOurs]

/-- Of the sets whose members their own graph confirms the least is empty, which what is
admitted need not be; nor need it be one of them where a link is not what it says. -/
theorem admitted_not_least :
    (¬ ∀ A, A ⊆ (entriesOf bothRotated).candidates (fun _ => true) →
      (∀ l ∈ A, ConfirmedIn ((entriesOf bothRotated).writersOf fun _ => true)
        ((entriesOf bothRotated).peerLinks fun _ => true) (fun _ => true) A l) →
      diamond.links ⊆ A) ∧
    asOurs ∈ (closure rotatedPeer rotatedOurs (fun _ => true) (confirming writersAtBoth)).links ∧
    ¬ ConfirmedIn writersAtBoth rotatedPeer (fun _ => true)
      (closure rotatedPeer rotatedOurs (fun _ => true) (confirming writersAtBoth)).links asOurs := by
  refine ⟨fun h => ?_, by decide +kernel, ?_⟩
  · have hempty := h [] (List.nil_subset _) fun _ hl => nomatch hl
    have hsome : diamond.links ≠ [] := by decide +kernel
    exact hsome (List.subset_nil.mp hempty)
  · rw [ConfirmedIn, not_not]
    decide +kernel

end Closure

end Estoc.Continuity
