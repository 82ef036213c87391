import Estoc.Continuity.Joins

/-!
# What a forward search finds

A search reaches exactly the channels a walk along edges of its kind leads to,
and rebuilds such a walk for each from the edges they were first reached by.
The invariant carries that walk for every channel reached, no longer than the
channels reached before it, which is why following the edges back needs no more
fuel than there are channels.

A search that is given a channel to stop at says nothing of the others: it is
complete for that one only.
-/

namespace Estoc.Continuity

set_option linter.unusedSectionVars false

variable {ι : Type} [DecidableEq ι]

/-- An edge a search for `kind` takes; every edge when no kind is given. -/
def OfKind (kind : Option Side) (e : Edge ι) : Prop := ∀ side, kind = some side → e.replaces = side

theorem ofKind_none (e : Edge ι) : OfKind none e := fun _ h => nomatch h

theorem ofKind_some {side : Side} {e : Edge ι} : OfKind (some side) e ↔ e.replaces = side :=
  ⟨fun h => h side rfl, fun h _ hs => by cases hs; exact h⟩

theorem ofKind_iff {kind : Option Side} {e : Edge ι} :
    OfKind kind e ↔ ¬ kind.any (fun side => e.replaces ≠ side) = true := by
  cases kind with
  | none => exact iff_of_true (ofKind_none e) (by simp)
  | some side => rw [ofKind_some]; simp

namespace Graph

/-- One edge of the kind leads from `a` to `b`. -/
def Leads (g : Graph ι) (kind : Option Side) (a b : Channel) : Prop :=
  ∃ e ∈ g.edges, e.from = a ∧ e.to = b ∧ OfKind kind e

abbrev Reaches (g : Graph ι) (kind : Option Side) : Channel → Channel → Prop :=
  Relation.ReflTransGen (g.Leads kind)

theorem Leads.any {g : Graph ι} {kind : Option Side} {a b : Channel}
    (h : g.Leads kind a b) : g.Leads none a b :=
  let ⟨e, he, hf, ht, _⟩ := h
  ⟨e, he, hf, ht, ofKind_none e⟩

/-- The edges, in their order, lead from `a` to `b`. -/
def Trail (g : Graph ι) (kind : Option Side) : Channel → List (Edge ι) → Channel → Prop
  | a, [], b => a = b
  | a, e :: es, b => e ∈ g.edges ∧ e.from = a ∧ OfKind kind e ∧ Trail g kind e.to es b

theorem Trail.snoc {g : Graph ι} {kind : Option Side} {e : Edge ι} (he : e ∈ g.edges)
    (hk : OfKind kind e) :
    ∀ {es : List (Edge ι)} {a : Channel}, g.Trail kind a es e.from →
      g.Trail kind a (es ++ [e]) e.to
  | [], _, h => ⟨he, h.symm, hk, rfl⟩
  | _ :: _, _, ⟨hx, hf, hkx, h⟩ => ⟨hx, hf, hkx, Trail.snoc he hk h⟩

theorem Trail.reaches {g : Graph ι} {kind : Option Side} :
    ∀ {es : List (Edge ι)} {a b : Channel}, g.Trail kind a es b → g.Reaches kind a b
  | [], _, _, h => by cases h; exact .refl
  | e :: _, _, _, ⟨he, hf, hk, h⟩ => .head ⟨e, he, hf, rfl, hk⟩ h.reaches

theorem Trail.mem {g : Graph ι} {kind : Option Side} :
    ∀ {es : List (Edge ι)} {a b : Channel}, g.Trail kind a es b →
      ∀ e ∈ es, e ∈ g.edges ∧ OfKind kind e
  | _ :: _, _, _, ⟨hx, _, hkx, h⟩, e, he => by
      rcases List.mem_cons.mp he with rfl | he
      · exact ⟨hx, hkx⟩
      · exact h.mem e he

end Graph

namespace Reach

variable {r : Reach ι}

/-- The edges back from `c`, up to a channel with none. -/
inductive Traced (r : Reach ι) : Channel → List (Edge ι) → Prop
  | start {c} : r.reached.get? c = some none → Traced r c []
  | via {c via es} : r.reached.get? c = some (some via) → Traced r via.from es →
      Traced r c (es ++ [via])

theorem back_of_traced {c : Channel} {es : List (Edge ι)} (h : Traced r c es) :
    ∀ (fuel : Nat) (trail : List (Edge ι)), es.length ≤ fuel →
      r.back fuel c trail = es ++ trail := by
  induction h with
  | start h =>
      intro fuel trail _
      cases fuel with
      | zero => rfl
      | succ fuel => rw [back, h]; rfl
  | via h _ ih =>
      intro fuel trail hf
      rw [List.length_append, List.length_singleton] at hf
      cases fuel with
      | zero => omega
      | succ fuel =>
          rw [back, h]
          simp only
          rw [ih fuel _ (by omega), List.append_assoc]
          rfl

theorem Traced.set {c : Channel} {es : List (Edge ι)} (h : Traced r c es) {y : Channel}
    {v : Option (Edge ι)} (hy : y ∉ r.reached.keys) : Traced ⟨r.reached.set y v⟩ c es := by
  have hne : ∀ {x : Channel} {o}, r.reached.get? x = some o → x ≠ y := by
    rintro x o hx rfl
    exact hy (OMap.mem_keys.mpr ⟨o, hx⟩)
  induction h with
  | start h => exact .start (by rw [OMap.get?_set_ne _ _ (hne h)]; exact h)
  | via h _ ih => exact .via (by rw [OMap.get?_set_ne _ _ (hne h)]; exact h) ih

@[simp] theorem mem_channels {c : Channel} : c ∈ r.channels ↔ r.has c = true := by
  rw [channels, has, OMap.has_eq_true]

theorem nodup_channels : r.channels.Nodup := r.reached.nodup_keys

end Reach

namespace Graph

section Search

variable {g : Graph ι} {start : Channel} {kind : Option Side} {til : Option Channel}

/-- What the search keeps, the edges `rest` of the channel it expands still to be
looked at. -/
structure SearchInv (g : Graph ι) (start : Channel) (kind : Option Side)
    (til : Option Channel) (rest : List (Edge ι)) (s : Search ι) : Prop where
  has_start : s.reach.has start = true
  traced : ∀ {x}, s.reach.has x = true → ∃ es, s.reach.Traced x es ∧
    es.length < s.reach.reached.size ∧ g.Trail kind start es x
  frontier : ∀ {x}, x ∈ s.frontier → s.reach.has x = true
  closed : s.met = false → ∀ {x}, s.reach.has x = true → x ∉ s.frontier →
    ∀ {e}, e ∈ g.edges → e.from = x → OfKind kind e → s.reach.has e.to = true ∨ e ∈ rest
  met : s.met = true → ∃ b, til = some b ∧ s.reach.has b = true

/-- What is left to reach: the edges to a channel not reached. -/
def unreached (g : Graph ι) (s : Search ι) : List (Edge ι) :=
  g.edges.filter fun e => !s.reach.has e.to

def searchCost (g : Graph ι) (s : Search ι) : Nat :=
  s.frontier.length + (g.unreached s).length

theorem has_set {r : Reach ι} {y x : Channel} {v : Option (Edge ι)} :
    Reach.has ⟨r.reached.set y v⟩ x = true ↔ r.has x = true ∨ x = y := by
  rw [Reach.has, OMap.has_eq_true, OMap.mem_keys_set, Reach.has, OMap.has_eq_true]

theorem size_set {r : Reach ι} {y : Channel} {v : Option (Edge ι)}
    (hy : y ∉ r.reached.keys) : (r.reached.set y v).size = r.reached.size + 1 := by
  have h : (r.reached.set y v).keys.length = r.reached.keys.length + 1 := by
    rw [OMap.keys_set, if_neg hy, List.length_append, List.length_singleton]
  simpa [OMap.keys, OMap.size] using h

/-- Reaching the end of an edge of the kind for the first time. -/
theorem SearchInv.arrive {rest : List (Edge ι)} {s : Search ι} {e : Edge ι}
    (h : SearchInv g start kind til (e :: rest) s) (he : e ∈ g.edges)
    (hk : OfKind kind e) (hfrom : s.reach.has e.from = true)
    (hnew : ¬ s.reach.has e.to = true) (s' : Search ι)
    (hreach : s'.reach = ⟨s.reach.reached.set e.to (some e)⟩)
    (hs : (s'.met = false ∧ s.met = false ∧ s'.frontier = s.frontier ++ [e.to]) ∨
      (s'.met = true ∧ til = some e.to ∧ s'.frontier = s.frontier)) :
    SearchInv g start kind til rest s' ∧ g.searchCost s' ≤ g.searchCost s := by
  have hkeys : e.to ∉ s.reach.reached.keys := by
    rwa [Reach.has, OMap.has_eq_true] at hnew
  have hhas : ∀ {x}, s'.reach.has x = true ↔ s.reach.has x = true ∨ x = e.to := by
    intro x; rw [hreach]; exact has_set
  have hfront : ∀ {x}, x ∈ s'.frontier → x ∈ s.frontier ∨ x = e.to := by
    intro x hx
    rcases hs with ⟨_, _, hf⟩ | ⟨_, _, hf⟩
    · rw [hf] at hx
      exact (List.mem_append.mp hx).imp id List.mem_singleton.mp
    · rw [hf] at hx
      exact Or.inl hx
  refine ⟨⟨hhas.mpr (Or.inl h.has_start), ?_, ?_, ?_, ?_⟩, ?_⟩
  · intro x hx
    rcases hhas.mp hx with hx | rfl
    · obtain ⟨es, ht, hlen, htrail⟩ := h.traced hx
      rw [hreach, size_set hkeys]
      exact ⟨es, ht.set hkeys, hlen.trans (Nat.lt_succ_self _), htrail⟩
    · obtain ⟨es, ht, hlen, htrail⟩ := h.traced hfrom
      rw [hreach, size_set hkeys]
      refine ⟨es ++ [e], .via (OMap.get?_set_self _ _ _) (ht.set hkeys), ?_,
        htrail.snoc he hk⟩
      rw [List.length_append, List.length_singleton]
      omega
  · intro x hx
    exact hhas.mpr ((hfront hx).imp h.frontier id)
  · intro hmet x hx hxf e' he' hfe hke
    rcases hs with ⟨_, hold, hf⟩ | ⟨htrue, _, _⟩
    · rw [hf, List.mem_append, List.mem_singleton, not_or] at hxf
      have hx' := (hhas.mp hx).resolve_right hxf.2
      rcases h.closed hold hx' hxf.1 he' hfe hke with ht | ht
      · exact Or.inl (hhas.mpr (Or.inl ht))
      · rcases List.mem_cons.mp ht with rfl | ht
        · exact Or.inl (hhas.mpr (Or.inr rfl))
        · exact Or.inr ht
    · rw [htrue] at hmet; cases hmet
  · intro hmet
    rcases hs with ⟨hfalse, _⟩ | ⟨_, htil, _⟩
    · rw [hfalse] at hmet; cases hmet
    · exact ⟨e.to, htil, hhas.mpr (Or.inr rfl)⟩
  · -- the edge itself is no longer to an unreached channel
    have hlt : (g.unreached s').length < (g.unreached s).length := by
      have hsub : (g.unreached s').Sublist (g.unreached s) := by
        refine List.monotone_filter_right _ fun x hx => ?_
        rw [Bool.not_eq_true', ← Bool.not_eq_true] at hx ⊢
        exact fun hx' => hx (hhas.mpr (Or.inl hx'))
      refine lt_of_le_of_ne hsub.length_le fun heq => ?_
      have hmem : e ∈ g.unreached s := List.mem_filter.mpr ⟨he, by simpa using hnew⟩
      rw [← hsub.eq_of_length heq, unreached, List.mem_filter] at hmem
      rw [hhas.mpr (Or.inr rfl)] at hmem
      simp at hmem
    have hlen : s'.frontier.length ≤ s.frontier.length + 1 := by
      rcases hs with ⟨_, _, hf⟩ | ⟨_, _, hf⟩ <;> rw [hf] <;> simp
    rw [searchCost, searchCost]
    omega

theorem SearchInv.skip {rest : List (Edge ι)} {s : Search ι} {e : Edge ι}
    (h : SearchInv g start kind til (e :: rest) s)
    (he : ¬ OfKind kind e ∨ s.reach.has e.to = true) : SearchInv g start kind til rest s := by
  refine ⟨h.has_start, h.traced, h.frontier, ?_, h.met⟩
  intro hmet x hx hxf e' he' hfe hke
  rcases h.closed hmet hx hxf he' hfe hke with ht | ht
  · exact Or.inl ht
  · rcases List.mem_cons.mp ht with rfl | ht
    · exact Or.inl (he.resolve_left fun hn => hn hke)
    · exact Or.inr ht

theorem expand_spec :
    ∀ {rest : List (Edge ι)} {s : Search ι}, s.met = false →
      (∀ e ∈ rest, e ∈ g.edges ∧ s.reach.has e.from = true) →
      SearchInv g start kind til rest s →
      SearchInv g start kind til [] (expand kind til rest s) ∧
        g.searchCost (expand kind til rest s) ≤ g.searchCost s
  | [], s, _, _, h => ⟨h, le_rfl⟩
  | e :: rest, s, hmet, hrest, h => by
      obtain ⟨he, hfrom⟩ := hrest e List.mem_cons_self
      have htail := fun x hx => hrest x (List.mem_cons_of_mem e hx)
      rw [expand]
      split
      · next hk =>
        exact expand_spec hmet htail (h.skip (Or.inl fun hok => ofKind_iff.mp hok hk))
      · next hk =>
        have hok : OfKind kind e := ofKind_iff.mpr hk
        split
        · next harr =>
          refine expand_spec hmet htail (h.skip (Or.inr ?_))
          rw [Reach.arrive] at harr
          split at harr
          · assumption
          · cases harr
        · next reach harr =>
          have hnew : ¬ s.reach.has e.to = true ∧
              reach = ⟨s.reach.reached.set e.to (some e)⟩ := by
            rw [Reach.arrive] at harr
            split at harr
            · cases harr
            · next hn => exact ⟨hn, (Option.some.inj harr).symm⟩
          split
          · next htil =>
            have harrive := h.arrive he hok hfrom hnew.1
              { s with reach := reach, met := true } hnew.2 (Or.inr ⟨rfl, htil, rfl⟩)
            refine ⟨⟨harrive.1.has_start, harrive.1.traced, harrive.1.frontier, ?_,
              harrive.1.met⟩, harrive.2⟩
            intro hfalse
            cases hfalse
          · next htil =>
            have harrive := h.arrive he hok hfrom hnew.1
              { s with reach := reach, frontier := s.frontier ++ [e.to] } hnew.2
              (Or.inl ⟨hmet, hmet, rfl⟩)
            have hmore : ∀ x ∈ rest, x ∈ g.edges ∧ reach.has x.from = true := by
              intro x hx
              refine ⟨(htail x hx).1, ?_⟩
              rw [hnew.2]
              exact has_set.mpr (Or.inl (htail x hx).2)
            have hrec := expand_spec (s := { s with reach, frontier := s.frontier ++ [e.to] })
              hmet hmore harrive.1
            exact ⟨hrec.1, hrec.2.trans harrive.2⟩

theorem searchStep_spec {s s' : Search ι} (h : SearchInv g start kind til [] s)
    (hs : g.searchStep kind til s = some s') :
    SearchInv g start kind til [] s' ∧ g.searchCost s' < g.searchCost s := by
  rw [searchStep] at hs
  split at hs
  · cases hs
  · next hmet =>
    have hmet : s.met = false := by simpa using hmet
    split at hs
    · cases hs
    · next c rest hf =>
      cases hs
      have hc : s.reach.has c = true := h.frontier (by rw [hf]; exact List.mem_cons_self)
      have hedges : ∀ e ∈ Cmp.sortBy (fun a b => compareChannels a.to b.to) (g.from c),
          e ∈ g.edges ∧ s.reach.has e.from = true := by
        intro e he
        obtain ⟨he, hfrom⟩ := mem_from.mp (Cmp.mem_sortBy.mp he)
        exact ⟨he, by rw [hfrom]; exact hc⟩
      -- popping `c` leaves exactly the edges it has to be looked at
      have hpop : SearchInv g start kind til
          (Cmp.sortBy (fun a b => compareChannels a.to b.to) (g.from c))
          { s with frontier := rest } := by
        refine ⟨h.has_start, h.traced, fun hx => h.frontier ?_, ?_, h.met⟩
        · rw [hf]; exact List.mem_cons_of_mem _ hx
        · intro _ x hx hxf e he hfe hke
          by_cases hxc : x = c
          · exact Or.inr (Cmp.mem_sortBy.mpr (mem_from.mpr ⟨he, hfe.trans hxc⟩))
          · refine Or.inl ((h.closed hmet hx ?_ he hfe hke).resolve_right List.not_mem_nil)
            rw [hf, List.mem_cons, not_or]
            exact ⟨hxc, hxf⟩
      have hexp := expand_spec (s := { s with frontier := rest }) hmet hedges hpop
      refine ⟨hexp.1, hexp.2.trans_lt ?_⟩
      rw [searchCost, searchCost, hf, List.length_cons]
      show rest.length + (g.unreached s).length < rest.length + 1 + (g.unreached s).length
      omega

end Search

theorem searchInv_new (g : Graph ι) (start : Channel) (kind : Option Side)
    (til : Option Channel) :
    SearchInv g start kind til [] ⟨Reach.new start, [start], false⟩ := by
  have hkeys : ∀ {x}, (Reach.new start : Reach ι).has x = true ↔ x = start := by
    intro x
    rw [Reach.new, has_set, Reach.has, OMap.has_eq_true]
    simp [OMap.keys, OMap.empty]
  have hsize : 0 < (Reach.new start : Reach ι).reached.size := by
    have := hkeys.mpr (rfl : start = start)
    rw [Reach.has, OMap.has_eq_true] at this
    rw [← OMap.length_keys]
    exact List.length_pos_of_mem this
  refine ⟨hkeys.mpr rfl, ?_, ?_, ?_, fun h => Bool.noConfusion h⟩
  · intro x hx
    obtain rfl := hkeys.mp hx
    exact ⟨[], .start (OMap.get?_set_self _ _ _), hsize, rfl⟩
  · intro x hx
    exact hkeys.mpr (List.mem_singleton.mp hx)
  · intro _ x hx hxf
    exact absurd (List.mem_singleton.mpr (hkeys.mp hx)) hxf

/-- A search finds a walk to what it reached, and reaches everything a walk leads
to, or the one channel it was to stop at. -/
theorem reach_spec (g : Graph ι) (start : Channel) (kind : Option Side)
    (til : Option Channel) :
    (∀ {x}, (g.reach start kind til).has x = true →
      ∃ es, (g.reach start kind til).pathTo x = some es ∧ g.Trail kind start es x) ∧
    ∀ {x}, til = none ∨ til = some x → g.Reaches kind start x →
      (g.reach start kind til).has x = true := by
  -- a search that did not end early has looked along every edge of what it reached
  have hend : ∃ s, SearchInv g start kind til [] s ∧ s.reach = g.reach start kind til ∧
      (til = some start ∨ g.searchStep kind til s = none) := by
    rw [reach]
    split
    · next htil => exact ⟨_, searchInv_new g start kind til, rfl, Or.inl htil⟩
    · next htil =>
      have hcost : g.searchCost ⟨Reach.new start, [start], false⟩ ≤ g.out.size + 1 := by
        have hlen : g.edges.length = g.out.size := List.length_map _
        have hle : (g.unreached ⟨Reach.new start, [start], false⟩).length ≤ g.edges.length :=
          List.length_filter_le _ _
        rw [searchCost, List.length_singleton]
        omega
      have h := Loop.run_spec (SearchInv g start kind til []) g.searchCost
        (fun _ _ hs hstep => searchStep_spec hs hstep) (searchInv_new g start kind til) hcost
      exact ⟨_, h.1, rfl, Or.inr h.2⟩
  obtain ⟨s, hinv, hreach, hover⟩ := hend
  rw [← hreach]
  refine ⟨?_, ?_⟩
  · intro x hx
    obtain ⟨es, ht, hlen, htrail⟩ := hinv.traced hx
    refine ⟨es, ?_, htrail⟩
    rw [Reach.pathTo, if_pos hx, Reach.back_of_traced ht _ _ hlen.le, List.append_nil]
  · intro x hx hwalk
    by_cases hmet : s.met = true
    · -- the search met the channel it was to stop at, which is the one asked for
      obtain ⟨b, hb, hhas⟩ := hinv.met hmet
      rcases hx with hx | hx
      · rw [hx] at hb; cases hb
      · rw [hx] at hb
        cases hb
        exact hhas
    · rw [Bool.not_eq_true] at hmet
      rcases hover with htil | hover
      · rcases hx with hx | hx
        · rw [hx] at htil; cases htil
        · rw [hx] at htil
          cases htil
          exact hinv.has_start
      · have hfront : s.frontier = [] := by
          rw [searchStep, hmet] at hover
          cases hf : s.frontier with
          | nil => rfl
          | cons c rest => rw [hf] at hover; cases hover
        have hall : ∀ {y}, g.Reaches kind start y → s.reach.has y = true := by
          intro y hy
          induction hy with
          | refl => exact hinv.has_start
          | tail _ hlead ih =>
              obtain ⟨e, he, hfe, hte, hke⟩ := hlead
              rw [← hte]
              refine (hinv.closed hmet ih ?_ he hfe hke).resolve_right List.not_mem_nil
              rw [hfront]
              exact List.not_mem_nil
        exact hall hwalk

theorem mem_reach {g : Graph ι} {start : Channel} {kind : Option Side} {x : Channel} :
    x ∈ (g.reach start kind).channels ↔ g.Reaches kind start x := by
  rw [Reach.mem_channels]
  constructor
  · intro h
    obtain ⟨_, _, ht⟩ := (g.reach_spec start kind none).1 h
    exact ht.reaches
  · exact (g.reach_spec start kind none).2 (Or.inl rfl)

/-- What the search has a path to, it has a walk to. -/
theorem trail_of_pathTo {g : Graph ι} {start : Channel} {kind til : Option _} {x : Channel}
    {es : List (Edge ι)} (h : (g.reach start kind til).pathTo x = some es) :
    g.Trail kind start es x := by
  have hx : (g.reach start kind til).has x = true := by
    rw [Reach.pathTo] at h
    split at h
    · assumption
    · cases h
  obtain ⟨es', he, ht⟩ := (g.reach_spec start kind til).1 hx
  rw [h] at he
  cases he
  exact ht

theorem pathTo_isSome {g : Graph ι} {start : Channel} {kind : Option Side} {x : Channel} :
    ((g.reach start kind).pathTo x).isSome = true ↔ g.Reaches kind start x := by
  rw [← mem_reach, Reach.mem_channels, Reach.pathTo]
  split <;> simp [*]

theorem path_eq_some {g : Graph ι} {a b : Channel} {es : List (Edge ι)}
    (h : g.path a b = some es) : g.Trail none a es b := trail_of_pathTo h

theorem path_eq_none {g : Graph ι} {a b : Channel} :
    g.path a b = none ↔ ¬ g.Reaches none a b := by
  constructor
  · intro h hr
    obtain ⟨es, he, _⟩ := (g.reach_spec a none (some b)).1
      ((g.reach_spec a none (some b)).2 (Or.inr rfl) hr)
    rw [path, he] at h
    cases h
  · intro h
    cases hp : g.path a b with
    | none => rfl
    | some es => exact absurd (path_eq_some hp).reaches h

end Graph

end Estoc.Continuity
