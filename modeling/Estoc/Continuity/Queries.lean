import Estoc.Continuity.Monotone

/-!
# What a head answers for

The search for a head walks the positive reach of a pair and collects, channel
by channel, what speaks against an answer. A head is answered only when nothing
was collected, so each thing collected becomes, read backwards, something known
of every channel of the reach. `Answered` is that list, `head_eq_head` reads it
off the code.
-/

namespace Estoc.Continuity

set_option linter.unusedSectionVars false

/-- A part of what is collected, taken of a union part by part. -/
theorem mem_foldl_union {part : Collected → Finset FactIdentity}
    (hpart : ∀ a b, part (a.union b) = part a ∪ part b) {l : List Collected} {i : FactIdentity} :
    ∀ {acc : Collected}, i ∈ part (l.foldl Collected.union acc) ↔
      i ∈ part acc ∨ ∃ x ∈ l, i ∈ part x := by
  induction l with
  | nil => intro acc; simp
  | cons x l ih =>
      intro acc
      rw [List.foldl_cons, ih, hpart, Finset.mem_union]
      simp only [List.mem_cons, exists_eq_or_imp, or_assoc]

namespace Model

variable {m : Model} {c : Channel}

section Collect

variable {part : Collected → Finset FactIdentity}

theorem mem_collect (hpart : ∀ a b, part (a.union b) = part a ∪ part b)
    (hempty : part Collected.empty = ∅) {i : FactIdentity} :
    i ∈ part (m.collect c) ↔ ∃ current, m.positive.Reaches none c current ∧
      i ∈ part (m.collectAt (m.usable.reach c none) current) := by
  rw [collect, mem_foldl_union hpart, hempty]
  simp only [Finset.notMem_empty, false_or, List.mem_map, exists_exists_and_eq_and,
    Graph.mem_reach]

/-- What a channel of the usable reach adds. -/
theorem mem_collectAt (hpart : ∀ a b, part (a.union b) = part a ∪ part b)
    (hempty : part Collected.empty = ∅) {current : Channel} {i : FactIdentity}
    (hreach : m.usable.Reaches none c current) :
    i ∈ part (m.collectAt (m.usable.reach c none) current) ↔
      (∃ e ∈ m.positive.edges, e.from = current ∧ i ∈ part (m.collectEdge current e)) ∨
        (∃ side, i ∈ part (m.collectEndings current side)) ∨
          ∃ r ∈ m.rotationsAt current, i ∈ part (m.collectRotation current r) := by
  have hhas : (m.usable.reach c none).has current = true :=
    Reach.mem_channels.mp (Graph.mem_reach.mpr hreach)
  rw [collectAt, if_neg (by rw [hhas]; decide)]
  simp only
  rw [mem_foldl_union hpart, hempty]
  constructor
  · rintro (h | ⟨x, hx, hi⟩)
    · exact absurd h (Finset.notMem_empty i)
    · rcases List.mem_append.mp hx with hx | hx
      · rcases List.mem_append.mp hx with hx | hx
        · obtain ⟨e, he, rfl⟩ := List.mem_map.mp hx
          obtain ⟨he, hf⟩ := Graph.mem_from.mp he
          exact Or.inl ⟨e, he, hf, hi⟩
        · rcases List.mem_cons.mp hx with rfl | hx
          · exact Or.inr (Or.inl ⟨_, hi⟩)
          · rw [List.mem_singleton.mp hx] at hi
            exact Or.inr (Or.inl ⟨_, hi⟩)
      · obtain ⟨r, hr, rfl⟩ := List.mem_map.mp hx
        exact Or.inr (Or.inr ⟨r, hr, hi⟩)
  · rintro (⟨e, he, hf, hi⟩ | ⟨side, hi⟩ | ⟨r, hr, hi⟩)
    · exact Or.inr ⟨_, List.mem_append_left _ (List.mem_append_left _
        (List.mem_map_of_mem (Graph.mem_from.mpr ⟨he, hf⟩))), hi⟩
    · refine Or.inr ⟨_, List.mem_append_left _ (List.mem_append_right _ ?_), hi⟩
      cases side <;> simp
    · exact Or.inr ⟨_, List.mem_append_right _ (List.mem_map_of_mem hr), hi⟩

end Collect

/-- What a head answered for a pair says. -/
structure Answered (m : Model) (c h : Channel) (support : List ContinuityFact) : Prop where
  known : c ∈ m.positive.vertices
  reaching : m.reaching c = ∅
  conflict : (m.collect c).conflict = ∅
  endings : (m.collect c).endings = ∅
  waiting : (m.collect c).waiting = ∅
  ends : m.ends c = [h]
  support : support = m.factsOf (m.collect c).support

theorem head_eq_head {h : Channel} {support : List ContinuityFact}
    (hh : m.head c = .head h support) : Answered m c h support := by
  rw [head] at hh
  split at hh
  · simp only at hh
    split at hh
    · cases hh
    · split at hh
      · cases hh
      · split at hh <;> cases hh
  · next hk =>
    have hknown : c ∈ m.positive.vertices := by
      simpa [Model.known] using hk
    simp only at hh
    split at hh
    · cases hh
    · next hr =>
      split at hh
      · cases hh
      · next hc =>
        split at hh
        · cases hh
        · next he =>
          split at hh
          · cases hh
          · next hw =>
            split at hh
            · next h' hends =>
              cases hh
              exact ⟨hknown, not_not.mp hr, not_not.mp hc, not_not.mp he, not_not.mp hw,
                hends, rfl⟩
            · cases hh

end Model

end Estoc.Continuity
