import Mathlib.Data.List.Nodup
import Mathlib.Logic.Function.Iterate

/-!
# Taking a queue by pages

A queue is read a page at a time from its head: of the page some entries are taken and leave
the queue, and the others stay where they are. What stays at the head is in the next page
again, so an entry behind a page of entries that stay is never read: `settled` and
`not_settled` say that this alone keeps taking from reaching everything it takes.
-/

namespace Paged

variable {α : Type} (n : Nat) (takes : α → Bool)

/-- What is taken of the first page. -/
def taken (q : List α) : List α := (q.take n).filter takes

/-- The queue without what is taken of its first page. -/
def round (q : List α) : List α := ((q.take n).filter fun a => !takes a) ++ q.drop n

/-- An entry to take stands behind a page of entries that stay. -/
def Blocked (a : α) (q : List α) : Prop :=
  takes a = true ∧ ∃ before after, q = before ++ a :: after ∧
    n ≤ (before.filter fun b => !takes b).length

variable {n takes}

/-- What stays, stays. -/
theorem filter_round (q : List α) :
    (round n takes q).filter (fun a => !takes a) = q.filter fun a => !takes a := by
  rw [round, List.filter_append, List.filter_filter]
  simp only [Bool.and_self]
  rw [← List.filter_append, List.take_append_drop]

theorem length_round (q : List α) :
    (round n takes q).length + (taken n takes q).length = q.length := by
  have htake := (q.take n).length_eq_length_filter_add takes
  have hparts := congrArg List.length (List.take_append_drop n q)
  rw [List.length_append] at hparts
  rw [round, taken, List.length_append]
  omega

/-- Where names tell the entries apart, dropping what was taken by its names is a round. -/
theorem filter_named {β : Type} [BEq β] [LawfulBEq β] {name : α → β} {q : List α}
    (h : (q.map name).Nodup) :
    (q.filter fun a => !((taken n takes q).map name).contains (name a)) = round n takes q := by
  rw [← List.take_append_drop n q, List.map_append, List.nodup_append] at h
  obtain ⟨hpage, _, hapart⟩ := h
  have hmem : ∀ {a}, ((taken n takes q).map name).contains (name a) = true →
      ∃ b ∈ q.take n, takes b = true ∧ name b = name a := by
    intro a ha
    obtain ⟨b, hb, hname⟩ := List.mem_map.mp (List.contains_iff_mem.mp ha)
    obtain ⟨hb, htakes⟩ := List.mem_filter.mp hb
    exact ⟨b, hb, htakes, hname⟩
  have hsplit : (q.filter fun a => !((taken n takes q).map name).contains (name a)) =
      ((q.take n).filter fun a => !((taken n takes q).map name).contains (name a)) ++
        (q.drop n).filter fun a => !((taken n takes q).map name).contains (name a) := by
    rw [← List.filter_append, List.take_append_drop]
  rw [hsplit, round]
  congr 1
  · refine List.filter_congr fun a ha => congrArg _ (Bool.eq_iff_iff.mpr ⟨fun hin => ?_, fun ht => ?_⟩)
    · obtain ⟨b, hb, htakes, hname⟩ := hmem hin
      rwa [← List.inj_on_of_nodup_map hpage hb ha hname]
    · exact List.contains_iff_mem.mpr (List.mem_map_of_mem (List.mem_filter.mpr ⟨ha, ht⟩))
  · refine List.filter_eq_self.mpr fun a ha => ?_
    rw [Bool.not_eq_true', Bool.eq_false_iff]
    intro hin
    obtain ⟨b, hb, _, hname⟩ := hmem hin
    exact hapart _ (List.mem_map_of_mem hb) _ (List.mem_map_of_mem ha) hname

/-- An entry that is blocked stays blocked. -/
theorem Blocked.round {a : α} {q : List α} (h : Blocked n takes a q) :
    Blocked n takes a (round n takes q) := by
  obtain ⟨ha, before, after, rfl, hlong⟩ := h
  have hlength : n ≤ before.length := Nat.le_trans hlong (List.length_filter_le _ _)
  refine ⟨ha, Paged.round n takes before, after, ?_, ?_⟩
  · rw [Paged.round, Paged.round, List.take_append_of_le_length hlength,
      List.drop_append_of_le_length hlength, List.append_assoc]
  · rw [filter_round]
    exact hlong

/-- An entry that is blocked after a round was blocked before it. -/
theorem Blocked.of_round {a : α} {q : List α} (h : Blocked n takes a (Paged.round n takes q)) :
    Blocked n takes a q := by
  obtain ⟨ha, before, after, hsplit, hlong⟩ := h
  -- the entry is taken, so it stands behind what stayed of the page
  have hstayed : ∀ b ∈ (q.take n).filter fun b => !takes b, takes b = false := by
    intro b hb
    simpa using (List.mem_filter.mp hb).2
  rcases List.append_eq_append_iff.mp hsplit with ⟨mid, hbefore, hrest⟩ | ⟨mid, hpage, hrest⟩
  · refine ⟨ha, q.take n ++ mid, after, ?_, ?_⟩
    · rw [List.append_assoc, ← hrest, List.take_append_drop]
    · rw [hbefore, List.filter_append, List.filter_filter] at hlong
      simp only [Bool.and_self] at hlong
      rwa [List.filter_append]
  · cases mid with
    | nil =>
        refine ⟨ha, q.take n, after, ?_, ?_⟩
        · rw [List.nil_append] at hrest
          rw [hrest, List.take_append_drop]
        · rw [List.append_nil] at hpage
          rw [← hpage, List.filter_filter] at hlong
          simpa only [Bool.and_self] using hlong
    | cons b mid =>
        rw [List.cons_append] at hrest
        obtain ⟨rfl, _⟩ := List.cons.inj hrest
        have hfalse := hstayed a (hpage ▸ List.mem_append_right _ List.mem_cons_self)
        rw [ha] at hfalse
        cases hfalse

/-- Where nothing is taken, what there is to take is blocked. -/
theorem blocked_of_none {q : List α} (h : taken n takes q = []) {a : α} (hmem : a ∈ q)
    (ha : takes a = true) : Blocked n takes a q := by
  rw [taken, List.filter_eq_nil_iff] at h
  rw [← List.take_append_drop n q, List.mem_append] at hmem
  rcases hmem with hmem | hmem
  · exact absurd ha (h a hmem)
  obtain ⟨mid, after, hdrop⟩ := List.append_of_mem hmem
  have hlength : n ≤ (q.take n).length := by
    rw [List.length_take]
    have hpos : 0 < (q.drop n).length := List.length_pos_of_mem hmem
    rw [List.length_drop] at hpos
    omega
  refine ⟨ha, q.take n ++ mid, after, ?_, ?_⟩
  · rw [List.append_assoc, ← hdrop, List.take_append_drop]
  · rw [List.filter_append, List.length_append]
    have hpage : (q.take n).filter (fun b => !takes b) = q.take n :=
      List.filter_eq_self.mpr fun b hb => by
        rw [Bool.eq_false_iff.mpr (h b hb)]
        rfl
    rw [hpage]
    omega

theorem blocked_iterate {a : α} {q : List α} (h : Blocked n takes a q) (k : Nat) :
    Blocked n takes a ((Paged.round n takes)^[k] q) := by
  induction k with
  | zero => exact h
  | succ k ih =>
      rw [Function.iterate_succ_apply']
      exact ih.round

theorem of_blocked_iterate {a : α} {q : List α} {k : Nat}
    (h : Blocked n takes a ((Paged.round n takes)^[k] q)) : Blocked n takes a q := by
  induction k with
  | zero => exact h
  | succ k ih =>
      rw [Function.iterate_succ_apply'] at h
      exact ih h.of_round

theorem filter_iterate (q : List α) (k : Nat) :
    ((Paged.round n takes)^[k] q).filter (fun a => !takes a) = q.filter fun a => !takes a := by
  induction k with
  | zero => rfl
  | succ k ih => rw [Function.iterate_succ_apply', filter_round, ih]

/-- A queue read until nothing is taken is left with what stays, if nothing to take was
blocked. -/
theorem settled {q : List α} {k : Nat} (hnone : taken n takes ((Paged.round n takes)^[k] q) = [])
    (hclear : ∀ a, ¬ Blocked n takes a q) :
    (Paged.round n takes)^[k] q = q.filter fun a => !takes a := by
  rw [← filter_iterate q k, List.filter_eq_self.mpr]
  intro a ha
  cases htakes : takes a with
  | false => rfl
  | true => exact absurd (of_blocked_iterate (blocked_of_none hnone ha htakes)) (hclear a)

/-- What is blocked is in the queue for good. -/
theorem not_settled {q : List α} {a : α} (h : Blocked n takes a q) (k : Nat) :
    (Paged.round n takes)^[k] q ≠ q.filter fun a => !takes a := by
  intro hsettled
  obtain ⟨ha, before, after, hsplit, _⟩ := blocked_iterate h k
  have hmem : a ∈ q.filter fun a => !takes a := by
    rw [← hsettled, hsplit]
    exact List.mem_append_right _ List.mem_cons_self
  rw [List.mem_filter, ha] at hmem
  cases hmem.2

end Paged
