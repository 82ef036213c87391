import Mathlib.Data.List.Nodup
import Mathlib.Data.Set.Card

/-!
# Taking by rounds

Items in groups, each with a value, in a fixed order. An item may be taken while every item taken
of its group has its value. A round takes the first such item of each group; another way is to
take the first of all, one at a time.

Both end in the same set, since either is made of the same steps: an item that no other of its
group comes before. What such a step leaves alone is where the taking ends (`Items.final`): an
item that may be taken is taken at last exactly if its value is that of its group, which is the
value taken there already, or else that of the group's first item.
-/

set_option linter.unusedSectionVars false

namespace Rounds

structure Items (α κ ν : Type) where
  items : List α
  key : α → κ
  value : α → ν
  /-- What is held against an item whatever is taken. -/
  free : α → Bool

variable {α κ ν : Type} [DecidableEq κ] (I : Items α κ ν)

namespace Items

/-- Nothing taken of the item's group has another value. -/
def Agrees (taken : Set α) (a : α) : Prop :=
  ∀ b ∈ taken, I.key b = I.key a → I.value b = I.value a

def Eligible (taken : Set α) (a : α) : Prop :=
  a ∈ I.items ∧ I.free a = true ∧ a ∉ taken ∧ I.Agrees taken a

/-- Eligible, with none of its group before it. -/
def Leads (taken : Set α) (a : α) : Prop :=
  I.Eligible taken a ∧ ∃ before after, I.items = before ++ a :: after ∧
    ∀ b ∈ before, I.key b = I.key a → ¬ I.Eligible taken b

/-- The first item of a group nothing is held against. -/
def first (k : κ) : Option α := I.items.find? fun a => I.free a && I.key a = k

/-- Where the taking ends. -/
def final (taken : Set α) : Set α :=
  { a | a ∈ taken ∨ (a ∈ I.items ∧ I.free a = true ∧ I.Agrees taken a ∧
    ((∃ b ∈ taken, I.key b = I.key a) ∨ ∃ b, I.first (I.key a) = some b ∧ I.value b = I.value a)) }

/-- Some items taken, one after another, each with none of its group before it. -/
inductive Takes : Set α → Set α → Prop
  | none (taken : Set α) : Takes taken taken
  | next {taken taken' : Set α} {a : α} (leads : I.Leads taken a)
      (takes : Takes (insert a taken) taken') : Takes taken taken'

variable {I} {taken taken' : Set α} {a b : α} {k : κ}

theorem Takes.trans {taken'' : Set α} (h : I.Takes taken taken') (h' : I.Takes taken' taken'') :
    I.Takes taken taken'' := by
  induction h with
  | none taken => exact h'
  | next leads takes ih => exact .next leads (ih h')

theorem Takes.subset (h : I.Takes taken taken') : taken ⊆ taken' := by
  induction h with
  | none taken => exact Set.Subset.refl _
  | next leads takes ih => exact Set.Subset.trans (Set.subset_insert _ _) ih

theorem first_some (h : I.first k = some b) : b ∈ I.items ∧ I.free b = true ∧ I.key b = k := by
  have hp := List.find?_some h
  rw [Bool.and_eq_true, decide_eq_true_iff] at hp
  exact ⟨List.mem_of_find?_eq_some h, hp.1, hp.2⟩

/-- What leads a group none is taken of is the group's first item. -/
theorem Leads.first (h : I.Leads taken a) (hnone : ∀ b ∈ taken, I.key b ≠ I.key a) :
    I.first (I.key a) = some a := by
  obtain ⟨⟨-, hfree, -, -⟩, before, after, hitems, hbefore⟩ := h
  unfold Items.first
  rw [List.find?_eq_some_iff_append]
  refine ⟨by simp [hfree], before, after, hitems, fun b hb => ?_⟩
  rw [Bool.not_eq_true', Bool.and_eq_false_iff, or_iff_not_imp_left]
  intro hbfree
  refine decide_eq_false fun hkey => hbefore b hb hkey ⟨?_, ?_, fun hin => hnone b hin hkey, ?_⟩
  · rw [hitems]
    exact List.mem_append_left _ hb
  · simpa using hbfree
  · intro c hc hkey'
    exact absurd (hkey'.trans hkey) (hnone c hc)

/-- Taking an item that leads its group leaves alone where the taking ends. -/
theorem Leads.final_eq (h : I.Leads taken a) : I.final (insert a taken) = I.final taken := by
  obtain ⟨hitem, hfree, -, hagrees⟩ := h.1
  ext x
  constructor
  · rintro ((rfl | hx) | ⟨hxitem, hxfree, hxagrees, hx⟩)
    · refine .inr ⟨hitem, hfree, hagrees, ?_⟩
      by_cases hnone : ∃ b ∈ taken, I.key b = I.key x
      · exact .inl hnone
      · exact .inr ⟨x, h.first fun b hb hkey => hnone ⟨b, hb, hkey⟩, rfl⟩
    · exact .inl hx
    · refine .inr ⟨hxitem, hxfree, fun b hb => hxagrees b (Set.mem_insert_of_mem _ hb), ?_⟩
      by_cases hnone : ∃ b ∈ taken, I.key b = I.key x
      · exact .inl hnone
      · rcases hx with ⟨b, rfl | hb, hkey⟩ | hx
        · -- the group's first item is the one taken now
          refine .inr ⟨b, ?_, hxagrees b (Set.mem_insert _ _) hkey⟩
          rw [← hkey]
          exact h.first fun c hc hkey' => hnone ⟨c, hc, hkey'.trans hkey⟩
        · exact absurd ⟨b, hb, hkey⟩ hnone
        · exact .inr hx
  · rintro (hx | ⟨hxitem, hxfree, hxagrees, hx⟩)
    · exact .inl (Set.mem_insert_of_mem _ hx)
    · refine .inr ⟨hxitem, hxfree, ?_, ?_⟩
      · rintro b (rfl | hb) hkey
        · rcases hx with ⟨c, hc, hkey'⟩ | ⟨c, hfirst, hvalue⟩
          · rw [← hxagrees c hc hkey', hagrees c hc (hkey'.trans hkey.symm)]
          · by_cases hnone : ∃ c ∈ taken, I.key c = I.key b
            · obtain ⟨c', hc', hkey'⟩ := hnone
              rw [← hagrees c' hc' hkey', hxagrees c' hc' (hkey'.trans hkey)]
            · have hsame := h.first fun c hc hkey' => hnone ⟨c, hc, hkey'⟩
              rw [hkey, hfirst] at hsame
              cases hsame
              exact hvalue
        · exact hxagrees b hb hkey
      · rcases hx with ⟨b, hb, hkey⟩ | hx
        · exact .inl ⟨b, Set.mem_insert_of_mem _ hb, hkey⟩
        · exact .inr hx

theorem Takes.final_eq (h : I.Takes taken taken') : I.final taken' = I.final taken := by
  induction h with
  | none taken => rfl
  | next leads takes ih => rw [ih, leads.final_eq]

/-- Once nothing is eligible the taking has ended. -/
theorem final_of_settled (h : ∀ a, ¬ I.Eligible taken a) : I.final taken = taken := by
  ext x
  refine ⟨?_, fun hx => .inl hx⟩
  rintro (hx | ⟨hitem, hfree, hagrees, -⟩)
  · exact hx
  · by_contra hnot
    exact h x ⟨hitem, hfree, hnot, hagrees⟩

/-- However the taking goes, it ends in one set. -/
theorem Takes.ends (h : I.Takes taken taken') (hsettled : ∀ a, ¬ I.Eligible taken' a) :
    taken' = I.final taken := by
  rw [← h.final_eq, final_of_settled hsettled]

/-- What is taken of one group agrees, unless what was taken of it before did not. -/
theorem final_agrees (ha : a ∈ I.final taken) (hb : b ∈ I.final taken) (hkey : I.key a = I.key b) :
    I.value a = I.value b ∨ ∃ c ∈ taken, ∃ d ∈ taken, I.key c = I.key a ∧ I.key d = I.key a ∧
      I.value c ≠ I.value d := by
  by_cases hvalue : I.value a = I.value b
  · exact .inl hvalue
  · rcases ha with ha | ⟨-, -, haagrees, ha⟩ <;> rcases hb with hb | ⟨-, -, hbagrees, hb⟩
    · exact .inr ⟨a, ha, b, hb, rfl, hkey.symm, hvalue⟩
    · exact absurd (hbagrees a ha hkey) hvalue
    · exact absurd (haagrees b hb hkey.symm).symm hvalue
    · rcases ha with ⟨c, hc, hckey⟩ | ⟨c, hfirst, hcvalue⟩
      · exact absurd ((haagrees c hc hckey).symm.trans (hbagrees c hc (hckey.trans hkey))) hvalue
      · rcases hb with ⟨d, hd, hdkey⟩ | ⟨d, hfirst', hdvalue⟩
        · have hdkey' := hdkey.trans hkey.symm
          exact absurd ((haagrees d hd hdkey').symm.trans (hbagrees d hd hdkey)) hvalue
        · rw [hkey, hfirst'] at hfirst
          cases hfirst
          exact absurd (hcvalue.symm.trans hdvalue) hvalue

/-! ## A round -/

theorem eligible_insert (hkey : I.key b ≠ I.key a) :
    I.Eligible (insert a taken) b ↔ I.Eligible taken b := by
  have hne : b ≠ a := fun h => hkey (h ▸ rfl)
  constructor
  · intro ⟨hitem, hfree, hnot, hagrees⟩
    exact ⟨hitem, hfree, fun hin => hnot (Set.mem_insert_of_mem _ hin),
      fun c hc => hagrees c (Set.mem_insert_of_mem _ hc)⟩
  · intro ⟨hitem, hfree, hnot, hagrees⟩
    refine ⟨hitem, hfree, ?_, ?_⟩
    · rintro (rfl | hin)
      · exact hne rfl
      · exact hnot hin
    · rintro c (rfl | hc) hckey
      · exact absurd hckey.symm hkey
      · exact hagrees c hc hckey

/-- Taking an item of one group leaves another group led as it was. -/
theorem Leads.insert (h : I.Leads taken b) (hkey : I.key b ≠ I.key a) :
    I.Leads (insert a taken) b := by
  obtain ⟨heligible, before, after, hitems, hbefore⟩ := h
  refine ⟨(eligible_insert hkey).mpr heligible, before, after, hitems, fun c hc hckey hceligible => ?_⟩
  refine hbefore c hc hckey ((eligible_insert ?_).mp hceligible)
  rw [hckey]
  exact hkey

/-- A round takes what leads each of some groups. -/
theorem takes_of_leads {picks : List α} (hnodup : (picks.map I.key).Nodup)
    (h : ∀ a ∈ picks, I.Leads taken a) : I.Takes taken (taken ∪ { a | a ∈ picks }) := by
  induction picks generalizing taken with
  | nil =>
    have hnone : taken ∪ { a | a ∈ ([] : List α) } = taken := by simp
    rw [hnone]
    exact .none taken
  | cons a rest ih =>
    obtain ⟨hfresh, hnodup⟩ := List.nodup_cons.mp hnodup
    have hrest : ∀ b ∈ rest, I.Leads (insert a taken) b := by
      intro b hb
      refine (h b (List.mem_cons_of_mem _ hb)).insert fun hkey => hfresh ?_
      rw [← hkey]
      exact List.mem_map_of_mem hb
    have hset : taken ∪ { b | b ∈ a :: rest } = insert a taken ∪ { b | b ∈ rest } := by
      ext b
      simp only [Set.mem_union, Set.mem_insert_iff, Set.mem_ofPred_eq, List.mem_cons]
      tauto
    rw [hset]
    exact .next (h a List.mem_cons_self) (ih hnodup hrest)

/-! ## What is left -/

variable (I) in
/-- How many items are not taken. -/
noncomputable def left (taken : Set α) : Nat := ({ a | a ∈ I.items } \ taken).ncard

theorem left_le : I.left taken ≤ I.items.length := by
  classical
  refine (Set.ncard_le_ncard Set.sdiff_subset (List.finite_toSet _)).trans ?_
  have hset : { a | a ∈ I.items } = (I.items.toFinset : Set α) := by
    ext a
    simp
  rw [hset, Set.ncard_coe_finset]
  exact List.toFinset_card_le _

/-- Each round leaves fewer. -/
theorem left_lt {picks : List α} (h : ∀ a ∈ picks, I.Leads taken a) (hpicks : picks ≠ []) :
    I.left (taken ∪ { a | a ∈ picks }) < I.left taken := by
  obtain ⟨a, ha⟩ := List.exists_mem_of_ne_nil _ hpicks
  obtain ⟨⟨hitem, -, hnot, -⟩, -⟩ := h a ha
  refine Set.ncard_lt_ncard ⟨Set.sdiff_subset_sdiff_right Set.subset_union_left, ?_⟩
    ((List.finite_toSet _).subset Set.sdiff_subset)
  intro hsubset
  exact (hsubset ⟨hitem, hnot⟩).2 (.inr ha)

end Items

/-! ## The first of each group -/

/-- The first item of each group that passes, but for the groups seen. -/
def firsts (p : α → Bool) (key : α → κ) : List κ → List α → List α
  | _, [] => []
  | seen, a :: rest =>
    if !p a || seen.contains (key a) then firsts p key seen rest
    else a :: firsts p key (key a :: seen) rest

variable {p : α → Bool} {key : α → κ} {seen : List κ} {l : List α} {a : α}

theorem firsts_map {β : Type} {p : β → Bool} {key : β → κ} (f : α → β) :
    firsts p key seen (l.map f) = (firsts (p ∘ f) (key ∘ f) seen l).map f := by
  induction l generalizing seen with
  | nil => rfl
  | cons a rest ih =>
    unfold firsts
    rw [List.map_cons]
    dsimp only [Function.comp_apply]
    split
    · exact ih
    · rw [List.map_cons, ih]

theorem firsts_filter (q : α → Bool) :
    firsts p key seen (l.filter q) = firsts (fun a => q a && p a) key seen l := by
  induction l generalizing seen with
  | nil => rfl
  | cons a rest ih =>
    rw [List.filter_cons]
    cases hq : q a with
    | false =>
      rw [if_neg Bool.false_ne_true, ih]
      conv_rhs => unfold firsts
      rw [hq]
      rfl
    | true =>
      rw [if_pos rfl]
      conv_rhs => unfold firsts
      conv_lhs => unfold firsts
      rw [hq, Bool.true_and, ih, ih]

/-- What is taken passes, is of a group not seen, and none of its group before it passes. -/
theorem mem_firsts (h : a ∈ firsts p key seen l) : p a = true ∧ key a ∉ seen ∧
    ∃ before after, l = before ++ a :: after ∧ ∀ b ∈ before, key b = key a → p b = false := by
  induction l generalizing seen with
  | nil => cases h
  | cons c rest ih =>
    unfold firsts at h
    split at h
    · next hpassed =>
      obtain ⟨hp, hseen, before, after, hrest, hbefore⟩ := ih h
      refine ⟨hp, hseen, c :: before, after, by rw [hrest]; rfl, fun b hb hkey => ?_⟩
      rcases List.mem_cons.mp hb with rfl | hb
      · rcases Bool.or_eq_true_iff.mp hpassed with hpassed | hpassed
        · simpa using hpassed
        · exact absurd (hkey ▸ List.contains_iff_mem.mp hpassed) hseen
      · exact hbefore b hb hkey
    · next htaken =>
      rcases List.mem_cons.mp h with rfl | h
      · simp only [Bool.or_eq_true, Bool.not_eq_true', List.contains_iff_mem, not_or] at htaken
        exact ⟨by simpa using htaken.1, htaken.2, [], rest, rfl, fun b hb => by cases hb⟩
      · obtain ⟨hp, hseen, before, after, hrest, hbefore⟩ := ih h
        refine ⟨hp, fun hin => hseen (List.mem_cons_of_mem _ hin), c :: before, after,
          by rw [hrest]; rfl, fun b hb hkey => ?_⟩
        rcases List.mem_cons.mp hb with rfl | hb
        · exact absurd (hkey ▸ List.mem_cons_self) hseen
        · exact hbefore b hb hkey

theorem nodup_firsts : ((firsts p key seen l).map key).Nodup := by
  induction l generalizing seen with
  | nil => exact List.nodup_nil
  | cons a rest ih =>
    unfold firsts
    split
    · exact ih
    · refine List.nodup_cons.mpr ⟨fun hin => ?_, ih⟩
      obtain ⟨b, hb, hkey⟩ := List.mem_map.mp hin
      exact (mem_firsts hb).2.1 (hkey ▸ List.mem_cons_self)

theorem firsts_eq_nil (h : firsts p key [] l = []) : ∀ a ∈ l, p a = false := by
  have hseen : ∀ seen : List κ, firsts p key seen l = [] → ∀ a ∈ l, p a = true → key a ∈ seen := by
    clear h
    induction l with
    | nil => intro _ _ a ha; cases ha
    | cons c rest ih =>
      intro seen h a ha hp
      unfold firsts at h
      split at h
      · next hpassed =>
        rcases List.mem_cons.mp ha with rfl | ha
        · rw [hp] at hpassed
          exact List.contains_iff_mem.mp hpassed
        · exact ih seen h a ha hp
      · cases h
  intro a ha
  by_contra hp
  exact List.not_mem_nil (hseen [] h a ha (by simpa using hp))

end Rounds
