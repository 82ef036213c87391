import Mathlib.Data.Bool.AllAny
import Estoc.Lib.JsonRead

/-!
# The UTF-8 of a written value

Where no name or string of a value has a surrogate that stands alone, neither has the
text it is written as: an escape replaces units that are no surrogates by others that
are none. So the UTF-8 of the text is read back as the text.
-/

set_option linter.unusedSectionVars false

open Utf16 (JsString isHigh isLow loneSurrogate loneSurrogateAfter loneSurrogate_append
  loneSurrogate_ascii loneSurrogateAfter_cons loneSurrogateAfter_ascii)

namespace Json

theorem ascii_of_isNumberUnit {u : UInt16} (h : isNumberUnit u = true) : u.toNat < 0x80 := by
  simp only [isNumberUnit, isExponentMark, isDigit, Bool.or_eq_true, Bool.and_eq_true,
    beq_iff_eq, decide_eq_true_eq] at h
  rcases h with (((h | rfl) | rfl) | rfl) | (rfl | rfl)
  · omega
  all_goals decide

/-- A unit is written as itself, or as ASCII for a unit of ASCII. -/
theorem escape_cases (u : UInt16) : escape u = [u] ∨
    u.toNat < 0x80 ∧ escape u ≠ [] ∧ ∀ w ∈ escape u, w.toNat < 0x80 := by
  have hhex : ∀ n < 16, (hexDigit n).toNat < 0x80 := by decide
  have hshort : ∀ p ∈ shortEscapes, p.1.toNat < 0x80 ∧ p.2.toNat < 0x80 :=
    List.all_iff_forall_prop.mp (by decide)
  rw [escape]
  split
  · next e he =>
      obtain ⟨hu, he⟩ := hshort (u, e) (mem_of_lookup he)
      refine .inr ⟨hu, List.cons_ne_nil _ _, ?_⟩
      simp only [List.forall_mem_cons]
      exact ⟨by decide, he, by simp⟩
  · split
    · next hlt =>
        refine .inr ⟨by omega, List.cons_ne_nil _ _, ?_⟩
        have hone := hhex (u.toNat / 16) (by omega)
        have htwo := hhex (u.toNat % 16) (by omega)
        simp only [List.forall_mem_cons]
        exact ⟨by decide, by decide, by decide, by decide, hone, htwo, by simp⟩
    · exact .inl rfl

theorem head_escaped (s : JsString) :
    (s.flatMap escape).head?.any isLow = s.head?.any isLow := by
  cases s with
  | nil => rfl
  | cons u s =>
      rw [List.flatMap_cons]
      rcases escape_cases u with h | ⟨hu, hne, hall⟩
      · rw [h]
        rfl
      · obtain ⟨w, ws, hw⟩ := List.exists_cons_of_ne_nil hne
        have hlow : ∀ v : UInt16, v.toNat < 0x80 → isLow v = false := by
          intro v hv
          rw [← Bool.not_eq_true, Utf16.isLow_iff]
          omega
        rw [hw] at hall ⊢
        simp [hlow u hu, hlow w (hall w List.mem_cons_self)]

theorem loneSurrogateAfter_escaped {before : Bool} {s : JsString}
    (h : loneSurrogateAfter before s = false) :
    loneSurrogateAfter before (s.flatMap escape) = false := by
  induction s generalizing before with
  | nil => rfl
  | cons u s ih =>
      rw [List.flatMap_cons]
      rcases escape_cases u with he | ⟨hu, hne, hall⟩
      · rw [loneSurrogateAfter, Bool.or_eq_false_iff] at h
        rw [he, List.singleton_append, loneSurrogateAfter, head_escaped, h.1, ih h.2]
        rfl
      · rw [loneSurrogateAfter_cons (Utf16.isSurrogate_of_lt (by omega))] at h
        rw [loneSurrogateAfter_ascii hne hall]
        exact ih h

theorem loneSurrogate_cons {u : UInt16} {s : JsString} (hu : u.toNat < 0x80)
    (hs : loneSurrogate s = false) : loneSurrogate (u :: s) = false := by
  rw [loneSurrogate, loneSurrogateAfter_cons (Utf16.isSurrogate_of_lt (by omega))]
  exact hs

theorem loneSurrogate_quote {s : JsString} (h : loneSurrogate s = false) :
    loneSurrogate (quote s) = false := by
  have hq : loneSurrogate [dquote] = false := by decide
  exact loneSurrogate_cons (by decide) (loneSurrogate_append (loneSurrogateAfter_escaped h) hq)

/-- No name or string in the value has a surrogate that stands alone, and every number
is finite. -/
inductive Paired : Json → Prop where
  | null : Paired (.scalar .null)
  | boolean (b : Bool) : Paired (.scalar (.boolean b))
  | number {x : Binary64} : x.isFinite = true → Paired (.scalar (.number x))
  | string {s : JsString} : loneSurrogate s = false → Paired (.scalar (.string s))
  | array {items : List Json} : (∀ v ∈ items, Paired v) → Paired (.array items)
  | object {members : List (JsString × Json)} : (∀ m ∈ members, loneSurrogate m.1 = false) →
      (∀ m ∈ members, Paired m.2) → Paired (.object members)

section
variable {N : NumberText}

theorem loneSurrogate_writeItems {items : List Json}
    (h : ∀ v ∈ items, loneSurrogate (write N v) = false) :
    loneSurrogate (writeItems N items) = false := by
  induction items with
  | nil => rfl
  | cons v items ih =>
      obtain ⟨hhead, htail⟩ := List.forall_mem_cons.mp h
      rw [writeItems]
      exact loneSurrogate_cons (by decide) (loneSurrogate_append hhead (ih htail))

theorem loneSurrogate_writeMembers {members : List (JsString × Json)}
    (hnames : ∀ m ∈ members, loneSurrogate m.1 = false)
    (h : ∀ m ∈ members, loneSurrogate (write N m.2) = false) :
    loneSurrogate (writeMembers N members) = false := by
  induction members with
  | nil => rfl
  | cons m members ih =>
      obtain ⟨hhead, htail⟩ := List.forall_mem_cons.mp h
      obtain ⟨hname, hnames⟩ := List.forall_mem_cons.mp hnames
      rw [writeMembers]
      exact loneSurrogate_cons (by decide) (loneSurrogate_append (loneSurrogate_quote hname)
        (loneSurrogate_cons (by decide) (loneSurrogate_append hhead (ih hnames htail))))

theorem loneSurrogate_write {v : Json} (h : Paired v) : loneSurrogate (write N v) = false := by
  induction h with
  | null => rfl
  | boolean b => cases b <;> rfl
  | number hx =>
      exact loneSurrogate_ascii fun u hu =>
        ascii_of_isNumberUnit (isNumber_units (N.isNumber_text _ hx) u hu)
  | string hs => exact loneSurrogate_quote hs
  | @array items _ ih =>
      cases items with
      | nil => rfl
      | cons v items =>
          obtain ⟨hhead, htail⟩ := List.forall_mem_cons.mp ih
          rw [write]
          exact loneSurrogate_cons (by decide)
            (loneSurrogate_append hhead (loneSurrogate_writeItems htail))
  | @object members hnames _ ih =>
      cases members with
      | nil => rfl
      | cons m members =>
          obtain ⟨hhead, htail⟩ := List.forall_mem_cons.mp ih
          obtain ⟨hname, hnames⟩ := List.forall_mem_cons.mp hnames
          rw [write]
          exact loneSurrogate_cons (by decide) (loneSurrogate_append (loneSurrogate_quote hname)
            (loneSurrogate_cons (by decide)
              (loneSurrogate_append hhead (loneSurrogate_writeMembers hnames htail))))

end

end Json
