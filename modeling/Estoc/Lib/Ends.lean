import Mathlib.Data.Finset.Card
import Mathlib.Logic.Relation

/-!
# Ends of a relation

An end is where a relation leads no further. Over finitely many values and
without a way back, everything leads to an end; and where any two first steps
can be brought together again, to only one.
-/

namespace Ends

variable {α : Type*} {r : α → α → Prop}

def IsEnd (r : α → α → Prop) (a : α) : Prop := ¬ ∃ b, r a b

/-- Where there is no way back, some end is reached. -/
theorem exists_end {finite : Finset α} {a : α}
    (hfinite : ∀ b, Relation.ReflTransGen r a b → b ∈ finite)
    (hforward : ∀ b c, Relation.ReflTransGen r a b → r b c → ¬ Relation.ReflTransGen r c b) :
    ∃ b, Relation.ReflTransGen r a b ∧ IsEnd r b := by
  classical
  -- the values reached get fewer with each step
  induction hn : (finite.filter (Relation.ReflTransGen r a)).card using Nat.strong_induction_on
    generalizing a with
  | _ n ih =>
      by_cases ha : IsEnd r a
      · exact ⟨a, .refl, ha⟩
      · obtain ⟨b, hab⟩ := not_not.mp ha
        have hlt : (finite.filter (Relation.ReflTransGen r b)).card < n := by
          rw [← hn]
          refine Finset.card_lt_card ((Finset.ssubset_iff_of_subset ?_).mpr ⟨a, ?_, ?_⟩)
          · intro x hx
            rw [Finset.mem_filter] at hx ⊢
            exact ⟨hx.1, .head hab hx.2⟩
          · exact Finset.mem_filter.mpr ⟨hfinite a .refl, .refl⟩
          · rw [Finset.mem_filter]
            exact fun h => hforward a b .refl hab h.2
        obtain ⟨e, he, hend⟩ := ih _ hlt (fun c hc => hfinite c (.head hab hc))
          (fun c d hc => hforward c d (.head hab hc)) rfl
        exact ⟨e, .head hab he, hend⟩

/-- What is reached from `a`, as a relation on its own. -/
def After (r : α → α → Prop) (a : α) (b c : α) : Prop := Relation.ReflTransGen r a b ∧ r b c

theorem after_reaches {a b c : α} (hb : Relation.ReflTransGen r a b)
    (h : Relation.ReflTransGen r b c) : Relation.ReflTransGen (After r a) b c := by
  induction h with
  | refl => exact .refl
  | tail hbx hxc ih => exact ih.tail ⟨hb.trans hbx, hxc⟩

theorem of_after {a b c : α} (h : Relation.ReflTransGen (After r a) b c) :
    Relation.ReflTransGen r b c := Relation.ReflTransGen.mono (fun _ _ h => h.2) _ _ h

/-- Where any two steps from one value can be brought together again by at most
one step each, an end reached is reached from everything reached. -/
theorem end_of_diamond {a e b : α}
    (hdiamond : ∀ x y z, Relation.ReflTransGen r a x → r x y → r x z →
      y = z ∨ ∃ w, r y w ∧ r z w)
    (he : Relation.ReflTransGen r a e) (hend : IsEnd r e) (hb : Relation.ReflTransGen r a b) :
    Relation.ReflTransGen r b e := by
  have hlocal : ∀ x y z, After r a x y → After r a x z →
      ∃ w, Relation.ReflGen (After r a) y w ∧ Relation.ReflTransGen (After r a) z w := by
    rintro x y z ⟨hx, hxy⟩ ⟨_, hxz⟩
    rcases hdiamond x y z hx hxy hxz with rfl | ⟨w, hyw, hzw⟩
    · exact ⟨y, .refl, .refl⟩
    · exact ⟨w, .single ⟨hx.tail hxy, hyw⟩, .single ⟨hx.tail hxz, hzw⟩⟩
  obtain ⟨w, hbw, hew⟩ := Relation.church_rosser hlocal (after_reaches .refl hb)
    (after_reaches .refl he)
  rcases Relation.ReflTransGen.cases_head (of_after hew) with rfl | ⟨x, hx, _⟩
  · exact of_after hbw
  · exact absurd ⟨x, hx⟩ hend

end Ends
