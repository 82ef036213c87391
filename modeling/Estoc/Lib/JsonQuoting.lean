import Estoc.Lib.JsonParse
import Estoc.Lib.JsonUtf8

/-!
# Any way of writing strings

However the strings of a value are quoted, the text parses to the value as long as they read
back. A negative zero is spelled without its sign, which is the one thing lost. What holds of
the pieces of a text and of two texts in a row holds of the text.
-/

set_option linter.unusedSectionVars false

open Utf16 (JsString)

namespace Json

/-- Every number in the value is finite. -/
inductive Finite : Json → Prop where
  | scalar {s : Scalar} : (∀ x, s = .number x → x.isFinite = true) → Finite (.scalar s)
  | array {items : List Json} : (∀ v ∈ items, Finite v) → Finite (.array items)
  | object {members : List (JsString × Json)} : (∀ m ∈ members, Finite m.2) →
      Finite (.object members)

mutual

/-- The value with no sign on a zero. -/
def unsigned : Json → Json
  | .scalar s => .scalar (canonicalScalar s)
  | .array items => .array (unsignedItems items)
  | .object members => .object (unsignedMembers members)

def unsignedItems : List Json → List Json
  | [] => []
  | v :: vs => v.unsigned :: unsignedItems vs

def unsignedMembers : List (JsString × Json) → List (JsString × Json)
  | [] => []
  | (name, v) :: ms => (name, v.unsigned) :: unsignedMembers ms

end

theorem unsignedItems_eq_map (vs : List Json) : unsignedItems vs = vs.map unsigned := by
  induction vs with
  | nil => rfl
  | cons v vs ih => rw [unsignedItems, ih, List.map_cons]

theorem unsignedMembers_eq_map (ms : List (JsString × Json)) :
    unsignedMembers ms = ms.map fun m => (m.1, m.2.unsigned) := by
  induction ms with
  | nil => rfl
  | cons m ms ih => rw [unsignedMembers, ih, List.map_cons]

theorem unsigned_ne_negZero (x : Binary64) : x.unsigned ≠ .negZero := by
  rw [Binary64.unsigned]
  split
  · decide
  · next hx => exact hx

theorem Finite.readable {v : Json} (h : Finite v) : Readable v.unsigned := by
  induction h with
  | @scalar s hs =>
      refine .scalar ?_
      cases s with
      | number x => exact ⟨Binary64.isFinite_unsigned (hs x rfl), unsigned_ne_negZero x⟩
      | _ => trivial
  | @array items _ ih =>
      rw [unsigned, unsignedItems_eq_map]
      refine .array fun v hv => ?_
      obtain ⟨w, hw, rfl⟩ := List.mem_map.mp hv
      exact ih w hw
  | @object members _ ih =>
      rw [unsigned, unsignedMembers_eq_map]
      refine .object fun m hm => ?_
      obtain ⟨w, hw, rfl⟩ := List.mem_map.mp hm
      exact ih w hw

theorem Distinct.unsigned {v : Json} (h : v.Distinct) : v.unsigned.Distinct := by
  induction h with
  | scalar s => exact .scalar _
  | @array items _ ih =>
      rw [Json.unsigned, unsignedItems_eq_map]
      refine .array fun v hv => ?_
      obtain ⟨w, hw, rfl⟩ := List.mem_map.mp hv
      exact ih w hw
  | @object members hnames _ ih =>
      rw [Json.unsigned, unsignedMembers_eq_map]
      refine .object ?_ fun m hm => ?_
      · rwa [List.map_map]
      · obtain ⟨w, hw, rfl⟩ := List.mem_map.mp hm
        exact ih w hw

/-! ## Any way of writing strings -/

section
variable (Q : Quoting) (N : NumberText)

/-- What holds of every mark, word, number and quoted string, and of two texts in a row if
of each, holds of every text written. -/
theorem write_of_append {P : JsString → Prop} (append : ∀ s t, P s → P t → P (s ++ t))
    (mark : ∀ u ∈ lit "\x7b\x7d[]:,", P [u]) (word : ∀ w ∈ words, P w.1)
    (number : ∀ x : Binary64, x.isFinite = true → P (N.text x)) (string : ∀ s, P (Q.quote s))
    {v : Json} (h : Finite v) : P (Q.write N v) := by
  have hcons : ∀ u ∈ lit "\x7b\x7d[]:,", ∀ s, P s → P (u :: s) :=
    fun u hu s hs => append [u] s (mark u hu) hs
  induction h with
  | @scalar s hs =>
      cases s with
      | null => exact word (lit "null", .null) (by decide)
      | boolean b =>
          cases b
          · exact word (lit "false", .boolean false) (by decide)
          · exact word (lit "true", .boolean true) (by decide)
      | number x => exact number x (hs x rfl)
      | string s => exact string s
  | @array items _ ih =>
      have hitems : ∀ vs : List Json, (∀ v ∈ vs, P (Q.write N v)) → P (Q.writeItems N vs) := by
        intro vs hvs
        induction vs with
        | nil => exact mark _ (by decide)
        | cons v vs ihvs =>
            obtain ⟨hv, hvs⟩ := List.forall_mem_cons.mp hvs
            rw [Quoting.writeItems]
            exact hcons _ (by decide) _ (append _ _ hv (ihvs hvs))
      cases items with
      | nil => exact hcons _ (by decide) _ (mark _ (by decide))
      | cons v vs =>
          obtain ⟨hv, hvs⟩ := List.forall_mem_cons.mp ih
          rw [Quoting.write]
          exact hcons _ (by decide) _ (append _ _ hv (hitems vs hvs))
  | @object members _ ih =>
      have hmembers : ∀ ms : List (JsString × Json), (∀ m ∈ ms, P (Q.write N m.2)) →
          P (Q.writeMembers N ms) := by
        intro ms hms
        induction ms with
        | nil => exact mark _ (by decide)
        | cons m ms ihms =>
            obtain ⟨hm, hms⟩ := List.forall_mem_cons.mp hms
            rw [Quoting.writeMembers]
            exact hcons _ (by decide) _ (append _ _ (string m.1)
              (hcons _ (by decide) _ (append _ _ hm (ihms hms))))
      cases members with
      | nil => exact hcons _ (by decide) _ (mark _ (by decide))
      | cons m ms =>
          obtain ⟨hm, hms⟩ := List.forall_mem_cons.mp ih
          rw [Quoting.write]
          exact hcons _ (by decide) _ (append _ _ (string m.1)
            (hcons _ (by decide) _ (append _ _ hm (hmembers ms hms))))

variable {N}

/-- The sign of a zero is not written where it is not spelled. -/
theorem write_unsigned (hzero : N.text .negZero = N.text .zero) (v : Json) :
    Q.write N v.unsigned = Q.write N v := by
  induction v using ind with
  | scalar s =>
      cases s with
      | number x =>
          show N.text x.unsigned = N.text x
          rw [Binary64.unsigned]
          split
          · next hx => rw [hx, hzero]
          · rfl
      | _ => rfl
  | array items ih =>
      have hitems : ∀ vs : List Json, (∀ v ∈ vs, Q.write N v.unsigned = Q.write N v) →
          Q.writeItems N (unsignedItems vs) = Q.writeItems N vs := by
        intro vs hvs
        induction vs with
        | nil => rfl
        | cons v vs ihvs =>
            obtain ⟨hv, hvs⟩ := List.forall_mem_cons.mp hvs
            rw [unsignedItems, Quoting.writeItems, Quoting.writeItems, hv, ihvs hvs]
      cases items with
      | nil => rfl
      | cons v vs =>
          obtain ⟨hv, hvs⟩ := List.forall_mem_cons.mp ih
          rw [unsigned, unsignedItems, Quoting.write, Quoting.write, hv, hitems vs hvs]
  | object members ih =>
      have hmembers : ∀ ms : List (JsString × Json),
          (∀ m ∈ ms, Q.write N m.2.unsigned = Q.write N m.2) →
          Q.writeMembers N (unsignedMembers ms) = Q.writeMembers N ms := by
        intro ms hms
        induction ms with
        | nil => rfl
        | cons m ms ihms =>
            obtain ⟨hm, hms⟩ := List.forall_mem_cons.mp hms
            rw [unsignedMembers, Quoting.writeMembers, Quoting.writeMembers, hm, ihms hms]
      cases members with
      | nil => rfl
      | cons m ms =>
          obtain ⟨hm, hms⟩ := List.forall_mem_cons.mp ih
          rw [unsigned, unsignedMembers, Quoting.write, Quoting.write, hm, hmembers ms hms]

/-- What was written is parsed to the value, a negative zero to zero. -/
theorem parse_quoting (hzero : N.text .negZero = N.text .zero) {v : Json} (hfinite : Finite v)
    (hdistinct : v.Distinct) : parse N (Q.write N v) = some v.unsigned := by
  rw [← write_unsigned Q hzero]
  exact parse_of_readText (Quoting.readText_write hfinite.readable) hdistinct.unsigned

end

end Json
