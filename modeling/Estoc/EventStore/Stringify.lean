import Estoc.EventStore.Values
import Estoc.Lib.JsonQuoting

/-!
# JSON values through `JSON.stringify`

What `JSON.stringify` makes of a JSON value is one of the ways of writing it: only its
strings are written otherwise, with the surrogates that stand alone escaped. So it parses
to the value, and it is text that encodes and decodes whatever the strings were.
-/

set_option linter.unusedSectionVars false

namespace Estoc.EventStore.JsValue

open Json (lit)
open Utf16 (JsString isHigh isLow loneSurrogate)

/-! ## Strings -/

theorem readString_unit (u : UInt16) (rest : JsString) :
    Json.readString (quoteUnits.escapeUnit u ++ rest) =
      (Json.readString rest).map fun p => (u :: p.1, p.2) := by
  have hu := u.toNat_lt
  have h1 := Json.hexValue_hexDigit (u.toNat / 4096) (by omega)
  have h2 := Json.hexValue_hexDigit (u.toNat / 256 % 16) (by omega)
  have h3 := Json.hexValue_hexDigit (u.toNat / 16 % 16) (by omega)
  have h4 := Json.hexValue_hexDigit (u.toNat % 16) (by omega)
  have hsum : u.toNat / 4096 * 4096 + u.toNat / 256 % 16 * 256 + u.toNat / 16 % 16 * 16 +
      u.toNat % 16 = u.toNat := by omega
  have htext : quoteUnits.escapeUnit u = [Json.backslash, 0x75, Json.hexDigit (u.toNat / 4096),
    Json.hexDigit (u.toNat / 256 % 16), Json.hexDigit (u.toNat / 16 % 16),
    Json.hexDigit (u.toNat % 16)] := rfl
  rw [htext, List.cons_append, Json.readString.eq_def]
  simp only [show Json.backslash ≠ Json.dquote by decide, if_false, if_true, List.cons_append,
    List.nil_append, h1, h2, h3, h4, hsum, UInt16.ofNat_toNat]

/-- A surrogate that is left as it stands is read as it stands. -/
theorem readString_surrogate {u : UInt16} (h : 0xD800 ≤ u.toNat) (rest : JsString) :
    Json.readString (u :: rest) = (Json.readString rest).map fun p => (u :: p.1, p.2) := by
  have hquote : u ≠ Json.dquote := by
    rintro rfl
    exact absurd h (by decide)
  have hslash : u ≠ Json.backslash := by
    rintro rfl
    exact absurd h (by decide)
  rw [Json.readString.eq_def]
  simp only [if_neg hquote, if_neg hslash, if_neg (show ¬u.toNat < 0x20 by omega)]

theorem readString_quoteUnits (s rest : JsString) :
    Json.readString (quoteUnits s ++ Json.dquote :: rest) = some (s, rest) := by
  have hhigh : ∀ {u : UInt16}, isHigh u = true → 0xD800 ≤ u.toNat := fun h => (Utf16.isHigh_iff.mp h).1
  have hlow : ∀ {u : UInt16}, isLow u = true → 0xD800 ≤ u.toNat := fun h =>
    Nat.le_trans (by decide) (Utf16.isLow_iff.mp h).1
  have hend : Json.readString (Json.dquote :: rest) = some ([], rest) := by
    rw [Json.readString.eq_def]
    simp only [if_true]
  fun_induction quoteUnits s with
  | case1 => exact hend
  | case2 u h => rw [readString_unit, hend]; rfl
  | case3 u h => rw [Json.readString_escape, hend]; rfl
  | case4 u v more h ih =>
      rw [Bool.and_eq_true] at h
      rw [List.cons_append, List.cons_append, readString_surrogate (hhigh h.1),
        readString_surrogate (hlow h.2), ih]
      rfl
  | case5 u v more _ h ih => rw [List.append_assoc, readString_unit, ih]; rfl
  | case6 u v more _ h ih => rw [List.append_assoc, Json.readString_escape, ih]; rfl

/-- The strings of `JSON.stringify`. -/
def stringifying : Json.Quoting := ⟨quoteUnits, readString_quoteUnits⟩

theorem ascii_escapeUnit (u : UInt16) : ∀ v ∈ quoteUnits.escapeUnit u, v.toNat < 0x80 := by
  have hhex : ∀ n < 16, (Json.hexDigit n).toNat < 0x80 := by decide
  have htext : quoteUnits.escapeUnit u = [Json.backslash, 0x75, Json.hexDigit (u.toNat / 4096),
    Json.hexDigit (u.toNat / 256 % 16), Json.hexDigit (u.toNat / 16 % 16),
    Json.hexDigit (u.toNat % 16)] := rfl
  have hu := u.toNat_lt
  rw [htext]
  simp only [List.forall_mem_cons]
  exact ⟨by decide, by decide, hhex _ (by omega), hhex _ (by omega), hhex _ (by omega),
    hhex _ (by omega), by simp⟩

theorem loneSurrogate_escape {u : UInt16} (h : ¬(isHigh u || isLow u) = true) :
    loneSurrogate (Json.escape u) = false := by
  rw [Bool.not_eq_true, Bool.or_eq_false_iff] at h
  rcases Json.escape_cases u with he | ⟨-, -, hall⟩
  · rw [he, loneSurrogate, Utf16.loneSurrogateAfter, Utf16.loneSurrogateAfter, h.1, h.2]
    rfl
  · exact Utf16.loneSurrogate_ascii hall

theorem loneSurrogate_quoteUnits (s : JsString) : loneSurrogate (quoteUnits s) = false := by
  fun_induction quoteUnits s with
  | case1 => rfl
  | case2 u h => exact Utf16.loneSurrogate_ascii (ascii_escapeUnit u)
  | case3 u h => exact loneSurrogate_escape h
  | case4 u v more h ih =>
      rw [Bool.and_eq_true] at h
      have hpair : loneSurrogate [u, v] = false := by
        simp [loneSurrogate, Utf16.loneSurrogateAfter, h.1, h.2, Utf16.not_isHigh_of_isLow h.2,
          Utf16.not_isLow_of_isHigh h.1]
      exact Utf16.loneSurrogate_append hpair ih
  | case5 u v more _ h ih =>
      exact Utf16.loneSurrogate_append (Utf16.loneSurrogate_ascii (ascii_escapeUnit u)) ih
  | case6 u v more _ h ih => exact Utf16.loneSurrogate_append (loneSurrogate_escape h) ih

/-! ## Values -/

section
variable {N : Json.NumberText}

theorem loneSurrogate_stringified {v : Json} (h : v.Finite) :
    loneSurrogate (stringifying.write N v) = false := by
  have hmarks : (lit "\x7b\x7d[]:,").all (fun u => loneSurrogate [u] = false) = true := by decide
  have hwords : Json.words.all (fun w => loneSurrogate w.1 = false) = true := by decide
  refine Json.write_of_append stringifying N (P := fun s => loneSurrogate s = false)
    (fun s t => Utf16.loneSurrogate_append)
    (fun u hu => of_decide_eq_true (List.all_eq_true.mp hmarks u hu))
    (fun w hw => of_decide_eq_true (List.all_eq_true.mp hwords w hw)) (fun x hx => ?_) (fun s => ?_) h
  · exact Utf16.loneSurrogate_ascii fun u hu =>
      Json.ascii_of_isNumberUnit (Json.isNumber_units (N.isNumber_text x hx) u hu)
  · exact Json.loneSurrogate_cons (by decide)
      (Utf16.loneSurrogate_append (loneSurrogate_quoteUnits s) (by decide))

theorem stringifyElements_ofItems {vs : List Json}
    (h : ∀ v ∈ vs, stringify N (ofJson v) = .ok (some (stringifying.write N v))) :
    stringifyElements N (ofItems vs) = .ok (vs.map (stringifying.write N)) := by
  induction vs with
  | nil => rfl
  | cons v vs ih =>
      obtain ⟨hv, hvs⟩ := List.forall_mem_cons.mp h
      rw [ofItems, stringifyElements, hv, Checked.ok_bind, ih hvs]
      rfl

/-- A member as it is written. -/
def memberText (N : Json.NumberText) (m : JsString × Json) : JsString :=
  quote m.1 ++ lit ":" ++ stringifying.write N m.2

theorem stringifyMembers_ofMembers {ms : List (JsString × Json)}
    (h : ∀ m ∈ ms, stringify N (ofJson m.2) = .ok (some (stringifying.write N m.2))) :
    stringifyMembers N (ofMembers ms) =
      .ok (ms.map (memberText N)) := by
  induction ms with
  | nil => rfl
  | cons m ms ih =>
      obtain ⟨hm, hms⟩ := List.forall_mem_cons.mp h
      rw [ofMembers, stringifyMembers, hm, Checked.ok_bind, ih hms]
      rfl

theorem intercalate_items (v : Json) (vs : List Json) :
    (lit ",").intercalate ((v :: vs).map (stringifying.write N)) ++ lit "]" =
      stringifying.write N v ++ stringifying.writeItems N vs := by
  induction vs generalizing v with
  | nil => rw [List.map_singleton, List.intercalate_singleton]; rfl
  | cons w vs ih =>
      rw [List.map_cons, List.map_cons, List.intercalate_cons_cons, List.append_assoc,
        ← List.map_cons, ih]
      rw [List.append_assoc]
      rfl

theorem intercalate_members (m : JsString × Json) (ms : List (JsString × Json)) :
    (lit ",").intercalate ((m :: ms).map (memberText N)) ++ lit "\x7d" =
      memberText N m ++ stringifying.writeMembers N ms := by
  induction ms generalizing m with
  | nil => rw [List.map_singleton, List.intercalate_singleton]; rfl
  | cons w ms ih =>
      rw [List.map_cons, List.map_cons, List.intercalate_cons_cons, List.append_assoc,
        ← List.map_cons, ih, List.append_assoc, memberText, memberText, List.append_assoc (quote w.1),
        List.append_assoc (quote w.1)]
      rfl

theorem stringify_ofJson {v : Json} (h : v.Finite) :
    stringify N (ofJson v) = .ok (some (stringifying.write N v)) := by
  induction h with
  | @scalar s hs =>
      cases s with
      | number x =>
          show pure (some (if x.isFinite = true then N.text x else lit "null")) = _
          rw [if_pos (hs x rfl)]
          rfl
      | boolean b => cases b <;> rfl
      | _ => rfl
  | @array items _ ih =>
      rw [ofJson, stringify, stringifyElements_ofItems ih, Checked.ok_bind]
      cases items with
      | nil => rfl
      | cons v vs =>
          rw [List.append_assoc, intercalate_items]
          rfl
  | @object members _ ih =>
      rw [ofJson, stringify, stringifyMembers_ofMembers ih, Checked.ok_bind]
      cases members with
      | nil => rfl
      | cons m ms =>
          rw [List.append_assoc, intercalate_members, memberText, List.append_assoc,
            List.append_assoc]
          rfl

end

end Estoc.EventStore.JsValue
