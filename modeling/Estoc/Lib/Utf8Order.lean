import Estoc.Lib.Utf16

/-!
# The order of UTF-8 bytes

The bytes of two texts compare as the texts' code points do: where the first two
characters that differ are written, neither is written as the beginning of the other, and
the first byte they differ in is smaller for the smaller character.
-/

set_option linter.unusedSectionVars false

namespace Utf16

/-- The bytes a code point is written as, as numbers. -/
def pointBytes (n : Nat) : List Nat :=
  if n ≤ 0x7F then [n]
  else if n ≤ 0x7FF then [n / 64 % 0x20 + 0xC0, n % 0x40 + 0x80]
  else if n ≤ 0xFFFF then [n / 4096 % 0x10 + 0xE0, n / 64 % 0x40 + 0x80, n % 0x40 + 0x80]
  else [n / 262144 % 0x08 + 0xF0, n / 4096 % 0x40 + 0x80, n / 64 % 0x40 + 0x80, n % 0x40 + 0x80]

theorem toNat_utf8EncodeChar (c : Char) :
    (String.utf8EncodeChar c).map UInt8.toNat = pointBytes c.toNat := by
  have hbyte : ∀ n, n < 256 → (UInt8.ofNat n).toNat = n := fun n h => UInt8.toNat_ofNat_of_lt' h
  have hv : c.val.toNat = c.toNat := rfl
  unfold String.utf8EncodeChar pointBytes
  simp only [hv]
  split
  · rw [List.map_cons, hbyte _ (by omega), List.map_nil]
  · split
    · simp only [List.map_cons, List.map_nil]
      rw [hbyte _ (by omega), hbyte _ (by omega)]
    · split
      · simp only [List.map_cons, List.map_nil]
        rw [hbyte _ (by omega), hbyte _ (by omega), hbyte _ (by omega)]
      · simp only [List.map_cons, List.map_nil]
        rw [hbyte _ (by omega), hbyte _ (by omega), hbyte _ (by omega), hbyte _ (by omega)]

/-- Numbers in lexicographic order, a proper prefix first. -/
def compareNats (a b : List Nat) : Ordering := List.compareLex compare a b

theorem compareNats_cons_of_lt {x y : Nat} (h : x < y) (a b : List Nat) :
    compareNats (x :: a) (y :: b) = .lt := by
  rw [compareNats, List.compareLex_cons_cons, Nat.compare_eq_lt.mpr h]
  rfl

theorem compareNats_cons_self (x : Nat) (a b : List Nat) :
    compareNats (x :: a) (x :: b) = compareNats a b := by
  rw [compareNats, List.compareLex_cons_cons, Nat.compare_eq_eq.mpr rfl]
  rfl

theorem compareNats_append (a b c : List Nat) :
    compareNats (a ++ b) (a ++ c) = compareNats b c := by
  induction a with
  | nil => rfl
  | cons x a ih => rw [List.cons_append, List.cons_append, compareNats_cons_self, ih]

/-- The next bytes: smaller, or equal and the rest decides. -/
theorem compareNats_cons_lt {x y : Nat} {a b : List Nat} (hle : x ≤ y)
    (h : x = y → compareNats a b = .lt) : compareNats (x :: a) (y :: b) = .lt := by
  rcases Nat.lt_or_eq_of_le hle with hlt | heq
  · exact compareNats_cons_of_lt hlt a b
  · rw [← heq, compareNats_cons_self]
    exact h heq

/-- A smaller code point is written as smaller bytes, whatever follows. -/
theorem compareNats_pointBytes {n m : Nat} (hlt : n < m) (hm : m < 0x110000) (a b : List Nat) :
    compareNats (pointBytes n ++ a) (pointBytes m ++ b) = .lt := by
  unfold pointBytes
  by_cases h1 : m ≤ 0x7F
  · rw [if_pos h1, if_pos (by omega)]
    exact compareNats_cons_of_lt hlt a b
  by_cases h2 : m ≤ 0x7FF
  · rw [if_neg h1, if_pos h2]
    split
    · exact compareNats_cons_of_lt (by omega) _ _
    · rw [if_pos (by omega)]
      refine compareNats_cons_lt (by omega) fun hlead => ?_
      exact compareNats_cons_of_lt (by omega) a b
  by_cases h3 : m ≤ 0xFFFF
  · rw [if_neg h1, if_neg h2, if_pos h3]
    split
    · exact compareNats_cons_of_lt (by omega) _ _
    · split
      · exact compareNats_cons_of_lt (by omega) _ _
      · rw [if_pos (by omega)]
        refine compareNats_cons_lt (by omega) fun hlead => ?_
        refine compareNats_cons_lt (by omega) fun hnext => ?_
        exact compareNats_cons_of_lt (by omega) a b
  · rw [if_neg h1, if_neg h2, if_neg h3]
    split
    · exact compareNats_cons_of_lt (by omega) _ _
    · split
      · exact compareNats_cons_of_lt (by omega) _ _
      · split
        · exact compareNats_cons_of_lt (by omega) _ _
        · refine compareNats_cons_lt (by omega) fun hlead => ?_
          refine compareNats_cons_lt (by omega) fun hnext => ?_
          refine compareNats_cons_lt (by omega) fun hthird => ?_
          exact compareNats_cons_of_lt (by omega) a b

theorem pointBytes_ne_nil (n : Nat) : ∃ x rest, pointBytes n = x :: rest := by
  unfold pointBytes
  split
  · exact ⟨_, _, rfl⟩
  · split
    · exact ⟨_, _, rfl⟩
    · split <;> exact ⟨_, _, rfl⟩

instance : Std.TransCmp compareNats :=
  inferInstanceAs (Std.TransCmp (List.compareLex compare))

instance : Std.LawfulEqCmp compareNats :=
  inferInstanceAs (Std.LawfulEqCmp (List.compareLex compare))

/-- Code points in order are UTF-8 bytes in order. -/
theorem compareNats_flatMap_pointBytes {ns ms : List Nat} (hns : ∀ n ∈ ns, n < 0x110000)
    (hms : ∀ m ∈ ms, m < 0x110000) :
    compareNats (ns.flatMap pointBytes) (ms.flatMap pointBytes) = compareNats ns ms := by
  induction ns generalizing ms with
  | nil =>
      cases ms with
      | nil => rfl
      | cons m ms =>
          obtain ⟨x, rest, hx⟩ := pointBytes_ne_nil m
          rw [List.flatMap_cons, hx]
          rfl
  | cons n ns ih =>
      cases ms with
      | nil =>
          obtain ⟨x, rest, hx⟩ := pointBytes_ne_nil n
          rw [List.flatMap_cons, hx]
          rfl
      | cons m ms =>
          rw [List.forall_mem_cons] at hns hms
          rw [List.flatMap_cons, List.flatMap_cons]
          rcases Nat.lt_trichotomy n m with hlt | heq | hlt
          · rw [compareNats_pointBytes hlt hms.1, compareNats_cons_of_lt hlt]
          · rw [← heq, compareNats_append, compareNats_cons_self, ih hns.2 hms.2]
          · rw [@Std.OrientedCmp.eq_swap _ compareNats _ (n :: ns) _,
              compareNats_cons_of_lt hlt, @Std.OrientedCmp.eq_swap _ compareNats _ _ _,
              compareNats_pointBytes hlt hns.1]

/-- The code points of a string of characters are the characters. -/
theorem codePoints_ofChars (cs : List Char) : codePoints (ofChars cs) = cs.map Char.toNat := by
  induction cs with
  | nil => rfl
  | cons c cs ih =>
      rw [ofChars_cons, List.map_cons, ← ih]
      rcases unitsOf_cases c with ⟨u, hu, hh, hl, hc⟩ | ⟨u, v, hu, hh, hl, hc⟩
      · have hpoint : u.toNat = c.toNat := by
          rw [← hc, unitChar, hh, hl, if_neg (by simp)]
          refine (toNat_ofNat_char ?_).symm
          have hlt := u.toNat_lt
          rw [← Bool.not_eq_true, isHigh_iff] at hh
          rw [← Bool.not_eq_true, isLow_iff] at hl
          omega
        rw [hu, List.singleton_append]
        cases ofChars cs with
        | nil => rw [codePoints, codePoints, hpoint]
        | cons v rest => rw [codePoints, hh, if_neg (by simp), hpoint]
      · have hpoint : 0x10000 + (u.toNat - 0xD800) * 0x400 + (v.toNat - 0xDC00) = c.toNat := by
          rw [← hc, pairChar]
          refine (toNat_ofNat_char ?_).symm
          rw [isHigh_iff] at hh
          rw [isLow_iff] at hl
          omega
        rw [hu, List.cons_append, List.singleton_append, codePoints, if_pos (by simp [hh, hl]),
          hpoint]

/-- The order of the UTF-8 bytes of two strings is the order of their code points. -/
theorem compareNats_encodeUtf8 (cs ds : List Char) :
    compareNats ((encodeUtf8 (ofChars cs)).map UInt8.toNat)
        ((encodeUtf8 (ofChars ds)).map UInt8.toNat) =
      compareNats (codePoints (ofChars cs)) (codePoints (ofChars ds)) := by
  have hbytes : ∀ es : List Char, (encodeUtf8 (ofChars es)).map UInt8.toNat =
      (es.map Char.toNat).flatMap pointBytes := by
    intro es
    rw [encodeUtf8, chars_ofChars, List.map_flatMap, List.flatMap_map]
    exact congrArg (List.flatMap · es) (funext toNat_utf8EncodeChar)
  have hrange : ∀ es : List Char, ∀ n ∈ es.map Char.toNat, n < 0x110000 := by
    intro es n hn
    obtain ⟨c, _, rfl⟩ := List.mem_map.mp hn
    have := char_range c
    omega
  rw [hbytes, hbytes, codePoints_ofChars, codePoints_ofChars,
    compareNats_flatMap_pointBytes (hrange cs) (hrange ds)]

end Utf16
