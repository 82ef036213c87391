import Mathlib.Data.List.Basic

/-!
# Strings of code units

A string as a sequence of 16-bit code units, which need not be well formed: a
surrogate may stand alone. The characters of a string are its scalar values with
U+FFFD for each surrogate that stands alone, as an encoder to UTF-8 reads it.
Where no surrogate stands alone nothing is lost, and the UTF-8 bytes determine the
string.
-/

set_option linter.unusedSectionVars false

namespace Utf16

/-- A string of 16-bit code units. -/
abbrev JsString := List UInt16

instance instLawfulBEqJsString : LawfulBEq JsString := List.instLawfulBEq

def isHigh (u : UInt16) : Bool := 0xD800 ≤ u.toNat && u.toNat < 0xDC00

def isLow (u : UInt16) : Bool := 0xDC00 ≤ u.toNat && u.toNat < 0xE000

theorem isHigh_iff {u : UInt16} : isHigh u = true ↔ 0xD800 ≤ u.toNat ∧ u.toNat < 0xDC00 := by
  simp [isHigh]

theorem isLow_iff {u : UInt16} : isLow u = true ↔ 0xDC00 ≤ u.toNat ∧ u.toNat < 0xE000 := by
  simp [isLow]

/-- Some surrogate is not half of a pair; `before` says that a high one stands
just before. -/
def loneSurrogateAfter : Bool → JsString → Bool
  | _, [] => false
  | before, u :: rest =>
    (isHigh u && !rest.head?.any isLow) || (isLow u && !before) ||
      loneSurrogateAfter (isHigh u) rest

def loneSurrogate (s : JsString) : Bool := loneSurrogateAfter false s

/-- The character a high and a low surrogate write together. -/
def pairChar (high low : UInt16) : Char :=
  Char.ofNat (0x10000 + (high.toNat - 0xD800) * 0x400 + (low.toNat - 0xDC00))

/-- The character of a unit on its own. -/
def unitChar (u : UInt16) : Char :=
  if isHigh u || isLow u then '\uFFFD' else Char.ofNat u.toNat

/-- The characters of a string. -/
def chars : JsString → List Char
  | [] => []
  | [u] => [unitChar u]
  | u :: v :: rest =>
    if isHigh u && isLow v then pairChar u v :: chars rest
    else unitChar u :: chars (v :: rest)

/-- The code units of a character. -/
def unitsOf (c : Char) : JsString :=
  if c.toNat < 0x10000 then [UInt16.ofNat c.toNat]
  else [UInt16.ofNat (0xD800 + (c.toNat - 0x10000) / 0x400),
    UInt16.ofNat (0xDC00 + (c.toNat - 0x10000) % 0x400)]

/-- The string of some characters. -/
def ofChars (cs : List Char) : JsString := cs.flatMap unitsOf

theorem ofChars_cons (c : Char) (cs : List Char) : ofChars (c :: cs) = unitsOf c ++ ofChars cs :=
  List.flatMap_cons

theorem toNat_ofNat_char {n : Nat} (h : n < 0xD800 ∨ 0xDFFF < n ∧ n < 0x110000) :
    (Char.ofNat n).toNat = n := by
  have hv : n.isValidChar := h
  rw [Char.ofNat, dif_pos hv]
  exact UInt32.toNat_ofNatLT

theorem char_range (c : Char) : c.toNat < 0xD800 ∨ 0xDFFF < c.toNat ∧ c.toNat < 0x110000 :=
  c.valid

theorem toNat_pairChar {u v : UInt16} (hu : isHigh u = true) (hv : isLow v = true) :
    (pairChar u v).toNat = 0x10000 + (u.toNat - 0xD800) * 0x400 + (v.toNat - 0xDC00) := by
  rw [isHigh_iff] at hu
  rw [isLow_iff] at hv
  exact toNat_ofNat_char (by omega)

/-- The code units of a code point. -/
def pointUnits (n : Nat) : JsString :=
  if n < 0x10000 then [UInt16.ofNat n]
  else [UInt16.ofNat (0xD800 + (n - 0x10000) / 0x400),
    UInt16.ofNat (0xDC00 + (n - 0x10000) % 0x400)]

theorem pointUnits_pair {u v : UInt16} (hu : isHigh u = true) (hv : isLow v = true) :
    pointUnits (0x10000 + (u.toNat - 0xD800) * 0x400 + (v.toNat - 0xDC00)) = [u, v] := by
  rw [isHigh_iff] at hu
  rw [isLow_iff] at hv
  rw [pointUnits, if_neg (by omega)]
  have h1 : 0xD800 + (0x10000 + (u.toNat - 0xD800) * 0x400 + (v.toNat - 0xDC00) - 0x10000) / 0x400
      = u.toNat := by omega
  have h2 : 0xDC00 + (0x10000 + (u.toNat - 0xD800) * 0x400 + (v.toNat - 0xDC00) - 0x10000) % 0x400
      = v.toNat := by omega
  rw [h1, h2, UInt16.ofNat_toNat, UInt16.ofNat_toNat]

theorem unitsOf_pairChar {u v : UInt16} (hu : isHigh u = true) (hv : isLow v = true) :
    unitsOf (pairChar u v) = [u, v] := by
  have hpoint : unitsOf (pairChar u v) = pointUnits (pairChar u v).toNat := rfl
  rw [hpoint, toNat_pairChar hu hv]
  exact pointUnits_pair hu hv

theorem unitsOf_unitChar {u : UInt16} (hu : isHigh u = false) (hl : isLow u = false) :
    unitsOf (unitChar u) = [u] := by
  have hlt : u.toNat < 0x10000 := u.toNat_lt
  have hn : (Char.ofNat u.toNat).toNat = u.toNat := by
    refine toNat_ofNat_char ?_
    by_contra hcon
    have h1 : ¬ (0xD800 ≤ u.toNat ∧ u.toNat < 0xDC00) := by
      rw [← isHigh_iff, hu]; exact Bool.false_ne_true
    have h2 : ¬ (0xDC00 ≤ u.toNat ∧ u.toNat < 0xE000) := by
      rw [← isLow_iff, hl]; exact Bool.false_ne_true
    omega
  rw [unitChar, hu, hl, if_neg (by simp), unitsOf, hn, if_pos hlt, UInt16.ofNat_toNat]

theorem not_isHigh_of_isLow {u : UInt16} (h : isLow u = true) : isHigh u = false := by
  rw [isLow_iff] at h
  rw [← Bool.not_eq_true, isHigh_iff]
  omega

/-- Where no surrogate stands alone, the characters write the string. -/
theorem ofChars_chars {s : JsString} (h : loneSurrogate s = false) : ofChars (chars s) = s := by
  unfold loneSurrogate at h
  induction s using chars.induct with
  | case1 => rfl
  | case2 u =>
      simp [loneSurrogateAfter] at h
      rw [chars, ofChars, List.flatMap_singleton, unitsOf_unitChar h.1 h.2]
  | case3 u v rest hpair ih =>
      rw [Bool.and_eq_true] at hpair
      rw [loneSurrogateAfter, loneSurrogateAfter, not_isHigh_of_isLow hpair.2] at h
      simp only [Bool.or_eq_false_iff] at h
      rw [chars, if_pos (by simp [hpair.1, hpair.2]), ofChars, List.flatMap_cons,
        unitsOf_pairChar hpair.1 hpair.2]
      exact congrArg (u :: v :: ·) (ih h.2.2)
  | case4 u v rest hpair ih =>
      rw [loneSurrogateAfter] at h
      simp only [Bool.or_eq_false_iff, Bool.and_eq_false_iff] at h
      obtain ⟨⟨hhigh, hlow⟩, hrest⟩ := h
      have hl : isLow u = false := by
        rcases hlow with h | h
        · exact h
        · cases h
      have hu : isHigh u = false := by
        rcases hhigh with h | h
        · exact h
        · rw [← Bool.not_eq_true]
          intro hu
          simp at h
          exact hpair (by rw [hu, h]; rfl)
      rw [hu] at hrest
      rw [chars, if_neg hpair, ofChars, List.flatMap_cons, unitsOf_unitChar hu hl]
      exact congrArg (u :: ·) (ih hrest)

/-! ## Code points -/

def isSurrogate (n : Nat) : Bool := 0xD800 ≤ n && n < 0xE000

/-- The code points of a string: a pair is one, and so is a surrogate that stands
alone. -/
def codePoints : JsString → List Nat
  | [] => []
  | [u] => [u.toNat]
  | u :: v :: rest =>
    if isHigh u && isLow v then
      (0x10000 + (u.toNat - 0xD800) * 0x400 + (v.toNat - 0xDC00)) :: codePoints rest
    else u.toNat :: codePoints (v :: rest)

/-- The code points write the string, surrogates that stand alone included. -/
theorem flatMap_codePoints (s : JsString) : (codePoints s).flatMap pointUnits = s := by
  have hunit : ∀ u : UInt16, pointUnits u.toNat = [u] := fun u => by
    rw [pointUnits, if_pos u.toNat_lt, UInt16.ofNat_toNat]
  induction s using codePoints.induct with
  | case1 => rfl
  | case2 u => rw [codePoints, List.flatMap_singleton, hunit]
  | case3 u v rest hpair ih =>
      rw [codePoints, if_pos hpair, List.flatMap_cons, ih]
      rw [Bool.and_eq_true] at hpair
      rw [pointUnits_pair hpair.1 hpair.2]
      rfl
  | case4 u v rest hpair ih =>
      rw [codePoints, if_neg hpair, List.flatMap_cons, ih, hunit]
      rfl

theorem codePoints_injective {s t : JsString} (h : codePoints s = codePoints t) : s = t := by
  rw [← flatMap_codePoints s, h, flatMap_codePoints]

theorem not_surrogate_unit {u : UInt16} (h : isSurrogate u.toNat = false) :
    isHigh u = false ∧ isLow u = false := by
  simp only [isSurrogate, Bool.and_eq_false_iff, decide_eq_false_iff_not] at h
  constructor
  · rw [← Bool.not_eq_true, isHigh_iff]; omega
  · rw [← Bool.not_eq_true, isLow_iff]; omega

theorem not_isLow_of_isHigh {u : UInt16} (h : isHigh u = true) : isLow u = false := by
  rw [isHigh_iff] at h
  rw [← Bool.not_eq_true, isLow_iff]
  omega

/-- Without a surrogate among the code points, none stands alone. -/
theorem loneSurrogate_of_codePoints {s : JsString}
    (h : ∀ n ∈ codePoints s, isSurrogate n = false) : loneSurrogate s = false := by
  unfold loneSurrogate
  induction s using codePoints.induct with
  | case1 => rfl
  | case2 u =>
      obtain ⟨hh, hl⟩ := not_surrogate_unit (h u.toNat (List.mem_singleton.mpr rfl))
      simp [loneSurrogateAfter, hh, hl]
  | case3 u v rest hpair ih =>
      rw [codePoints, if_pos hpair, List.forall_mem_cons] at h
      rw [Bool.and_eq_true] at hpair
      rw [loneSurrogateAfter, loneSurrogateAfter, hpair.1, hpair.2, not_isLow_of_isHigh hpair.1,
        not_isHigh_of_isLow hpair.2]
      simpa [hpair.2] using ih h.2
  | case4 u v rest hpair ih =>
      rw [codePoints, if_neg hpair, List.forall_mem_cons] at h
      obtain ⟨hh, hl⟩ := not_surrogate_unit h.1
      rw [loneSurrogateAfter, hh, hl]
      simpa using ih h.2

/-! ## Strings put together -/

/-- A surrogate before a string pairs up at most. -/
theorem loneSurrogateAfter_of_false {before : Bool} {s : JsString}
    (h : loneSurrogateAfter false s = false) : loneSurrogateAfter before s = false := by
  cases s with
  | nil => rfl
  | cons u s =>
      rw [loneSurrogateAfter] at h ⊢
      simp only [Bool.or_eq_false_iff, Bool.and_eq_false_iff, Bool.not_false] at h ⊢
      obtain ⟨⟨hhigh, hlow⟩, hrest⟩ := h
      refine ⟨⟨hhigh, ?_⟩, hrest⟩
      rcases hlow with hlow | hlow
      · exact .inl hlow
      · cases hlow

theorem loneSurrogateAfter_append {before : Bool} {s t : JsString}
    (hs : loneSurrogateAfter before s = false) (ht : loneSurrogate t = false) :
    loneSurrogateAfter before (s ++ t) = false := by
  induction s generalizing before with
  | nil => exact loneSurrogateAfter_of_false ht
  | cons u s ih =>
      rw [loneSurrogateAfter] at hs
      simp only [Bool.or_eq_false_iff] at hs
      obtain ⟨⟨hhigh, hlow⟩, hrest⟩ := hs
      have hhead : (isHigh u && !(s ++ t).head?.any isLow) = false := by
        cases s with
        | nil => simp_all
        | cons v s => simpa using hhigh
      rw [List.cons_append, loneSurrogateAfter, hhead, hlow, ih hrest]
      rfl

theorem loneSurrogate_append {s t : JsString} (hs : loneSurrogate s = false)
    (ht : loneSurrogate t = false) : loneSurrogate (s ++ t) = false :=
  loneSurrogateAfter_append hs ht

/-- Behind a unit that is no surrogate a string stands for itself. -/
theorem loneSurrogateAfter_cons {before : Bool} {u : UInt16} {s : JsString}
    (h : isSurrogate u.toNat = false) :
    loneSurrogateAfter before (u :: s) = loneSurrogateAfter false s := by
  obtain ⟨hh, hl⟩ := not_surrogate_unit h
  rw [loneSurrogateAfter, hh, hl]
  rfl

theorem isSurrogate_of_lt {n : Nat} (h : n < 0xD800) : isSurrogate n = false := by
  simp [isSurrogate]
  omega

theorem loneSurrogateAfter_ascii {before : Bool} {s t : JsString} (hne : s ≠ [])
    (h : ∀ u ∈ s, u.toNat < 0x80) :
    loneSurrogateAfter before (s ++ t) = loneSurrogateAfter false t := by
  induction s generalizing before with
  | nil => exact absurd rfl hne
  | cons u s ih =>
      obtain ⟨hu, hs⟩ := List.forall_mem_cons.mp h
      rw [List.cons_append, loneSurrogateAfter_cons (isSurrogate_of_lt (by omega))]
      cases s with
      | nil => rfl
      | cons v s => exact ih (List.cons_ne_nil _ _) hs

theorem loneSurrogate_ascii {s : JsString} (h : ∀ u ∈ s, u.toNat < 0x80) :
    loneSurrogate s = false := by
  cases s with
  | nil => rfl
  | cons u s =>
      have := @loneSurrogateAfter_ascii false (u :: s) [] (List.cons_ne_nil u s) h
      rw [List.append_nil] at this
      exact this

/-- A character's units: one that is no surrogate, or a high and a low one. -/
theorem unitsOf_cases (c : Char) :
    (∃ u, unitsOf c = [u] ∧ isHigh u = false ∧ isLow u = false ∧ unitChar u = c) ∨
      ∃ u v, unitsOf c = [u, v] ∧ isHigh u = true ∧ isLow v = true ∧ pairChar u v = c := by
  have hc := char_range c
  by_cases hlt : c.toNat < 0x10000
  · left
    have hn : (UInt16.ofNat c.toNat).toNat = c.toNat := UInt16.toNat_ofNat_of_lt' hlt
    have hhigh : isHigh (UInt16.ofNat c.toNat) = false := by
      rw [← Bool.not_eq_true, isHigh_iff, hn]; omega
    have hlow : isLow (UInt16.ofNat c.toNat) = false := by
      rw [← Bool.not_eq_true, isLow_iff, hn]; omega
    refine ⟨UInt16.ofNat c.toNat, by rw [unitsOf, if_pos hlt], hhigh, hlow, ?_⟩
    rw [unitChar, hhigh, hlow, if_neg (by simp), hn, Char.ofNat_toNat]
  · right
    have hn : (UInt16.ofNat (0xD800 + (c.toNat - 0x10000) / 0x400)).toNat =
        0xD800 + (c.toNat - 0x10000) / 0x400 := UInt16.toNat_ofNat_of_lt' (show _ < 65536 by omega)
    have hm : (UInt16.ofNat (0xDC00 + (c.toNat - 0x10000) % 0x400)).toNat =
        0xDC00 + (c.toNat - 0x10000) % 0x400 := UInt16.toNat_ofNat_of_lt' (show _ < 65536 by omega)
    refine ⟨_, _, by rw [unitsOf, if_neg hlt], isHigh_iff.mpr (by rw [hn]; omega),
      isLow_iff.mpr (by rw [hm]; omega), ?_⟩
    rw [pairChar, hn, hm]
    have : 0x10000 + (0xD800 + (c.toNat - 0x10000) / 0x400 - 0xD800) * 0x400 +
        (0xDC00 + (c.toNat - 0x10000) % 0x400 - 0xDC00) = c.toNat := by omega
    rw [this, Char.ofNat_toNat]

/-- What characters write has no surrogate that stands alone. -/
theorem loneSurrogate_ofChars (cs : List Char) : loneSurrogate (ofChars cs) = false := by
  unfold loneSurrogate
  induction cs with
  | nil => rfl
  | cons c cs ih =>
      rw [ofChars_cons]
      rcases unitsOf_cases c with ⟨u, hu, hh, hl, _⟩ | ⟨u, v, hu, hh, hl, _⟩
      · rw [hu, List.singleton_append, loneSurrogateAfter, hh, hl]
        simpa using ih
      · rw [hu, List.cons_append, List.singleton_append, loneSurrogateAfter, loneSurrogateAfter,
          hh, hl, not_isHigh_of_isLow hl]
        simpa [hl, not_isLow_of_isHigh hh] using ih

theorem chars_cons_single {u : UInt16} (hu : isHigh u = false) (s : JsString) :
    chars (u :: s) = unitChar u :: chars s := by
  cases s with
  | nil => rfl
  | cons v s => rw [chars, hu, if_neg (by simp)]

/-- The string of some characters has those characters. -/
theorem chars_ofChars (cs : List Char) : chars (ofChars cs) = cs := by
  induction cs with
  | nil => rfl
  | cons c cs ih =>
      rw [ofChars_cons]
      rcases unitsOf_cases c with ⟨u, hu, hh, _, hc⟩ | ⟨u, v, hu, hh, hl, hc⟩
      · rw [hu, List.singleton_append, chars_cons_single hh, hc]
        exact congrArg (c :: ·) ih
      · rw [hu, List.cons_append, List.singleton_append, chars, if_pos (by simp [hh, hl]), hc]
        exact congrArg (c :: ·) ih

/-! ## UTF-8 -/

/-- The UTF-8 bytes of a string, U+FFFD for a surrogate that stands alone. -/
def encodeUtf8 (s : JsString) : List UInt8 := (chars s).flatMap String.utf8EncodeChar

/-- The string some bytes are the UTF-8 of; `none` where they are not UTF-8. -/
def decodeUtf8 (bytes : List UInt8) : Option JsString :=
  bytes.toByteArray.utf8Decode?.map fun cs => ofChars cs.toList

theorem decodeUtf8_encodeUtf8 {s : JsString} (h : loneSurrogate s = false) :
    decodeUtf8 (encodeUtf8 s) = some s := by
  have hencode : (encodeUtf8 s).toByteArray = (chars s).utf8Encode := rfl
  rw [decodeUtf8, hencode, List.utf8Decode?_utf8Encode, Option.map_some, ofChars_chars h]

theorem decodeUtf8_eq_some {bytes : List UInt8} {s : JsString} (h : decodeUtf8 bytes = some s) :
    loneSurrogate s = false ∧ encodeUtf8 s = bytes := by
  rw [decodeUtf8, Option.map_eq_some_iff] at h
  obtain ⟨cs, hcs, rfl⟩ := h
  refine ⟨loneSurrogate_ofChars _, ?_⟩
  have hsome : (bytes.toByteArray.utf8Decode?).isSome := by rw [hcs]; rfl
  have hget := @ByteArray.utf8Encode_get_utf8Decode? bytes.toByteArray hsome
  have hcs' : (bytes.toByteArray.utf8Decode?).get hsome = cs := by
    simp only [hcs, Option.get_some]
  rw [hcs'] at hget
  have hencode : (encodeUtf8 (ofChars cs.toList)).toByteArray = cs.toList.utf8Encode := by
    rw [encodeUtf8, chars_ofChars]; rfl
  rw [← hencode] at hget
  simpa using congrArg (fun b : ByteArray => b.data.toList) hget

theorem length_encodeUtf8_cons {u : UInt16} {rest : JsString} (c : Char) (more : JsString)
    (h : chars (u :: rest) = c :: chars more) :
    (encodeUtf8 (u :: rest)).length = c.utf8Size + (encodeUtf8 more).length := by
  rw [encodeUtf8, h, List.flatMap_cons, List.length_append, ← encodeUtf8,
    String.length_utf8EncodeChar]

theorem encodeUtf8_injective {s t : JsString} (hs : loneSurrogate s = false)
    (ht : loneSurrogate t = false) (h : encodeUtf8 s = encodeUtf8 t) : s = t := by
  have h1 := decodeUtf8_encodeUtf8 hs
  rw [h, decodeUtf8_encodeUtf8 ht] at h1
  exact (Option.some.inj h1).symm

/-! ## How many bytes a character takes -/

/-- A low surrogate by its six leading bits. -/
theorem and_mask_iff {n : Nat} : n &&& 0xFC00 = 0xDC00 ↔ n / 0x400 % 0x40 = 0x37 := by
  have hdiv : (n &&& 0xFC00) / 2 ^ 10 = n / 2 ^ 10 % 2 ^ 6 := by
    rw [Nat.and_div_two_pow]
    exact Nat.and_two_pow_sub_one_eq_mod (n / 2 ^ 10) 6
  have hmod : (n &&& 0xFC00) % 2 ^ 10 = 0 := by
    rw [Nat.and_mod_two_pow]
    exact Nat.and_zero _
  omega

theorem isLow_iff_mask {u : UInt16} : isLow u = true ↔ u &&& 0xFC00 = 0xDC00 := by
  have hlt := u.toNat_lt
  have hmask : u &&& 0xFC00 = 0xDC00 ↔ u.toNat &&& 0xFC00 = 0xDC00 := by
    rw [← UInt16.toNat_inj, UInt16.toNat_and]
    rfl
  rw [isLow_iff, hmask, and_mask_iff]
  omega

theorem utf8Size_eq (c : Char) : c.utf8Size =
    if c.toNat < 0x80 then 1 else if c.toNat < 0x800 then 2 else if c.toNat < 0x10000 then 3
    else 4 := by
  have hle : ∀ {n : Nat} (h : n < UInt32.size), (c.val ≤ UInt32.ofNatLT n h) ↔ c.toNat < n + 1 := by
    intro n h
    rw [UInt32.le_iff_toNat_le, UInt32.toNat_ofNatLT]
    exact Nat.lt_succ_iff.symm
  simp only [Char.utf8Size, hle]

theorem utf8Size_pairChar {u v : UInt16} (hu : isHigh u = true) (hv : isLow v = true) :
    (pairChar u v).utf8Size = 4 := by
  rw [utf8Size_eq, toNat_pairChar hu hv, if_neg (by omega), if_neg (by omega), if_neg (by omega)]

/-- A unit on its own takes three bytes at most, and a surrogate that stands alone three. -/
theorem utf8Size_unitChar (u : UInt16) : (unitChar u).utf8Size =
    if u.toNat < 0x80 then 1 else if u.toNat < 0x800 then 2 else 3 := by
  have hlt : u.toNat < 0x10000 := u.toNat_lt
  by_cases hs : isSurrogate u.toNat = true
  · have hrange : 0xD800 ≤ u.toNat := by
      rw [isSurrogate, Bool.and_eq_true, decide_eq_true_eq] at hs
      exact hs.1
    have hlone : (isHigh u || isLow u) = true := by
      rw [Bool.or_eq_true, isHigh_iff, isLow_iff]
      rw [isSurrogate, Bool.and_eq_true, decide_eq_true_eq, decide_eq_true_eq] at hs
      omega
    rw [unitChar, if_pos hlone, if_neg (by omega), if_neg (by omega)]
    rfl
  · obtain ⟨hh, hl⟩ := not_surrogate_unit (Bool.not_eq_true _ ▸ hs)
    have hn : (Char.ofNat u.toNat).toNat = u.toNat := by
      refine toNat_ofNat_char ?_
      rw [isSurrogate, Bool.and_eq_true, decide_eq_true_eq, decide_eq_true_eq] at hs
      omega
    rw [unitChar, hh, hl, if_neg (by simp), utf8Size_eq, hn, if_pos hlt]

end Utf16
