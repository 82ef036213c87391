import Mathlib.Data.List.GetD
import Mathlib.Data.List.TakeWhile
import Mathlib.Data.Nat.Digits.Lemmas
import Mathlib.Tactic.NormNum
import Estoc.Lib.Json

/-!
# Base 58

A list of digits written in another base: the number the digits are, and a zero in front for
every zero in front. So no list is lost, whatever it begins with, and writing it back gives
the list again. Base 58 is bytes written this way with letters for the digits.

How long the text is depends on the number alone, so bytes that begin alike are written with
the same letters in front as soon as they are equally many.
-/

set_option linter.unusedSectionVars false

open Utf16 (JsString)

namespace Base58

/-! ## From one base to another -/

/-- The number some digits are, the most significant first. -/
def number (base : Nat) (digits : List Nat) : Nat := Nat.ofDigits base digits.reverse

def convert (base base' : Nat) (digits : List Nat) : List Nat :=
  List.replicate (digits.takeWhile (· == 0)).length 0 ++
    (Nat.digits base' (number base digits)).reverse

section
variable {base base' : Nat}

theorem number_zeros (n : Nat) (digits : List Nat) :
    number base (List.replicate n 0 ++ digits) = number base digits := by
  rw [number, List.reverse_append, List.reverse_replicate, Nat.ofDigits_append_replicate_zero]
  rfl

theorem number_reverse_digits (n : Nat) : number base (Nat.digits base n).reverse = n := by
  rw [number, List.reverse_reverse, Nat.ofDigits_digits]

/-- No digits of a number begin with a zero. -/
theorem head_reverse_digits (n : Nat) : (Nat.digits base n).reverse.head? ≠ some 0 := by
  by_cases hn : n = 0
  · rw [hn, Nat.digits_zero]
    exact fun h => by cases h
  · rw [List.head?_reverse, List.getLast?_eq_getLast_of_ne_nil
      (Nat.digits_ne_nil_iff_ne_zero.mpr hn)]
    exact fun h => Nat.getLast_digit_ne_zero base hn (Option.some.inj h)

theorem takeWhile_zeros (n : Nat) {digits : List Nat} (h : digits.head? ≠ some 0) :
    (List.replicate n 0 ++ digits).takeWhile (· == 0) = List.replicate n 0 := by
  rw [List.takeWhile_append_of_pos fun d hd => by rw [List.eq_of_mem_replicate hd]; rfl]
  cases digits with
  | nil => rw [List.takeWhile_nil, List.append_nil]
  | cons d rest =>
      have hd : (d == 0) = false := by
        rw [beq_eq_false_iff_ne]
        exact fun hd => h (congrArg some hd)
      rw [List.takeWhile_cons, hd]
      exact List.append_nil _

/-- The zeros in front, and digits that begin with none. -/
theorem exists_zeros (digits : List Nat) :
    ∃ rest, digits = List.replicate (digits.takeWhile (· == 0)).length 0 ++ rest ∧
      rest.head? ≠ some 0 := by
  refine ⟨digits.dropWhile (· == 0), ?_, ?_⟩
  · have hzeros : digits.takeWhile (· == 0) =
        List.replicate (digits.takeWhile (· == 0)).length 0 :=
      List.eq_replicate_of_mem fun d hd =>
        eq_of_beq (List.mem_takeWhile_imp (p := fun d => d == 0) hd)
    rw [← hzeros, List.takeWhile_append_dropWhile]
  · cases hrest : digits.dropWhile (· == 0) with
    | nil => exact fun h => by cases h
    | cons d rest =>
        have hd := List.head?_dropWhile_not (· == 0) digits
        rw [hrest] at hd
        intro h
        cases h
        simp at hd

theorem digits_number (hbase : 1 < base) {digits : List Nat} (hlt : ∀ d ∈ digits, d < base)
    (h : digits.head? ≠ some 0) : (Nat.digits base (number base digits)).reverse = digits := by
  rw [number, Nat.digits_ofDigits base hbase _ fun d hd => hlt d (List.mem_reverse.mp hd)]
  · exact List.reverse_reverse digits
  · intro hne hlast
    refine h ?_
    rw [← List.getLast?_reverse, List.getLast?_eq_getLast_of_ne_nil hne, hlast]

/-- Written in another base and back, digits are themselves. -/
theorem convert_convert (hbase : 1 < base) {digits : List Nat} (hlt : ∀ d ∈ digits, d < base) :
    convert base' base (convert base base' digits) = digits := by
  obtain ⟨rest, hdigits, hrest⟩ := exists_zeros digits
  have hback : (Nat.digits base (number base digits)).reverse = rest := by
    rw [hdigits, number_zeros]
    refine digits_number hbase (fun d hd => hlt d ?_) hrest
    rw [hdigits]
    exact List.mem_append_right _ hd
  rw [convert, convert, takeWhile_zeros _ (head_reverse_digits _), List.length_replicate,
    number_zeros, number_reverse_digits, hback, ← hdigits]

theorem convert_lt (hbase : 1 < base') {digits : List Nat} :
    ∀ d ∈ convert base base' digits, d < base' := by
  intro d hd
  rcases List.mem_append.mp hd with hd | hd
  · rw [List.eq_of_mem_replicate hd]
    omega
  · exact Nat.digits_lt_base hbase (List.mem_reverse.mp hd)

/-! ## How many digits, and the first of them -/

theorem number_append (front behind : List Nat) :
    number base (front ++ behind) =
      number base behind + base ^ behind.length * number base front := by
  rw [number, List.reverse_append, Nat.ofDigits_append, List.length_reverse]
  rfl

theorem number_lt (hbase : 1 < base) {digits : List Nat} (hlt : ∀ d ∈ digits, d < base) :
    number base digits < base ^ digits.length := by
  have := Nat.ofDigits_lt_base_pow_length hbase (l := digits.reverse)
    fun d hd => hlt d (List.mem_reverse.mp hd)
  rwa [List.length_reverse] at this

theorem convert_of_head {digits : List Nat} (h : digits.head? ≠ some 0) :
    convert base base' digits = (Nat.digits base' (number base digits)).reverse := by
  have hnone := takeWhile_zeros 0 h
  rw [List.replicate_zero, List.nil_append] at hnone
  rw [convert, hnone]
  rfl

theorem length_reverse_digits (hbase : 1 < base) {n k : Nat} (hge : base ^ k ≤ n)
    (hlt : n < base ^ (k + 1)) : (Nat.digits base n).reverse.length = k + 1 := by
  rw [List.length_reverse]
  have hle := (Nat.digits_length_le_iff hbase (k := k + 1) n).mpr hlt
  have hgt := (Nat.lt_digits_length_iff hbase (k := k) n).mpr hge
  omega

/-- The two digits in front, of `k + 2`. -/
theorem reverse_digits_two (hbase : 1 < base) {n : Nat} (k first second : Nat)
    (hfirst : 0 < first) (hlt : first < base) (hsecond : second < base)
    (hn : n / base ^ k = first * base + second) :
    ∃ rest, (Nat.digits base n).reverse = first :: second :: rest ∧ rest.length = k := by
  have hpos : 0 < base := by omega
  have hpow : 0 < base ^ k := Nat.pow_pos hpos
  have hge : base ^ (k + 1) ≤ n := by
    have hdiv : base ≤ n / base ^ k := by
      rw [hn]
      exact Nat.le_trans (Nat.le_mul_of_pos_left base hfirst) (Nat.le_add_right _ _)
    rw [Nat.pow_succ, Nat.mul_comm]
    exact (Nat.le_div_iff_mul_le hpow).mp hdiv
  have hless : n < base ^ (k + 1 + 1) := by
    have hdiv : n / base ^ k < base * base := by
      rw [hn]
      calc first * base + second < first * base + base := by omega
        _ = (first + 1) * base := by rw [Nat.succ_mul]
        _ ≤ base * base := Nat.mul_le_mul_right base hlt
    have := (Nat.div_lt_iff_lt_mul hpow).mp hdiv
    rw [Nat.pow_succ, Nat.pow_succ]
    calc n < base * base * base ^ k := this
      _ = base ^ k * base * base := by rw [Nat.mul_comm, Nat.mul_assoc]
  have hlength := length_reverse_digits hbase hge hless
  have hat : ∀ i, (Nat.digits base n).reverse.reverse.getD i 0 = n / base ^ i % base := by
    intro i
    rw [List.reverse_reverse]
    exact Nat.getD_digits n i hbase
  match hlist : (Nat.digits base n).reverse, hlength with
  | a :: b :: rest, hlength =>
      have hrest : rest.length = k := by
        simp only [List.length_cons] at hlength
        omega
      have ha := hat (k + 1)
      have hb := hat k
      rw [hlist, List.reverse_cons, List.reverse_cons] at ha hb
      rw [List.getD_append_right _ _ _ _ (by simp [hrest]), Nat.pow_succ, ← Nat.div_div_eq_div_mul,
        hn] at ha
      rw [List.append_assoc, List.getD_append_right _ _ _ _ (by simp [hrest]), hn] at hb
      simp only [List.length_append, List.length_reverse, hrest, List.length_singleton,
        Nat.sub_self, List.getD_cons_zero, List.singleton_append] at ha hb
      rw [Nat.mul_comm, Nat.mul_add_div hpos, Nat.div_eq_of_lt hsecond, Nat.add_zero,
        Nat.mod_eq_of_lt hlt] at ha
      rw [Nat.mul_comm, Nat.mul_add_mod, Nat.mod_eq_of_lt hsecond] at hb
      exact ⟨rest, by rw [ha, hb], hrest⟩

end

/-! ## Letters -/

def alphabet : JsString :=
  Json.lit "123456789ABCDEFGHJKLMNPQRSTUVWXYZabcdefghijkmnopqrstuvwxyz"

def letter (digit : Nat) : UInt16 := alphabet.getD digit 0

def value? (u : UInt16) : Option Nat :=
  if u ∈ alphabet then some (alphabet.idxOf u) else none

def encode (bytes : List UInt8) : JsString :=
  (convert 256 58 (bytes.map UInt8.toNat)).map letter

/-- Nothing where a character is no letter. -/
def decode (text : JsString) : Option (List UInt8) :=
  (text.mapM value?).map fun digits => (convert 58 256 digits).map UInt8.ofNat

theorem length_alphabet : alphabet.length = 58 := by decide

theorem letter_mem {digit : Nat} (h : digit < 58) : letter digit ∈ alphabet := by
  rw [← length_alphabet] at h
  rw [letter, List.getD_eq_getElem _ _ h]
  exact List.getElem_mem h

theorem value_letter {digit : Nat} (h : digit < 58) : value? (letter digit) = some digit := by
  have hlt : digit < alphabet.length := by rwa [length_alphabet]
  rw [value?, if_pos (letter_mem h), letter, List.getD_eq_getElem _ _ hlt,
    (by decide : alphabet.Nodup).idxOf_getElem]

theorem digits_lt (bytes : List UInt8) : ∀ d ∈ bytes.map UInt8.toNat, d < 256 := by
  intro d hd
  obtain ⟨b, -, rfl⟩ := List.mem_map.mp hd
  exact b.toNat_lt

theorem values_letters {digits : List Nat} (h : ∀ d ∈ digits, d < 58) :
    (digits.map letter).mapM value? = some digits := by
  induction digits with
  | nil => rfl
  | cons d rest ih =>
      rw [List.map_cons, List.mapM_cons, value_letter (h d List.mem_cons_self),
        ih fun d hd => h d (List.mem_cons_of_mem _ hd)]
      rfl

theorem decode_encode (bytes : List UInt8) : decode (encode bytes) = some bytes := by
  rw [decode, encode, values_letters (convert_lt (by decide)), Option.map_some,
    convert_convert (by decide) (digits_lt bytes), List.map_map]
  exact congrArg some (List.map_id'' (fun _ => UInt8.ofNat_toNat) bytes)

theorem encode_injective {bytes bytes' : List UInt8} (h : encode bytes = encode bytes') :
    bytes = bytes' := by
  rw [← Option.some.injEq, ← decode_encode bytes, h, decode_encode]

theorem letters_encode (bytes : List UInt8) : ∀ u ∈ encode bytes, u ∈ alphabet := by
  intro u hu
  obtain ⟨d, hd, rfl⟩ := List.mem_map.mp hu
  exact letter_mem (convert_lt (by decide) d hd)

/-- Bytes behind two given ones: a number that begins with them. -/
theorem number_two (first second : UInt8) (rest : List UInt8) :
    number 256 ((first :: second :: rest).map UInt8.toNat) =
      number 256 (rest.map UInt8.toNat) +
        256 ^ rest.length * (first.toNat * 256 + second.toNat) := by
  rw [show (first :: second :: rest).map UInt8.toNat =
    [first.toNat, second.toNat] ++ rest.map UInt8.toNat from rfl, number_append, List.length_map,
    number, number]
  simp [Nat.ofDigits_cons, Nat.add_comm, Nat.mul_comm]

theorem number_rest_lt (rest : List UInt8) :
    number 256 (rest.map UInt8.toNat) < 256 ^ rest.length := by
  have := number_lt (by decide) (digits_lt rest)
  rwa [List.length_map] at this

theorem marked_div {n : Nat} (h : n < 256 ^ 32) :
    (n + 256 ^ 32 * (18 * 256 + 32)) / 58 ^ 44 = 23 * 58 + 44 := by
  have hlow : (23 * 58 + 44) * 58 ^ 44 ≤ 256 ^ 32 * (18 * 256 + 32) := by decide
  have hhigh : 256 ^ 32 + 256 ^ 32 * (18 * 256 + 32) ≤ (23 * 58 + 44 + 1) * 58 ^ 44 := by decide
  -- what the powers are plays no part any more, and writing them out would take long
  generalize 256 ^ 32 = bytes at *
  generalize 58 ^ 44 = letters at *
  exact Nat.div_eq_of_lt_le (by omega) (by omega)

/-- A hash of 32 bytes behind its marks: two letters that are always the same, and 44. -/
theorem encode_multihash {digest : List UInt8} (h : digest.length = 32) :
    ∃ rest, encode (0x12 :: 0x20 :: digest) = Json.lit "Qm" ++ rest ∧ rest.length = 44 := by
  have hlt := number_rest_lt digest
  have hn := number_two 0x12 0x20 digest
  rw [h] at hlt hn
  have hbase : 1 < 58 := by decide
  have hfirst : 23 < 58 := by decide
  have hsecond : 44 < 58 := by decide
  obtain ⟨rest, hrest, hlength⟩ := reverse_digits_two hbase 44 23 44 (by decide) hfirst hsecond
    (n := number 256 ((0x12 :: 0x20 :: digest).map UInt8.toNat)) (by
      rw [hn]
      exact marked_div hlt)
  refine ⟨rest.map letter, ?_, by rw [List.length_map, hlength]⟩
  rw [encode, convert_of_head (by simp), hrest]
  rfl

/-- Four bytes or more, no zero in front, are six letters or more. -/
theorem six_le_length_encode {first : UInt8} {rest : List UInt8} (hfirst : 0x80 ≤ first)
    (h : 3 ≤ rest.length) : 6 ≤ (encode (first :: rest)).length := by
  have hbyte : 128 ≤ first.toNat := hfirst
  have hne : ((first :: rest).map UInt8.toNat).head? ≠ some 0 := by
    intro hzero
    have : first.toNat = 0 := Option.some.inj hzero
    omega
  have hnumber : number 256 ((first :: rest).map UInt8.toNat) =
      number 256 (rest.map UInt8.toNat) + 256 ^ rest.length * first.toNat := by
    rw [show (first :: rest).map UInt8.toNat = [first.toNat] ++ rest.map UInt8.toNat from rfl,
      number_append, List.length_map, number, number]
    simp
  have hpow : 256 ^ 3 ≤ 256 ^ rest.length := Nat.pow_le_pow_right (by decide) h
  have hge : 58 ^ 5 ≤ number 256 ((first :: rest).map UInt8.toNat) := by
    have := Nat.mul_le_mul hpow hbyte
    rw [hnumber]
    norm_num at this ⊢
    omega
  rw [encode, List.length_map, convert_of_head hne, List.length_reverse]
  exact (Nat.lt_digits_length_iff (by decide) (k := 5) _).mpr hge

end Base58
