import Estoc.Lib.Base64
import Estoc.Wire.Values

/-!
# Bytes on a text port

How bytes cross a text port: standard padded base64, in a record that says so. It is strict: the
bits that a padded last group leaves unused are zero, so that every array of bytes has one text
and no other text is of any.
-/

set_option linter.unusedSectionVars false

namespace Estoc.Wire

open Json (lit)
open Utf16 (JsString)
open Base64 (pad sextets)

def isLetter (u : UInt16) : Bool := Base64.standard.letters.contains u

/-- Letters in groups of four, the last of them padded or not. -/
def isBase64 : JsString → Bool
  | a :: b :: c :: d :: rest =>
    isLetter a && isLetter b &&
      (isLetter c && isLetter d && isBase64 rest ||
        rest.isEmpty && d == pad && (isLetter c || c == pad))
  | text => text.isEmpty

/-- The decoded length of strict padded base64, known before decoding. -/
def base64Length (text : JsString) : Option Nat :=
  if isBase64 text = false then none
  else
    let padding := if [pad, pad] <:+ text then 2 else if [pad] <:+ text then 1 else 0
    let last := Base64.standard.letters.idxOf (text.getD (text.length - 1 - padding) 0)
    if 0 < padding ∧ last &&& (if padding = 2 then 15 else 3) ≠ 0 then none
    else some (text.length / 4 * 3 - padding)

/-- A text decoded, where it is strict padded base64. -/
def fromBase64 (text : JsString) : Option (List UInt8) :=
  if base64Length text = none then none else Base64.standard.decodePadded text

def toBase64 (bytes : List UInt8) : JsString := Base64.standard.encodePadded bytes

/-! ## What is written -/

theorem isLetter_letter {n : Nat} (h : n < 64) : isLetter (Base64.standard.letter n) = true :=
  List.contains_iff_mem.mpr (Base64.Alphabet.letter_mem h)

theorem toBase64_triple (a b c : UInt8) (rest : List UInt8) :
    toBase64 (a :: b :: c :: rest) =
      Base64.standard.letter (a.toNat / 4) ::
      Base64.standard.letter (a.toNat % 4 * 16 + b.toNat / 16) ::
      Base64.standard.letter (b.toNat % 16 * 4 + c.toNat / 64) ::
      Base64.standard.letter (c.toNat % 64) :: toBase64 rest := by
  simp only [toBase64, Base64.Alphabet.encodePadded, Base64.Alphabet.encode, sextets, List.map_cons,
    List.length_cons, List.cons_append]
  congr 6
  omega

theorem isBase64_toBase64 (bytes : List UInt8) : isBase64 (toBase64 bytes) = true := by
  induction bytes using Base64.sextets.induct with
  | case1 a b c rest ih =>
      have ha := a.toNat_lt
      have hb := b.toNat_lt
      have hc := c.toNat_lt
      rw [toBase64_triple, isBase64, isLetter_letter (by omega), isLetter_letter (by omega),
        isLetter_letter (by omega), isLetter_letter (by omega), ih]
      rfl
  | case2 a b =>
      have ha := a.toNat_lt
      have hb := b.toNat_lt
      show isBase64 [Base64.standard.letter (a.toNat / 4),
        Base64.standard.letter (a.toNat % 4 * 16 + b.toNat / 16),
        Base64.standard.letter (b.toNat % 16 * 4), pad] = true
      rw [isBase64, isLetter_letter (by omega), isLetter_letter (by omega),
        isLetter_letter (n := b.toNat % 16 * 4) (by omega)]
      simp
  | case3 a =>
      have ha := a.toNat_lt
      show isBase64 [Base64.standard.letter (a.toNat / 4),
        Base64.standard.letter (a.toNat % 4 * 16), pad, pad] = true
      rw [isBase64, isLetter_letter (by omega), isLetter_letter (by omega)]
      simp
  | case4 => rfl

/-- A text of base64: its letters, the pads behind them, and the number of the last letter, whose
unused bits are zero. -/
structure Padded (bytes : List UInt8) (letters : JsString) (padding : Nat) : Prop where
  text : toBase64 bytes = letters ++ List.replicate padding pad
  few : padding ≤ 2
  unpadded : pad ∉ letters
  room : padding ≤ (letters.length + padding) / 4 * 3
  size : (letters.length + padding) / 4 * 3 - padding = bytes.length
  last : 0 < padding → ∃ init n, letters = init ++ [Base64.standard.letter n] ∧ n < 64 ∧
    n &&& (if padding = 2 then 15 else 3) = 0

/-- One more group holds three more bytes. -/
theorem size_of_group {length padding size : Nat} (hroom : padding ≤ (length + padding) / 4 * 3)
    (hsize : (length + padding) / 4 * 3 - padding = size) :
    padding ≤ (length + 4 + padding) / 4 * 3 ∧
      (length + 4 + padding) / 4 * 3 - padding = size + 3 := by omega

theorem letter_ne_pad {n : Nat} (h : n < 64) : pad ≠ Base64.standard.letter n :=
  fun hpad => Base64.standard.unpadded (hpad ▸ Base64.Alphabet.letter_mem h)

theorem exists_padded (bytes : List UInt8) : ∃ letters padding, Padded bytes letters padding := by
  induction bytes using Base64.sextets.induct with
  | case1 a b c rest ih =>
      have ha := a.toNat_lt
      have hb := b.toNat_lt
      have hc := c.toNat_lt
      obtain ⟨letters, padding, htext, hfew, hunpadded, hroom, hsize, hlast⟩ := ih
      refine ⟨Base64.standard.letter (a.toNat / 4) ::
        Base64.standard.letter (a.toNat % 4 * 16 + b.toNat / 16) ::
        Base64.standard.letter (b.toNat % 16 * 4 + c.toNat / 64) ::
        Base64.standard.letter (c.toNat % 64) :: letters, padding, ?_, hfew, ?_, ?_, ?_, ?_⟩
      · rw [toBase64_triple, htext]
        rfl
      · simp only [List.mem_cons, not_or]
        exact ⟨letter_ne_pad (by omega), letter_ne_pad (by omega), letter_ne_pad (by omega),
          letter_ne_pad (by omega), hunpadded⟩
      · exact (size_of_group hroom hsize).1
      · exact (size_of_group hroom hsize).2
      · intro hpos
        obtain ⟨init, n, rfl, hn⟩ := hlast hpos
        exact ⟨_ :: _ :: _ :: _ :: init, n, rfl, hn⟩
  | case2 a b =>
      have ha := a.toNat_lt
      have hb := b.toNat_lt
      refine ⟨[Base64.standard.letter (a.toNat / 4),
        Base64.standard.letter (a.toNat % 4 * 16 + b.toNat / 16),
        Base64.standard.letter (b.toNat % 16 * 4)], 1, rfl, by omega, ?_, by simp, by simp, fun _ => ?_⟩
      · simp only [List.mem_cons, List.not_mem_nil, or_false, not_or]
        exact ⟨letter_ne_pad (by omega), letter_ne_pad (by omega), letter_ne_pad (by omega)⟩
      · refine ⟨[_, _], _, rfl, by omega, ?_⟩
        rw [if_neg (by omega), Nat.and_two_pow_sub_one_eq_mod _ 2]
        omega
  | case3 a =>
      have ha := a.toNat_lt
      refine ⟨[Base64.standard.letter (a.toNat / 4), Base64.standard.letter (a.toNat % 4 * 16)], 2,
        rfl, by omega, ?_, by simp, by simp, fun _ => ?_⟩
      · simp only [List.mem_cons, List.not_mem_nil, or_false, not_or]
        exact ⟨letter_ne_pad (by omega), letter_ne_pad (by omega)⟩
      · refine ⟨[_], _, rfl, by omega, ?_⟩
        rw [if_pos rfl, Nat.and_two_pow_sub_one_eq_mod _ 4]
        omega
  | case4 => exact ⟨[], 0, rfl, by omega, by simp, by simp, by simp, fun h => by omega⟩

/-- The length of bytes is read off their text. -/
theorem base64Length_toBase64 (bytes : List UInt8) :
    base64Length (toBase64 bytes) = some bytes.length := by
  obtain ⟨letters, padding, htext, hfew, hunpadded, -, hsize, hlast⟩ := exists_padded bytes
  have htwo : [pad, pad] <:+ letters ++ List.replicate padding pad ↔ padding = 2 := by
    constructor
    · rintro ⟨front, hfront⟩
      by_contra hne
      have hmem : pad ∈ letters := by
        obtain rfl | rfl : padding = 0 ∨ padding = 1 := by omega
        · rw [List.replicate_zero, List.append_nil] at hfront
          rw [← hfront]
          simp
        · have hcut : front ++ [pad] = letters := by
            refine (List.append_left_inj [pad]).mp ?_
            rw [List.append_assoc]
            exact hfront
          rw [← hcut]
          simp
      exact hunpadded hmem
    · rintro rfl
      exact List.suffix_append letters [pad, pad]
  have hone : [pad] <:+ letters ++ List.replicate padding pad ↔ 0 < padding := by
    constructor
    · rintro ⟨front, hfront⟩
      by_contra hne
      obtain rfl : padding = 0 := by omega
      rw [List.replicate_zero, List.append_nil] at hfront
      exact hunpadded (hfront ▸ by simp)
    · intro hpos
      obtain ⟨more, rfl⟩ : ∃ more, padding = more + 1 := ⟨padding - 1, by omega⟩
      rw [List.replicate_succ', ← List.append_assoc]
      exact List.suffix_append _ [pad]
  have hpadding : (if [pad, pad] <:+ letters ++ List.replicate padding pad then 2
      else if [pad] <:+ letters ++ List.replicate padding pad then 1 else 0) = padding := by
    rw [ite_congr (propext htwo) (fun _ => rfl) (fun _ => rfl),
      ite_congr (propext hone) (fun _ => rfl) (fun _ => rfl)]
    split <;> [omega; (split <;> omega)]
  rw [base64Length, if_neg (by rw [isBase64_toBase64]; simp), htext]
  simp only [hpadding]
  rw [if_neg, List.length_append, List.length_replicate, hsize]
  rintro ⟨hpos, hunused⟩
  obtain ⟨init, n, rfl, hn, hzero⟩ := hlast hpos
  refine hunused ?_
  have hindex : (init ++ [Base64.standard.letter n] ++ List.replicate padding pad).getD
      ((init ++ [Base64.standard.letter n] ++ List.replicate padding pad).length - 1 - padding) 0 =
        Base64.standard.letter n := by
    rw [show (init ++ [Base64.standard.letter n] ++ List.replicate padding pad).length - 1 - padding =
      init.length by simp]
    simp [List.getD_eq_getElem?_getD]
  rw [hindex, Base64.Alphabet.idxOf_letter hn, hzero]

/-- Strict padded base64 is what bytes are written as, and nothing else. -/
theorem fromBase64_eq_some {text : JsString} {bytes : List UInt8} :
    fromBase64 text = some bytes ↔ text = toBase64 bytes := by
  constructor
  · intro h
    rw [fromBase64] at h
    split at h
    · cases h
    · exact (Base64.Alphabet.encodePadded_of_decodePadded h).symm
  · rintro rfl
    rw [fromBase64, if_neg (by simp [base64Length_toBase64])]
    exact Base64.Alphabet.decodePadded_encodePadded bytes

end Estoc.Wire
