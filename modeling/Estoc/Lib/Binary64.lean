import Mathlib.Data.Nat.Log
import Mathlib.Data.Int.Basic
import Mathlib.Tactic.Ring

/-!
# Numbers of 64 bits

A binary floating point number of 64 bits as its pattern: sign, exponent and
fraction. Only what concerns whole numbers below 2^53 is here: which patterns are
such a number, and which pattern a number has. There is one pattern for each,
save that zero has two.
-/

instance instNeZeroFractions : NeZero (2 ^ 52) := ⟨by decide⟩

@[ext] structure Binary64 where
  negative : Bool
  exponent : Fin 2048
  fraction : Fin (2 ^ 52)
deriving DecidableEq

namespace Binary64

/-- Neither an infinity nor a NaN. -/
def isFinite (x : Binary64) : Bool := x.exponent != 2047

def zero : Binary64 := ⟨false, 0, 0⟩

def negZero : Binary64 := ⟨true, 0, 0⟩

/-- The zero with a sign as the one without; any other pattern as it is. -/
def unsigned (x : Binary64) : Binary64 := if x = negZero then zero else x

@[simp] theorem unsigned_unsigned (x : Binary64) : x.unsigned.unsigned = x.unsigned := by
  by_cases h : x = negZero
  · simp [unsigned, h, zero, negZero]
  · simp [unsigned, h]

theorem isFinite_unsigned {x : Binary64} (h : x.isFinite = true) : x.unsigned.isFinite = true := by
  unfold unsigned
  split
  · rfl
  · exact h

/-- The pattern as a number of 64 bits. -/
def bits (x : Binary64) : Nat :=
  (if x.negative then 2 ^ 63 else 0) + x.exponent.val * 2 ^ 52 + x.fraction.val

/-- The pattern a number of 64 bits is. -/
def ofBits (n : Nat) : Binary64 :=
  ⟨n / 2 ^ 63 % 2 == 1, Fin.ofNat 2048 (n / 2 ^ 52), Fin.ofNat (2 ^ 52) n⟩

theorem ofBits_bits (x : Binary64) : ofBits x.bits = x := by
  have he := x.exponent.isLt
  have hf := x.fraction.isLt
  ext
  · cases h : x.negative
    · simp only [ofBits, bits, h, Bool.false_eq_true, if_false, beq_eq_false_iff_ne, ne_eq]
      omega
    · simp only [ofBits, bits, h, if_true, beq_iff_eq]
      omega
  · simp only [ofBits, bits, Fin.val_ofNat]
    split <;> omega
  · simp only [ofBits, bits, Fin.val_ofNat]
    split <;> omega

/-- The whole number below 2^53 in size that a pattern is. A pattern whose
exponent is in between has a significand of 53 bits of which the last
`1075 - exponent` are behind the point. -/
def safeInteger? (x : Binary64) : Option Int :=
  if x.exponent = 0 ∧ x.fraction = 0 then some 0
  else if x.exponent.val < 1023 ∨ 1075 < x.exponent.val then none
  else
    let significand := 2 ^ 52 + x.fraction.val
    let unit := 2 ^ (1075 - x.exponent.val)
    if significand % unit = 0 then
      some (if x.negative then -(significand / unit : Nat) else (significand / unit : Nat))
    else none

/-- The whole number a pattern is, of any size. -/
def integer? (x : Binary64) : Option Int :=
  if x.exponent.val ≤ 1075 then x.safeInteger?
  else if x.isFinite then
    let n := (2 ^ 52 + x.fraction.val) * 2 ^ (x.exponent.val - 1075)
    some (if x.negative then -(n : Nat) else (n : Nat))
  else none

/-- Both zeros are the same whole number. -/
theorem safeInteger?_unsigned (x : Binary64) : x.unsigned.safeInteger? = x.safeInteger? := by
  unfold unsigned
  split
  · next h =>
    subst h
    rw [safeInteger?, if_pos ⟨rfl, rfl⟩, safeInteger?, if_pos ⟨rfl, rfl⟩]
  · rfl

/-- The pattern of a whole number below 2^53 in size. -/
def ofInt (i : Int) : Binary64 :=
  if i = 0 then zero
  else
    let n := i.natAbs
    ⟨i < 0, Fin.ofNat 2048 (1023 + Nat.log 2 n), Fin.ofNat (2 ^ 52) (n * 2 ^ (52 - Nat.log 2 n))⟩

theorem scaled_range {n : Nat} (h0 : n ≠ 0) (h : n < 2 ^ 53) :
    Nat.log 2 n ≤ 52 ∧ 2 ^ 52 ≤ n * 2 ^ (52 - Nat.log 2 n) ∧
      n * 2 ^ (52 - Nat.log 2 n) < 2 ^ 53 := by
  have hl : Nat.log 2 n ≤ 52 := Nat.lt_succ_iff.mp (Nat.log_lt_of_lt_pow h0 h)
  have hlo := Nat.pow_log_le_self 2 h0
  have hhi := Nat.lt_pow_succ_log_self (by decide : 1 < 2) n
  have hpos : 0 < 2 ^ (52 - Nat.log 2 n) := Nat.pow_pos (by decide)
  refine ⟨hl, ?_, ?_⟩
  · calc 2 ^ 52 = 2 ^ Nat.log 2 n * 2 ^ (52 - Nat.log 2 n) := by rw [← pow_add]; congr 1; omega
      _ ≤ _ := Nat.mul_le_mul_right _ hlo
  · calc n * 2 ^ (52 - Nat.log 2 n) < 2 ^ (Nat.log 2 n + 1) * 2 ^ (52 - Nat.log 2 n) :=
          Nat.mul_lt_mul_of_pos_right hhi hpos
      _ = 2 ^ 53 := by rw [← pow_add]; congr 1; omega

theorem safeInteger?_ofInt {i : Int} (h : i.natAbs < 2 ^ 53) :
    (ofInt i).safeInteger? = some i := by
  by_cases h0 : i = 0
  · subst h0; rfl
  · obtain ⟨hl, hlo, hhi⟩ := scaled_range (by omega : i.natAbs ≠ 0) h
    have hexp : (Fin.ofNat 2048 (1023 + Nat.log 2 i.natAbs)).val = 1023 + Nat.log 2 i.natAbs := by
      rw [Fin.val_ofNat]; omega
    have hfrac : 2 ^ 52 + (Fin.ofNat (2 ^ 52) (i.natAbs * 2 ^ (52 - Nat.log 2 i.natAbs))).val =
        i.natAbs * 2 ^ (52 - Nat.log 2 i.natAbs) := by
      rw [Fin.val_ofNat]; omega
    have hne : Fin.ofNat 2048 (1023 + Nat.log 2 i.natAbs) ≠ 0 := by
      intro h
      rw [h] at hexp
      simp at hexp
      omega
    have hunit : 1075 - (1023 + Nat.log 2 i.natAbs) = 52 - Nat.log 2 i.natAbs := by omega
    rw [ofInt, if_neg h0, safeInteger?, if_neg (fun h => hne h.1), if_neg (by
      show ¬ ((Fin.ofNat 2048 _).val < 1023 ∨ _)
      rw [hexp]; omega)]
    simp only [hexp, hfrac, hunit]
    rw [if_pos (Nat.mul_mod_left _ _), Nat.mul_div_cancel _ (Nat.pow_pos (by decide))]
    congr 1
    by_cases hneg : i < 0
    · simp only [hneg, decide_true, if_true]; omega
    · simp only [hneg, decide_false, Bool.false_eq_true, if_false]; omega

end Binary64
