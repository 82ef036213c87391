import Mathlib.Data.List.Basic
import Estoc.Lib.Json

/-!
# Base 32

Bytes as letters of five bits each (RFC 4648, lower case, no padding): the bits of
the bytes in order, the last letter filled up with zeros. Reading drops what is left
over behind the last whole byte, so only a text that is written the same again is the
text of its bytes.
-/

set_option linter.unusedSectionVars false

open Utf16 (JsString)

namespace Base32

/-- A number's bits, most significant first. -/
def bitsOf (width n : Nat) : List Bool := (List.range width).map fun i => n.testBit (width - 1 - i)

/-- The number some bits are. -/
def ofBits (bits : List Bool) : Nat := bits.foldl (fun n b => n * 2 + b.toNat) 0

def byteBits (bytes : List UInt8) : List Bool := bytes.flatMap fun b => bitsOf 8 b.toNat

/-- Five bits each, the last filled up with zeros. -/
def letters : List Bool → List Nat
  | a :: b :: c :: d :: e :: rest => ofBits [a, b, c, d, e] :: letters rest
  | [a, b, c, d] => [ofBits [a, b, c, d, false]]
  | [a, b, c] => [ofBits [a, b, c, false, false]]
  | [a, b] => [ofBits [a, b, false, false, false]]
  | [a] => [ofBits [a, false, false, false, false]]
  | [] => []

/-- Eight bits each, what is left over dropped. -/
def octets : List Bool → List UInt8
  | a :: b :: c :: d :: e :: f :: g :: h :: rest =>
    UInt8.ofNat (ofBits [a, b, c, d, e, f, g, h]) :: octets rest
  | _ => []

def alphabet : JsString := Json.lit "abcdefghijklmnopqrstuvwxyz234567"

def encode (bytes : List UInt8) : JsString :=
  (letters (byteBits bytes)).map fun n => alphabet.getD n 0

/-- The five bits of each letter; `none` where one is not of the alphabet. -/
def letterBits : JsString → Option (List Bool)
  | [] => some []
  | u :: rest =>
    if alphabet.idxOf u < 32 then (letterBits rest).map fun bits => bitsOf 5 (alphabet.idxOf u) ++ bits
    else none

def decode (text : JsString) : Option (List UInt8) := (letterBits text).map octets

theorem octet_bits : ∀ n < 256, ofBits (bitsOf 8 n) = n := by decide +kernel

theorem letter_bits : ∀ a b c d e : Bool, ofBits [a, b, c, d, e] < 32 ∧
    bitsOf 5 (ofBits [a, b, c, d, e]) = [a, b, c, d, e] := by decide

theorem alphabet_idxOf : ∀ n < 32, alphabet.idxOf (alphabet.getD n 0) = n := by decide

theorem letterBits_cons (a b c d e : Bool) (rest : JsString) :
    letterBits (alphabet.getD (ofBits [a, b, c, d, e]) 0 :: rest) =
      (letterBits rest).map fun bits => [a, b, c, d, e] ++ bits := by
  obtain ⟨hlt, hbits⟩ := letter_bits a b c d e
  rw [letterBits, alphabet_idxOf _ hlt, if_pos hlt, hbits]

/-- The bits come back, with less than a letter of zeros behind them. -/
theorem letterBits_letters : ∀ bits : List Bool, ∃ fill, fill.length < 5 ∧
    letterBits ((letters bits).map fun n => alphabet.getD n 0) = some (bits ++ fill)
  | a :: b :: c :: d :: e :: rest => by
      obtain ⟨fill, hfill, h⟩ := letterBits_letters rest
      refine ⟨fill, hfill, ?_⟩
      rw [letters, List.map_cons, letterBits_cons, h]
      rfl
  | [a, b, c, d] => ⟨[false], by decide, by rw [letters, List.map_cons, letterBits_cons]; rfl⟩
  | [a, b, c] => ⟨[false, false], by decide, by rw [letters, List.map_cons, letterBits_cons]; rfl⟩
  | [a, b] => ⟨[false, false, false], by decide, by
      rw [letters, List.map_cons, letterBits_cons]; rfl⟩
  | [a] => ⟨[false, false, false, false], by decide, by
      rw [letters, List.map_cons, letterBits_cons]; rfl⟩
  | [] => ⟨[], by decide, rfl⟩

theorem octets_of_short {bits : List Bool} (h : bits.length < 8) : octets bits = [] := by
  unfold octets
  split
  · simp at h
    omega
  · rfl

theorem octets_byteBits (bytes : List UInt8) {fill : List Bool} (h : fill.length < 8) :
    octets (byteBits bytes ++ fill) = bytes := by
  induction bytes with
  | nil => exact octets_of_short h
  | cons b bytes ih =>
      have hb := octet_bits b.toNat b.toNat_lt
      rw [byteBits, List.flatMap_cons, List.append_assoc]
      show octets (bitsOf 8 b.toNat ++ (byteBits bytes ++ fill)) = _
      have hcons : ∀ rest, octets (bitsOf 8 b.toNat ++ rest) =
          UInt8.ofNat (ofBits (bitsOf 8 b.toNat)) :: octets rest := fun rest => rfl
      rw [hcons, hb, UInt8.ofNat_toNat, ih]

/-- Reading takes back what was written. -/
theorem decode_encode (bytes : List UInt8) : decode (encode bytes) = some bytes := by
  obtain ⟨fill, hfill, h⟩ := letterBits_letters (byteBits bytes)
  rw [decode, encode, h, Option.map_some, octets_byteBits bytes (by omega)]

/-- What is written is made of the letters of the alphabet. -/
theorem mem_alphabet_of_mem_encode {bytes : List UInt8} {u : UInt16} (h : u ∈ encode bytes) :
    u ∈ alphabet := by
  have hlt : ∀ bits : List Bool, ∀ n ∈ letters bits, n < 32 := by
    intro bits
    induction bits using letters.induct with
    | case1 a b c d e rest ih =>
        rw [letters]
        exact List.forall_mem_cons.mpr ⟨(letter_bits a b c d e).1, ih⟩
    | case2 a b c d => simpa [letters] using (letter_bits a b c d false).1
    | case3 a b c => simpa [letters] using (letter_bits a b c false false).1
    | case4 a b => simpa [letters] using (letter_bits a b false false false).1
    | case5 a => simpa [letters] using (letter_bits a false false false false).1
    | case6 => intro n hn; cases hn
  obtain ⟨n, hn, rfl⟩ := List.mem_map.mp h
  have hlen : n < alphabet.length := lt_of_lt_of_eq (hlt _ n hn) (by decide)
  rw [List.getD_eq_getElem?_getD, List.getElem?_eq_getElem hlen, Option.getD_some]
  exact List.getElem_mem hlen

end Base32
