import Mathlib.Data.List.Basic
import Estoc.Lib.Json

/-!
# Base 64

Bytes as letters of six bits each (RFC 4648), over any alphabet of 64 letters: three
bytes are four letters, and what is left over at the end is two letters or three, their
last bits zeros. Reading takes nothing but what is written so: the bits that no byte
uses have to be zeros. The padded form fills the last group of four up.
-/

set_option linter.unusedSectionVars false

open Utf16 (JsString)

namespace Base64

/-- The letters' numbers. -/
def sextets : List UInt8 → List Nat
  | a :: b :: c :: rest =>
    a.toNat / 4 :: (a.toNat % 4 * 16 + b.toNat / 16) :: (b.toNat % 16 * 4 + c.toNat / 64) ::
      c.toNat % 64 :: sextets rest
  | [a, b] => [a.toNat / 4, a.toNat % 4 * 16 + b.toNat / 16, b.toNat % 16 * 4]
  | [a] => [a.toNat / 4, a.toNat % 4 * 16]
  | [] => []

/-- The bytes of letters' numbers, each below 64. -/
def octets : List Nat → Option (List UInt8)
  | w :: x :: y :: z :: rest =>
    (octets rest).map fun bytes => UInt8.ofNat (w * 4 + x / 16) ::
      UInt8.ofNat (x % 16 * 16 + y / 4) :: UInt8.ofNat (y % 4 * 64 + z) :: bytes
  | [w, x, y] =>
    if y % 4 = 0 then some [UInt8.ofNat (w * 4 + x / 16), UInt8.ofNat (x % 16 * 16 + y / 4)]
    else none
  | [w, x] => if x % 16 = 0 then some [UInt8.ofNat (w * 4 + x / 16)] else none
  | [_] => none
  | [] => some []

theorem sextets_lt (bytes : List UInt8) : ∀ n ∈ sextets bytes, n < 64 := by
  induction bytes using sextets.induct with
  | case1 a b c rest ih =>
      have ha := a.toNat_lt
      have hb := b.toNat_lt
      have hc := c.toNat_lt
      simp only [sextets, List.forall_mem_cons]
      exact ⟨by omega, by omega, by omega, by omega, ih⟩
  | case2 a b =>
      have ha := a.toNat_lt
      have hb := b.toNat_lt
      simp only [sextets, List.forall_mem_cons]
      exact ⟨by omega, by omega, by omega, fun _ h => nomatch h⟩
  | case3 a =>
      have ha := a.toNat_lt
      simp only [sextets, List.forall_mem_cons]
      exact ⟨by omega, by omega, fun _ h => nomatch h⟩
  | case4 => exact fun _ h => nomatch h

theorem ofNat_eq {n : Nat} {b : UInt8} (h : n = b.toNat) : UInt8.ofNat n = b := by
  rw [h, UInt8.ofNat_toNat]

theorem octets_sextets (bytes : List UInt8) : octets (sextets bytes) = some bytes := by
  induction bytes using sextets.induct with
  | case1 a b c rest ih =>
      have ha := a.toNat_lt
      have hb := b.toNat_lt
      have hc := c.toNat_lt
      rw [sextets, octets, ih, Option.map_some, ofNat_eq (b := a) (by omega),
        ofNat_eq (b := b) (by omega), ofNat_eq (b := c) (by omega)]
  | case2 a b =>
      have ha := a.toNat_lt
      have hb := b.toNat_lt
      rw [sextets, octets, if_pos (by omega), ofNat_eq (b := a) (by omega),
        ofNat_eq (b := b) (by omega)]
  | case3 a =>
      have ha := a.toNat_lt
      rw [sextets, octets, if_pos (by omega), ofNat_eq (b := a) (by omega)]
  | case4 => rfl

theorem toNat_ofNat {n : Nat} (h : n < 256) : (UInt8.ofNat n).toNat = n := by
  rw [UInt8.toNat_ofNat']
  exact Nat.mod_eq_of_lt h

/-- Numbers that were read are those that are written for what they were read as. -/
theorem sextets_of_octets {numbers : List Nat} (hlt : ∀ n ∈ numbers, n < 64)
    {bytes : List UInt8} (h : octets numbers = some bytes) : sextets bytes = numbers := by
  induction numbers using octets.induct generalizing bytes with
  | case1 w x y z rest ih =>
      simp only [List.forall_mem_cons] at hlt
      obtain ⟨hw, hx, hy, hz, hrest⟩ := hlt
      obtain ⟨others, hothers, rfl⟩ := Option.map_eq_some_iff.mp h
      rw [sextets, ih hrest hothers, toNat_ofNat (by omega), toNat_ofNat (by omega),
        toNat_ofNat (by omega)]
      simp only [List.cons.injEq, and_true]
      omega
  | case2 w x y hzero =>
      simp only [List.forall_mem_cons] at hlt
      obtain ⟨hw, hx, hy, _⟩ := hlt
      rw [octets, if_pos hzero] at h
      cases h
      rw [sextets, toNat_ofNat (by omega), toNat_ofNat (by omega)]
      simp only [List.cons.injEq, and_true]
      omega
  | case3 w x y hzero =>
      rw [octets, if_neg hzero] at h
      cases h
  | case4 w x hzero =>
      simp only [List.forall_mem_cons] at hlt
      obtain ⟨hw, hx, _⟩ := hlt
      rw [octets, if_pos hzero] at h
      cases h
      rw [sextets, toNat_ofNat (by omega)]
      simp only [List.cons.injEq, and_true]
      omega
  | case5 w x hzero =>
      rw [octets, if_neg hzero] at h
      cases h
  | case6 => cases h
  | case7 => cases h; rfl

/-! ## Letters -/

def pad : UInt16 := 0x3D

/-- Sixty-four letters, none of them twice and none of them the pad. -/
structure Alphabet where
  letters : JsString
  size : letters.length = 64
  nodup : letters.Nodup
  unpadded : pad ∉ letters

def standard : Alphabet where
  letters := Json.lit "ABCDEFGHIJKLMNOPQRSTUVWXYZabcdefghijklmnopqrstuvwxyz0123456789+/"
  size := by decide
  nodup := by decide
  unpadded := by decide

/-- The alphabet for addresses and file names. -/
def url : Alphabet where
  letters := Json.lit "ABCDEFGHIJKLMNOPQRSTUVWXYZabcdefghijklmnopqrstuvwxyz0123456789-_"
  size := by decide
  nodup := by decide
  unpadded := by decide

namespace Alphabet

variable (A : Alphabet)

def letter (n : Nat) : UInt16 := A.letters.getD n 0

/-- The numbers of letters; `none` where one is not of the alphabet. -/
def numbers : JsString → Option (List Nat)
  | [] => some []
  | u :: rest =>
    if A.letters.idxOf u < 64 then (numbers rest).map (A.letters.idxOf u :: ·) else none

def encode (bytes : List UInt8) : JsString := (sextets bytes).map A.letter

def decode (text : JsString) : Option (List UInt8) := (A.numbers text).bind octets

/-- The form whose letters come in fours. -/
def encodePadded (bytes : List UInt8) : JsString :=
  let text := A.encode bytes
  text ++ List.replicate ((4 - text.length % 4) % 4) pad

/-- What is in front of the pads. -/
def unpad (text : JsString) : JsString := (text.reverse.dropWhile (· == pad)).reverse

def decodePadded (text : JsString) : Option (List UInt8) :=
  if text.length % 4 = 0 ∧ text.length < (unpad text).length + 4 then A.decode (unpad text)
  else none

variable {A}

theorem idxOf_letter {n : Nat} (h : n < 64) : A.letters.idxOf (A.letter n) = n := by
  have hlen : n < A.letters.length := A.size ▸ h
  rw [letter, List.getD_eq_getElem?_getD, List.getElem?_eq_getElem hlen, Option.getD_some]
  exact A.nodup.idxOf_getElem n hlen

theorem letter_idxOf {u : UInt16} (h : A.letters.idxOf u < 64) : A.letter (A.letters.idxOf u) = u := by
  have hlen : A.letters.idxOf u < A.letters.length := A.size ▸ h
  rw [letter, List.getD_eq_getElem?_getD, List.getElem?_eq_getElem hlen, Option.getD_some]
  exact List.getElem_idxOf hlen

theorem letter_mem {n : Nat} (h : n < 64) : A.letter n ∈ A.letters := by
  have hlen : n < A.letters.length := A.size ▸ h
  rw [letter, List.getD_eq_getElem?_getD, List.getElem?_eq_getElem hlen, Option.getD_some]
  exact List.getElem_mem hlen

theorem numbers_map {ns : List Nat} (h : ∀ n ∈ ns, n < 64) :
    A.numbers (ns.map A.letter) = some ns := by
  induction ns with
  | nil => rfl
  | cons n ns ih =>
      obtain ⟨hn, hns⟩ := List.forall_mem_cons.mp h
      rw [List.map_cons, numbers, idxOf_letter hn, if_pos hn, ih hns, Option.map_some]

theorem map_of_numbers {text : JsString} {ns : List Nat} (h : A.numbers text = some ns) :
    text = ns.map A.letter ∧ ∀ n ∈ ns, n < 64 := by
  induction text generalizing ns with
  | nil => cases h; exact ⟨rfl, fun _ hn => nomatch hn⟩
  | cons u text ih =>
      rw [numbers] at h
      split at h
      · next hu =>
        obtain ⟨rest, hrest, rfl⟩ := Option.map_eq_some_iff.mp h
        obtain ⟨rfl, hlt⟩ := ih hrest
        exact ⟨by rw [List.map_cons, letter_idxOf hu], List.forall_mem_cons.mpr ⟨hu, hlt⟩⟩
      · cases h

/-- Reading takes back what was written. -/
theorem decode_encode (bytes : List UInt8) : A.decode (A.encode bytes) = some bytes := by
  rw [decode, encode, numbers_map (sextets_lt bytes), Option.bind_some, octets_sextets]

/-- Nothing else is read. -/
theorem encode_of_decode {text : JsString} {bytes : List UInt8} (h : A.decode text = some bytes) :
    A.encode bytes = text := by
  obtain ⟨ns, hns, hoctets⟩ := Option.bind_eq_some_iff.mp h
  obtain ⟨rfl, hlt⟩ := map_of_numbers hns
  rw [encode, sextets_of_octets hlt hoctets]

theorem letter_of_mem_encode {bytes : List UInt8} {u : UInt16} (h : u ∈ A.encode bytes) :
    u ∈ A.letters := by
  obtain ⟨n, hn, rfl⟩ := List.mem_map.mp h
  exact letter_mem (sextets_lt bytes n hn)

theorem pad_notMem_encode (bytes : List UInt8) : pad ∉ A.encode bytes :=
  fun h => A.unpadded (letter_of_mem_encode h)

/-! ## Padding -/

theorem unpad_append {text : JsString} (h : pad ∉ text) (n : Nat) :
    unpad (text ++ List.replicate n pad) = text := by
  have hdrop : ∀ n, (List.replicate n pad ++ text.reverse).dropWhile (· == pad) =
      text.reverse := by
    intro n
    induction n with
    | zero =>
        rw [List.replicate_zero, List.nil_append]
        cases hr : text.reverse with
        | nil => rfl
        | cons u rest =>
            have hu : u ∈ text := by
              rw [← List.mem_reverse, hr]
              exact List.mem_cons_self
            rw [List.dropWhile_cons_of_neg]
            simpa using fun e : u = pad => h (e ▸ hu)
    | succ n ih =>
        rw [List.replicate_succ, List.cons_append, List.dropWhile_cons_of_pos (by simp), ih]
  rw [unpad, List.reverse_append, List.reverse_replicate, hdrop, List.reverse_reverse]

theorem append_unpad (text : JsString) :
    text = unpad text ++ List.replicate (text.length - (unpad text).length) pad := by
  have hsplit := List.takeWhile_append_dropWhile (p := (· == pad)) (l := text.reverse)
  have hpads : text.reverse.takeWhile (· == pad) =
      List.replicate (text.reverse.takeWhile (· == pad)).length pad := by
    refine List.eq_replicate_iff.mpr ⟨rfl, fun u hu => ?_⟩
    have hall := List.all_takeWhile (p := (· == pad)) (l := text.reverse)
    exact beq_iff_eq.mp (List.all_eq_true.mp hall u hu)
  have htext : text = unpad text ++ List.replicate (text.reverse.takeWhile (· == pad)).length pad := by
    rw [unpad, ← List.reverse_replicate, ← List.reverse_append, ← hpads, hsplit,
      List.reverse_reverse]
  have hlen := congrArg List.length htext
  rw [List.length_append, List.length_replicate] at hlen
  rw [show text.length - (unpad text).length = (text.reverse.takeWhile (· == pad)).length by omega]
  exact htext

theorem decodePadded_encodePadded (bytes : List UInt8) :
    A.decodePadded (A.encodePadded bytes) = some bytes := by
  rw [decodePadded, encodePadded]
  simp only [unpad_append (pad_notMem_encode bytes), List.length_append, List.length_replicate]
  rw [if_pos (by omega), decode_encode]

theorem encodePadded_of_decodePadded {text : JsString} {bytes : List UInt8}
    (h : A.decodePadded text = some bytes) : A.encodePadded bytes = text := by
  rw [decodePadded] at h
  split at h
  · next hlen =>
    have happend := append_unpad text
    have hle : (unpad text).length ≤ text.length := by
      have := congrArg List.length happend
      rw [List.length_append] at this
      omega
    rw [encodePadded, encode_of_decode h, show (4 - (unpad text).length % 4) % 4 = text.length - (unpad text).length by omega]
    exact happend.symm
  · cases h

end Alphabet

end Base64
