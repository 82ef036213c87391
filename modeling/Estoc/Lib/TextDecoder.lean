import Estoc.Lib.Utf16

/-!
# Decoding UTF-8 as the platform does

The decoder of the Encoding Standard: bytes that are no UTF-8 become U+FFFD, or with `fatal`
fail, and a byte order mark in front is left out. Where the fatal decoder succeeds, the
lenient one gives the same text.
-/

namespace TextDecoder

open Utf16 (JsString decodeUtf8 encodeUtf8 unitsOf ofChars chars)

/-- A sequence that has begun: what it comes to so far, how many bytes are missing, and
between what the next of them must be. -/
structure Begun where
  point : Nat
  missing : Nat
  lower : Nat
  upper : Nat

/-- What a byte that begins a sequence writes, and what it leaves open. -/
def lead (b : UInt8) : JsString × Option Begun :=
  let n := b.toNat
  if n < 0x80 then ([UInt16.ofNat n], none)
  else if n < 0xC2 then ([0xFFFD], none)
  else if n < 0xE0 then ([], some ⟨n % 0x20, 1, 0x80, 0xBF⟩)
  else if n < 0xF0 then
    ([], some ⟨n % 0x10, 2, if n = 0xE0 then 0xA0 else 0x80, if n = 0xED then 0x9F else 0xBF⟩)
  else if n < 0xF5 then
    ([], some ⟨n % 8, 3, if n = 0xF0 then 0x90 else 0x80, if n = 0xF4 then 0x8F else 0xBF⟩)
  else ([0xFFFD], none)

/-- A byte that does not go on with what has begun begins anew, behind a U+FFFD. -/
def decodeFrom : Option Begun → List UInt8 → JsString
  | none, [] => []
  | some _, [] => [0xFFFD]
  | none, b :: rest => (lead b).1 ++ decodeFrom (lead b).2 rest
  | some begun, b :: rest =>
    if begun.lower ≤ b.toNat ∧ b.toNat ≤ begun.upper then
      let point := begun.point * 64 + b.toNat % 64
      if begun.missing = 1 then unitsOf (Char.ofNat point) ++ decodeFrom none rest
      else decodeFrom (some ⟨point, begun.missing - 1, 0x80, 0xBF⟩) rest
    else 0xFFFD :: ((lead b).1 ++ decodeFrom (lead b).2 rest)

def withoutMark (bytes : List UInt8) : List UInt8 :=
  if bytes.take 3 = [0xEF, 0xBB, 0xBF] then bytes.drop 3 else bytes

def decode (bytes : List UInt8) : JsString := decodeFrom none (withoutMark bytes)

def decodeFatal (bytes : List UInt8) : Option JsString := decodeUtf8 (withoutMark bytes)

/-! ## UTF-8 is taken for what it is -/

/-- A byte between the bounds goes on with what has begun. -/
theorem decodeFrom_next {begun : Begun} {b : UInt8} {rest : List UInt8}
    (hlower : begun.lower ≤ b.toNat) (hupper : b.toNat ≤ begun.upper) (hmore : begun.missing ≠ 1) :
    decodeFrom (some begun) (b :: rest) =
      decodeFrom (some ⟨begun.point * 64 + b.toNat % 64, begun.missing - 1, 0x80, 0xBF⟩) rest := by
  rw [decodeFrom, if_pos ⟨hlower, hupper⟩]
  exact if_neg hmore

theorem decodeFrom_last {begun : Begun} {b : UInt8} {rest : List UInt8} {c : Char}
    (hlower : begun.lower ≤ b.toNat) (hupper : b.toNat ≤ begun.upper) (hlast : begun.missing = 1)
    (hc : begun.point * 64 + b.toNat % 64 = c.toNat) :
    decodeFrom (some begun) (b :: rest) = unitsOf c ++ decodeFrom none rest := by
  rw [decodeFrom, if_pos ⟨hlower, hupper⟩, hc]
  simp only [hlast, if_true, Char.ofNat_toNat]

theorem toNat_byte {n : Nat} (h : n < 256) : (UInt8.ofNat n).toNat = n := by
  simp only [UInt8.toNat_ofNat']
  omega

theorem lead_two {b : UInt8} (h : 0xC2 ≤ b.toNat ∧ b.toNat < 0xE0) :
    lead b = ([], some ⟨b.toNat % 0x20, 1, 0x80, 0xBF⟩) := by
  simp only [lead, show ¬ b.toNat < 0x80 by omega, show ¬ b.toNat < 0xC2 by omega, h.2, if_true,
    if_false]

theorem lead_three {b : UInt8} (h : 0xE0 ≤ b.toNat ∧ b.toNat < 0xF0) :
    lead b = ([], some ⟨b.toNat % 0x10, 2, if b.toNat = 0xE0 then 0xA0 else 0x80,
      if b.toNat = 0xED then 0x9F else 0xBF⟩) := by
  simp only [lead, show ¬ b.toNat < 0x80 by omega, show ¬ b.toNat < 0xC2 by omega,
    show ¬ b.toNat < 0xE0 by omega, h.2, if_true, if_false]

theorem lead_four {b : UInt8} (h : 0xF0 ≤ b.toNat ∧ b.toNat < 0xF5) :
    lead b = ([], some ⟨b.toNat % 8, 3, if b.toNat = 0xF0 then 0x90 else 0x80,
      if b.toNat = 0xF4 then 0x8F else 0xBF⟩) := by
  simp only [lead, show ¬ b.toNat < 0x80 by omega, show ¬ b.toNat < 0xC2 by omega,
    show ¬ b.toNat < 0xE0 by omega, show ¬ b.toNat < 0xF0 by omega, h.2, if_true, if_false]

/-- A byte of a character behind its first. -/
theorem toNat_tail (n : Nat) : (UInt8.ofNat (n % 0x40 + 0x80)).toNat = n % 64 + 0x80 :=
  toNat_byte (by omega)

theorem decodeFrom_char (c : Char) (rest : List UInt8) :
    decodeFrom none (String.utf8EncodeChar c ++ rest) = unitsOf c ++ decodeFrom none rest := by
  have hrange := Utf16.char_range c
  have hval : c.val.toNat = c.toNat := rfl
  unfold String.utf8EncodeChar
  simp only [hval]
  split
  · next hone =>
      rw [List.singleton_append, decodeFrom, lead, toNat_byte (by omega)]
      simp only [show c.toNat < 0x80 by omega, if_true]
      rw [unitsOf, if_pos (by omega)]
  · next hone =>
      split
      · next htwo =>
          have h0 : (UInt8.ofNat (c.toNat / 64 % 0x20 + 0xc0)).toNat = c.toNat / 64 + 0xC0 := by
            rw [toNat_byte (by omega)]
            omega
          simp only [List.cons_append, List.nil_append]
          rw [decodeFrom, lead_two (by omega), h0, List.nil_append]
          have h1 := toNat_tail c.toNat
          exact decodeFrom_last (by dsimp only; omega) (by dsimp only; omega) rfl (by dsimp only; omega)
      · next htwo =>
          split
          · next hthree =>
              have h0 : (UInt8.ofNat (c.toNat / 4096 % 0x10 + 0xe0)).toNat =
                  c.toNat / 4096 + 0xE0 := by
                rw [toNat_byte (by omega)]
                omega
              have h1 := toNat_tail (c.toNat / 64)
              have h2 := toNat_tail c.toNat
              simp only [List.cons_append, List.nil_append]
              rw [decodeFrom, lead_three (by omega), h0, List.nil_append,
                decodeFrom_next (by dsimp only; split <;> omega) (by dsimp only; split <;> omega)
                  (by dsimp only; omega)]
              exact decodeFrom_last (by dsimp only; omega) (by dsimp only; omega) rfl
                (by dsimp only; omega)
          · next hthree =>
              have h0 : (UInt8.ofNat (c.toNat / 262144 % 0x08 + 0xf0)).toNat =
                  c.toNat / 262144 + 0xF0 := by
                rw [toNat_byte (by omega)]
                omega
              have h1 := toNat_tail (c.toNat / 4096)
              have h2 := toNat_tail (c.toNat / 64)
              have h3 := toNat_tail c.toNat
              simp only [List.cons_append, List.nil_append]
              rw [decodeFrom, lead_four (by omega), h0, List.nil_append,
                decodeFrom_next (by dsimp only; split <;> omega) (by dsimp only; split <;> omega)
                  (by dsimp only; omega),
                decodeFrom_next (by dsimp only; omega) (by dsimp only; omega) (by dsimp only; omega)]
              exact decodeFrom_last (by dsimp only; omega) (by dsimp only; omega) rfl
                (by dsimp only; omega)

theorem decodeFrom_chars (cs : List Char) :
    decodeFrom none (cs.flatMap String.utf8EncodeChar) = ofChars cs := by
  induction cs with
  | nil => rfl
  | cons c cs ih => rw [List.flatMap_cons, decodeFrom_char, ih, Utf16.ofChars_cons]

/-- What the fatal decoder gives, the lenient one gives. -/
theorem decode_of_decodeFatal {bytes : List UInt8} {text : JsString}
    (h : decodeFatal bytes = some text) : decode bytes = text := by
  obtain ⟨hpaired, hbytes⟩ := Utf16.decodeUtf8_eq_some h
  rw [decode, ← hbytes, encodeUtf8, decodeFrom_chars, Utf16.ofChars_chars hpaired]

/-- Text that does not begin with a byte order mark is decoded to what was encoded. -/
theorem decodeFatal_encodeUtf8 {text : JsString} (h : Utf16.loneSurrogate text = false)
    (hmark : (encodeUtf8 text).take 3 ≠ [0xEF, 0xBB, 0xBF]) :
    decodeFatal (encodeUtf8 text) = some text := by
  rw [decodeFatal, withoutMark, if_neg hmark, Utf16.decodeUtf8_encodeUtf8 h]

end TextDecoder
