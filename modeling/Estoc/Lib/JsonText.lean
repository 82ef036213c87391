import Mathlib.Data.List.Basic

/-!
# Quoted strings that read back one way

The string form of JSON text: a quote, each character as itself or as an
escape, a quote. The escapes are those of `JSON.stringify`, which RFC 8785
takes over: the two-character ones where there is one, `\u00xx` in lowercase
for the other control characters, and nothing else is escaped.

`unescape` takes one escaped character off the front of a text, and
`unescape_escape` says it takes back exactly what `escape` put there. From it
comes `quote_append_inj`, which is what a serialization needs: a quoted string
in front of any text can be cut off in one way only.
-/

namespace JsonText

def dquote : Char := '\x22'
def backslash : Char := '\x5c'

def hexDigits : List Char :=
  ['0', '1', '2', '3', '4', '5', '6', '7', '8', '9', 'a', 'b', 'c', 'd', 'e', 'f']

def hexDigit (n : Nat) : Char := hexDigits.getD n '0'

/-- The value of a lowercase hex digit; sixteen for any other character. -/
def hexValue (c : Char) : Nat := hexDigits.idxOf c

/-- The characters with an escape of two characters, and what follows the
backslash in it. -/
def shortEscapes : List (Char × Char) :=
  [(dquote, dquote), (backslash, backslash), ('\x08', 'b'), ('\x09', 't'),
    ('\x0a', 'n'), ('\x0c', 'f'), ('\x0d', 'r')]

def escape (c : Char) : List Char :=
  match shortEscapes.lookup c with
  | some e => [backslash, e]
  | none =>
    if c.toNat < 32 then
      [backslash, 'u', '0', '0', hexDigit (c.toNat / 16), hexDigit (c.toNat % 16)]
    else [c]

def quote (s : List Char) : List Char :=
  dquote :: (s.flatMap escape ++ [dquote])

/-- One character off the front of an escaped text. -/
def unescape : List Char → Option (Char × List Char)
  | [] => none
  | c :: rest =>
    if c = backslash then
      match rest with
      | [] => none
      | e :: rest =>
        if e = 'u' then
          match rest with
          | _ :: _ :: hi :: lo :: rest =>
              some (Char.ofNat (hexValue hi * 16 + hexValue lo), rest)
          | _ => none
        else
          (shortEscapes.find? (fun p => p.2 = e)).map fun p => (p.1, rest)
    else some (c, rest)

private theorem hexValue_digits : ∀ n < 32,
    Char.ofNat (hexValue (hexDigit (n / 16)) * 16 + hexValue (hexDigit (n % 16))) =
      Char.ofNat n := by decide

private theorem shortEscapes_find : ∀ p ∈ shortEscapes,
    p.2 ≠ 'u' ∧ shortEscapes.find? (fun q => q.2 = p.2) = some p := by decide

private theorem mem_of_lookup {α β : Type} [BEq α] [LawfulBEq α] {l : List (α × β)}
    {a : α} {b : β} (h : l.lookup a = some b) : (a, b) ∈ l := by
  induction l with
  | nil => simp at h
  | cons e rest ih =>
      obtain ⟨x, y⟩ := e
      rw [List.lookup_cons] at h
      by_cases hx : a == x
      · simp only [hx, Option.some.injEq] at h
        rw [eq_of_beq hx, h]
        exact List.mem_cons_self
      · simp only [hx] at h
        exact List.mem_cons_of_mem _ (ih h)

theorem unescape_escape (c : Char) (rest : List Char) :
    unescape (escape c ++ rest) = some (c, rest) := by
  rw [escape]
  split
  · next e he =>
      obtain ⟨hu, hfind⟩ := shortEscapes_find (c, e) (mem_of_lookup he)
      simp only [] at hu hfind
      simp [unescape, hu, hfind]
  · next hnone =>
      split
      · next hlt =>
          have hd := hexValue_digits c.toNat hlt
          rw [Char.ofNat_toNat] at hd
          simp [unescape, hd]
      · have hb : c ≠ backslash := by
          rintro rfl
          exact absurd hnone (by decide)
        simp [unescape, hb]

/-- No escaped character starts as the closing quote does. -/
theorem escape_ne_dquote (c : Char) (rest tail : List Char) :
    escape c ++ rest ≠ dquote :: tail := by
  intro h
  have hc := unescape_escape c rest
  rw [h] at hc
  have hdq : dquote ≠ backslash := by decide
  simp only [unescape, if_neg hdq, Option.some.injEq, Prod.mk.injEq] at hc
  have he : escape c = [backslash, dquote] := by rw [← hc.1]; rfl
  have hlen := congrArg List.length h
  rw [he, hc.2] at hlen
  simp at hlen

private theorem escaped_append_inj : ∀ {s s' r r' : List Char},
    s.flatMap escape ++ dquote :: r = s'.flatMap escape ++ dquote :: r' →
      s = s' ∧ r = r'
  | [], [], r, r', h => ⟨rfl, by simpa using h⟩
  | [], c :: s', r, r', h => by
      rw [List.flatMap_cons, List.append_assoc] at h
      exact absurd h.symm (escape_ne_dquote c _ _)
  | c :: s, [], r, r', h => by
      rw [List.flatMap_cons, List.append_assoc] at h
      exact absurd h (escape_ne_dquote c _ _)
  | c :: s, c' :: s', r, r', h => by
      rw [List.flatMap_cons, List.flatMap_cons, List.append_assoc,
        List.append_assoc] at h
      have hc := unescape_escape c (s.flatMap escape ++ dquote :: r)
      rw [h, unescape_escape, Option.some.injEq, Prod.mk.injEq] at hc
      obtain ⟨rfl, hrest⟩ := hc
      obtain ⟨rfl, rfl⟩ := escaped_append_inj hrest.symm
      exact ⟨rfl, rfl⟩

/-- A quoted string in front of a text ends in one place only. -/
theorem quote_append_inj {s s' r r' : List Char}
    (h : quote s ++ r = quote s' ++ r') : s = s' ∧ r = r' := by
  simp only [quote, List.cons_append, List.append_assoc, List.nil_append,
    List.cons.injEq, true_and] at h
  exact escaped_append_inj h

end JsonText
