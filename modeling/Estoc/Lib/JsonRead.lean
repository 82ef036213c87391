import Mathlib.Data.Bool.AllAny
import Mathlib.Data.List.TakeWhile
import Estoc.Lib.Json

/-!
# What is written reads back

The reader meets in a written value the things the value consists of. It looks at
what comes next to tell what it reads, so each step is about what the writer puts
first: no whitespace, never the end of a container, and behind a number something
that is no part of one.
-/

set_option linter.unusedSectionVars false

open Utf16 (JsString)

namespace Json

/-! ## Strings -/

theorem hexValue_hexDigit : ∀ n < 16, hexValue (hexDigit n) = some n := by decide

theorem unescapes_find : ∀ p ∈ shortEscapes,
    p.2 ≠ 0x75 ∧ unescapes.find? (fun q => q.2 = p.2) = some p :=
  List.all_iff_forall_prop.mp (by decide)

theorem mem_of_lookup {α β : Type} [BEq α] [LawfulBEq α] {l : List (α × β)}
    {a : α} {b : β} (h : l.lookup a = some b) : (a, b) ∈ l := by
  induction l with
  | nil => simp at h
  | cons e rest ih =>
      obtain ⟨x, y⟩ := e
      rw [List.lookup_cons] at h
      by_cases hx : a == x
      · simp only [hx, Option.some.injEq] at h
        rw [eq_of_beq hx, h]
        exact List.mem_cons_self
      · simp only [hx] at h
        exact List.mem_cons_of_mem _ (ih h)

/-- One escaped unit is read as the unit it stands for. -/
theorem readString_escape (u : UInt16) (rest : JsString) :
    readString (escape u ++ rest) = (readString rest).map fun p => (u :: p.1, p.2) := by
  have hslash : backslash ≠ dquote := by decide
  rw [escape]
  split
  · next e he =>
      obtain ⟨hu, hfind⟩ := unescapes_find (u, e) (mem_of_lookup he)
      simp only at hu hfind
      rw [List.cons_append, readString.eq_def]
      simp only [hslash, if_false, if_true, List.cons_append, List.nil_append, if_neg hu, hfind]
  · next hnone =>
      split
      · next hlt =>
          have h1 := hexValue_hexDigit (u.toNat / 16) (by omega)
          have h2 := hexValue_hexDigit (u.toNat % 16) (by omega)
          have h0 : hexValue zeroDigit = some 0 := by decide
          have hsum : 0 * 4096 + 0 * 256 + u.toNat / 16 * 16 + u.toNat % 16 = u.toNat := by omega
          rw [List.cons_append, readString.eq_def]
          simp only [hslash, if_false, if_true, List.cons_append, List.nil_append, h0, h1, h2,
            hsum, UInt16.ofNat_toNat]
      · next hge =>
          have hb : u ≠ backslash := by
            rintro rfl
            exact absurd hnone (by decide)
          have hd : u ≠ dquote := by
            rintro rfl
            exact absurd hnone (by decide)
          rw [List.cons_append, readString.eq_def]
          simp only [if_neg hd, if_neg hb, if_neg hge, List.nil_append]

theorem readString_escaped (s rest : JsString) :
    readString (s.flatMap escape ++ dquote :: rest) = some (s, rest) := by
  induction s with
  | nil =>
      rw [List.flatMap_nil, List.nil_append, readString.eq_def]
      simp only [if_true]
  | cons u s ih =>
      rw [List.flatMap_cons, List.append_assoc, readString_escape, ih]
      rfl

/-! ## Ways of writing strings -/

/-- A way of writing what stands between the quotes of a string, so that it reads back. -/
structure Quoting where
  body : JsString → JsString
  readString_body : ∀ s rest, readString (body s ++ dquote :: rest) = some (s, rest)

/-- Nothing escaped that need not be. -/
def escaping : Quoting := ⟨fun s => s.flatMap escape, readString_escaped⟩

namespace Quoting

variable (Q : Quoting) (N : NumberText)

def quote (s : JsString) : JsString := dquote :: (Q.body s ++ [dquote])

def writeScalar : Scalar → JsString
  | .null => lit "null"
  | .boolean true => lit "true"
  | .boolean false => lit "false"
  | .number x => N.text x
  | .string s => Q.quote s

mutual

/-- The text of a value as it stands, its strings written this way. -/
def write : Json → JsString
  | .scalar s => Q.writeScalar N s
  | .array [] => [lbracket, rbracket]
  | .array (v :: vs) => lbracket :: (write v ++ writeItems vs)
  | .object [] => [lbrace, rbrace]
  | .object ((name, v) :: ms) => lbrace :: (Q.quote name ++ colon :: (write v ++ writeMembers ms))

def writeItems : List Json → JsString
  | [] => [rbracket]
  | v :: vs => comma :: (write v ++ writeItems vs)

def writeMembers : List (JsString × Json) → JsString
  | [] => [rbrace]
  | (name, v) :: ms => comma :: (Q.quote name ++ colon :: (write v ++ writeMembers ms))

end

end Quoting

theorem writeItems_escaping {N : NumberText} {vs : List Json}
    (h : ∀ v ∈ vs, Json.write N v = escaping.write N v) :
    Json.writeItems N vs = escaping.writeItems N vs := by
  induction vs with
  | nil => rfl
  | cons v vs ih =>
      obtain ⟨hv, hvs⟩ := List.forall_mem_cons.mp h
      rw [Json.writeItems, Quoting.writeItems, hv, ih hvs]

theorem writeMembers_escaping {N : NumberText} {ms : List (JsString × Json)}
    (h : ∀ m ∈ ms, Json.write N m.2 = escaping.write N m.2) :
    Json.writeMembers N ms = escaping.writeMembers N ms := by
  induction ms with
  | nil => rfl
  | cons m ms ih =>
      obtain ⟨hm, hms⟩ := List.forall_mem_cons.mp h
      rw [Json.writeMembers, Quoting.writeMembers, hm, ih hms]
      rfl

theorem write_escaping (N : NumberText) (v : Json) : Json.write N v = escaping.write N v := by
  induction v using ind with
  | scalar s =>
      cases s with
      | boolean b => cases b <;> rfl
      | _ => rfl
  | array items ih =>
      cases items with
      | nil => rfl
      | cons v vs =>
          obtain ⟨hv, hvs⟩ := List.forall_mem_cons.mp ih
          rw [Json.write, Quoting.write, hv, writeItems_escaping hvs]
  | object members ih =>
      cases members with
      | nil => rfl
      | cons m ms =>
          obtain ⟨hm, hms⟩ := List.forall_mem_cons.mp ih
          rw [Json.write, Quoting.write, hm, writeMembers_escaping hms]
          rfl

/-! ## Numbers -/

theorem isNumberUnit_of_exponent {s : JsString} (h : isExponent s = true) :
    ∀ u ∈ s, isNumberUnit u = true := by
  cases s with
  | nil => intro u hu; cases hu
  | cons v rest =>
      simp only [isExponent, Bool.and_eq_true, List.all_eq_true] at h
      obtain ⟨⟨hmark, _⟩, hall⟩ := h
      intro u hu
      rcases List.mem_cons.mp hu with rfl | hu
      · simp [isNumberUnit, hmark]
      · by_cases hs : (rest.head? == some plus || rest.head? == some minus) = true
        · rw [if_pos hs] at hall
          cases rest with
          | nil => cases hu
          | cons w rest =>
              rcases List.mem_cons.mp hu with rfl | hu
              · simp only [List.head?_cons, Bool.or_eq_true, beq_iff_eq, Option.some.injEq] at hs
                rcases hs with rfl | rfl <;> decide
              · simp [isNumberUnit, hall u hu]
        · rw [if_neg hs] at hall
          simp [isNumberUnit, hall u hu]

theorem isNumberUnit_of_digits {s : JsString}
    (h : ∀ u ∈ s.dropWhile isDigit, isNumberUnit u = true) : ∀ u ∈ s, isNumberUnit u = true := by
  intro u hu
  rw [← List.takeWhile_append_dropWhile (p := isDigit) (l := s)] at hu
  rcases List.mem_append.mp hu with hu | hu
  · simp [isNumberUnit, List.mem_takeWhile_imp hu]
  · exact h u hu

theorem isNumberUnit_of_fraction {s : JsString} (h : isFraction s = true) :
    ∀ u ∈ s, isNumberUnit u = true := by
  rw [isFraction] at h
  split at h
  · next hdot =>
    rw [Bool.and_eq_true] at h
    cases s with
    | nil => intro u hu; cases hu
    | cons v rest =>
        intro u hu
        rcases List.mem_cons.mp hu with rfl | hu
        · simp only [List.head?_cons, beq_iff_eq, Option.some.injEq] at hdot
          rw [hdot]
          decide
        · exact isNumberUnit_of_digits (isNumberUnit_of_exponent h.2) u hu
  · exact isNumberUnit_of_exponent h

/-- A number is made of number units, and it does not start as any word does. -/
theorem isNumber_units {s : JsString} (h : isNumber s = true) : ∀ u ∈ s, isNumberUnit u = true := by
  rw [isNumber, Bool.and_eq_true] at h
  have hrest := isNumberUnit_of_digits (isNumberUnit_of_fraction h.2)
  cases s with
  | nil => intro u hu; cases hu
  | cons v rest =>
      by_cases hm : ((v :: rest).head? == some minus) = true
      · rw [if_pos hm] at hrest
        intro u hu
        rcases List.mem_cons.mp hu with rfl | hu
        · simp only [List.head?_cons, beq_iff_eq, Option.some.injEq] at hm
          rw [hm]
          decide
        · exact hrest u hu
      · rw [if_neg hm] at hrest
        exact hrest

theorem isNumber_ne_nil {s : JsString} (h : isNumber s = true) : s ≠ [] := by
  rintro rfl
  exact absurd h (by decide)

/-! ## What comes first -/

/-- What may stand behind a value: nothing a number could go on with. -/
def Follows (rest : JsString) : Prop := ∀ u ∈ rest.head?, isNumberUnit u = false

theorem follows_nil : Follows [] := fun _ h => by cases h

theorem follows_cons {u : UInt16} {rest : JsString} (h : isNumberUnit u = false) :
    Follows (u :: rest) := by
  intro v hv
  cases hv
  exact h

/-- What the first unit of a value is not. -/
structure Starts (u : UInt16) : Prop where
  ws : isWs u = false
  rbracket : u ≠ rbracket
  rbrace : u ≠ rbrace

theorem starts_of_numberUnit {u : UInt16} (h : isNumberUnit u = true) :
    Starts u ∧ u ≠ lbrace ∧ u ≠ lbracket ∧ u ≠ dquote := by
  refine ⟨⟨?_, ?_, ?_⟩, ?_, ?_, ?_⟩
  · rw [← Bool.not_eq_true]
    intro hw
    simp only [isWs, Bool.or_eq_true, beq_iff_eq] at hw
    rcases hw with ((rfl | rfl) | rfl) | rfl <;> exact absurd h (by decide)
  all_goals rintro rfl; exact absurd h (by decide)

theorem skipWs_cons {u : UInt16} (h : isWs u = false) (rest : JsString) :
    skipWs (u :: rest) = u :: rest := by
  rw [skipWs, List.dropWhile_cons, if_neg (by simp [h])]

section
variable {Q : Quoting} {N : NumberText}

/-- Every number in the value is finite and not the negative zero. -/
def readable : Scalar → Prop
  | .number x => x.isFinite = true ∧ x ≠ .negZero
  | _ => True

inductive Readable : Json → Prop where
  | scalar {s : Scalar} : readable s → Readable (.scalar s)
  | array {items : List Json} : (∀ v ∈ items, Readable v) → Readable (.array items)
  | object {members : List (JsString × Json)} : (∀ m ∈ members, Readable m.2) →
      Readable (.object members)

theorem starts_write {v : Json} (h : Readable v) :
    ∃ u rest, Q.write N v = u :: rest ∧ Starts u := by
  cases h with
  | @scalar s hs =>
      cases s with
      | null => exact ⟨_, _, rfl, by decide, by decide, by decide⟩
      | boolean b => cases b <;> exact ⟨_, _, rfl, by decide, by decide, by decide⟩
      | string s => exact ⟨_, _, rfl, by decide, by decide, by decide⟩
      | number x =>
          have hnum := N.isNumber_text x hs.1
          obtain ⟨u, rest, hu⟩ := List.exists_cons_of_ne_nil (isNumber_ne_nil hnum)
          refine ⟨u, rest, hu, (starts_of_numberUnit (isNumber_units hnum u ?_)).1⟩
          rw [hu]
          exact List.mem_cons_self
  | @array items _ => cases items <;> exact ⟨_, _, rfl, by decide, by decide, by decide⟩
  | @object members _ => cases members <;> exact ⟨_, _, rfl, by decide, by decide, by decide⟩

/-! ## Reading what was written -/

theorem find_words_of_number {u : UInt16} (h : isNumberUnit u = true) (rest : JsString) :
    words.find? (fun w => w.1.isPrefixOf (u :: rest)) = none := by
  rw [List.find?_eq_none]
  intro w hw hp
  have hhead : ∀ w ∈ words, ∃ x t, w.1 = x :: t ∧ isNumberUnit x = false := by
    intro w hw
    simp only [words, List.mem_cons, List.not_mem_nil, or_false] at hw
    rcases hw with rfl | rfl | rfl <;> exact ⟨_, _, rfl, by decide⟩
  obtain ⟨x, t, hx, hn⟩ := hhead w hw
  rw [hx, List.isPrefixOf_iff_prefix, List.cons_prefix_cons] at hp
  rw [hp.1, h] at hn
  cases hn

theorem readWord_number {x : Binary64} (hx : x.isFinite = true) (hz : x ≠ .negZero)
    {rest : JsString} (hrest : Follows rest) :
    readWord N (N.text x ++ rest) = some ([.literal (.number x)], rest) := by
  have hnum := N.isNumber_text x hx
  have hunits := isNumber_units hnum
  have htake : (N.text x ++ rest).takeWhile isNumberUnit = N.text x := by
    rw [List.takeWhile_append_of_pos hunits]
    cases rest with
    | nil => simp
    | cons u rest => simp [hrest u rfl]
  have hdrop : (N.text x ++ rest).dropWhile isNumberUnit = rest := by
    rw [List.dropWhile_append_of_pos hunits]
    cases rest with
    | nil => rfl
    | cons u rest => simp [hrest u rfl]
  obtain ⟨u, t, hu⟩ := List.exists_cons_of_ne_nil (isNumber_ne_nil hnum)
  have hfind : words.find? (fun w => w.1.isPrefixOf (N.text x ++ rest)) = none := by
    rw [hu, List.cons_append]
    exact find_words_of_number (hunits u (by rw [hu]; exact List.mem_cons_self)) _
  have hvalue : N.value (N.text x) = x := by
    rw [N.value_text x hx, Binary64.unsigned, if_neg hz]
  simp only [readWord, hfind, htake, hdrop, hnum, if_true, hvalue]

theorem readValue_scalar {s : Scalar} (h : readable s) {rest : JsString} (hrest : Follows rest)
    (fuel : Nat) :
    readValue N (fuel + 1) (Q.writeScalar N s ++ rest) = some ([.literal s], rest) := by
  have hword : ∀ w ∈ words, readValue N (fuel + 1) (w.1 ++ rest) = some ([.literal w.2], rest) := by
    intro w hw
    simp only [words, List.mem_cons, List.not_mem_nil, or_false] at hw
    rcases hw with rfl | rfl | rfl <;> rfl
  cases s with
  | null => exact hword (lit "null", .null) (by decide)
  | boolean b =>
      cases b
      · exact hword (lit "false", .boolean false) (by decide)
      · exact hword (lit "true", .boolean true) (by decide)
  | string s =>
      have hread := Q.readString_body s rest
      rw [Quoting.writeScalar, Quoting.quote, List.cons_append, List.append_assoc, List.singleton_append, readValue,
        skipWs_cons (by decide)]
      simp only [show dquote ≠ lbrace by decide, show dquote ≠ lbracket by decide, if_false,
        if_true, hread, Option.map_some]
  | number x =>
      have hnum := N.isNumber_text x h.1
      obtain ⟨u, t, hu⟩ := List.exists_cons_of_ne_nil (isNumber_ne_nil hnum)
      have hunit := isNumber_units hnum u (by rw [hu]; exact List.mem_cons_self)
      obtain ⟨hstarts, h1, h2, h3⟩ := starts_of_numberUnit hunit
      have hread := @readWord_number N x h.1 h.2 rest hrest
      rw [hu, List.cons_append] at hread
      rw [Quoting.writeScalar, hu, List.cons_append, readValue, skipWs_cons hstarts.ws]
      simp only [if_neg h1, if_neg h2, if_neg h3, hread]

/-- The first unit of an item is not the end of its array. -/
theorem skipWs_write {v : Json} (h : Readable v) (rest : JsString) :
    skipWs (Q.write N v ++ rest) = Q.write N v ++ rest ∧
      (Q.write N v ++ rest).head? ≠ some rbracket := by
  obtain ⟨u, t, hu, hs⟩ := @starts_write Q N v h
  rw [hu, List.cons_append]
  refine ⟨skipWs_cons hs.ws _, ?_⟩
  simpa using hs.rbracket

theorem write_pos {v : Json} (h : Readable v) : 1 ≤ (Q.write N v).length := by
  obtain ⟨u, t, hu, _⟩ := @starts_write Q N v h
  rw [hu]
  simp

theorem quote_append (s rest : JsString) :
    Q.quote s ++ rest = dquote :: (Q.body s ++ dquote :: rest) := by
  simp [Quoting.quote]

section
variable (Q N)

/-- With this much fuel, a written value is read in front of anything that may follow
one. -/
def ReadsValue (fuel : Nat) : Prop :=
  ∀ {v : Json} {rest : JsString}, Readable v → (Q.write N v).length ≤ fuel → Follows rest →
    readValue N fuel (Q.write N v ++ rest) = some (tokens v, rest)

/-- The same of an item with what follows it in its array. -/
def ReadsItem (fuel : Nat) : Prop :=
  ∀ {v : Json} {vs : List Json} {rest : JsString}, Readable v → (∀ w ∈ vs, Readable w) →
    (Q.write N v ++ Q.writeItems N vs).length ≤ fuel →
    readItem N fuel (Q.write N v ++ (Q.writeItems N vs ++ rest)) =
      some (tokens v ++ tokensItems vs, rest)

/-- The same of a member with what follows it in its object. -/
def ReadsMember (fuel : Nat) : Prop :=
  ∀ {name : JsString} {v : Json} {ms : List (JsString × Json)} {rest : JsString},
    Readable v → (∀ m ∈ ms, Readable m.2) →
    (Q.quote name ++ colon :: (Q.write N v ++ Q.writeMembers N ms)).length ≤ fuel →
    readMember N fuel (Q.quote name ++ colon :: (Q.write N v ++ (Q.writeMembers N ms ++ rest))) =
      some (.property name :: (tokens v ++ tokensMembers ms), rest)

end

theorem readsValue_succ {fuel : Nat} (hitem : ReadsItem Q N fuel) (hmember : ReadsMember Q N fuel) :
    ReadsValue Q N (fuel + 1) := by
  intro v rest h hf hr
  cases h with
  | scalar h => exact readValue_scalar h hr fuel
  | @array items h =>
      cases items with
      | nil =>
          rw [Quoting.write, List.cons_append, readValue, skipWs_cons (by decide)]
          simp only [List.singleton_append]
          rw [skipWs_cons (by decide)]
          rfl
      | cons v vs =>
          rw [List.forall_mem_cons] at h
          simp only [Quoting.write, List.length_cons] at hf
          obtain ⟨hskip, hne⟩ := skipWs_write (Q := Q) (N := N) h.1 (Q.writeItems N vs ++ rest)
          rw [Quoting.write, List.cons_append, List.append_assoc, readValue, skipWs_cons (by decide)]
          simp only [show lbracket ≠ lbrace by decide, if_false, if_true, hskip, if_neg hne]
          rw [hitem h.1 h.2 (by omega)]
          rfl
  | @object members h =>
      cases members with
      | nil =>
          rw [Quoting.write, List.cons_append, readValue, skipWs_cons (by decide)]
          simp only [List.singleton_append]
          rw [skipWs_cons (by decide)]
          rfl
      | cons m ms =>
          obtain ⟨name, v⟩ := m
          rw [List.forall_mem_cons] at h
          simp only [Quoting.write, List.length_cons] at hf
          have hread := @hmember name v ms rest h.1 h.2 (by omega)
          have hassoc : Q.quote name ++ colon :: (Q.write N v ++ Q.writeMembers N ms) ++ rest =
              Q.quote name ++ colon :: (Q.write N v ++ (Q.writeMembers N ms ++ rest)) := by
            simp only [List.append_assoc, List.cons_append]
          rw [Quoting.write, List.cons_append, readValue, skipWs_cons (by decide), hassoc]
          simp only [if_true]
          rw [quote_append, skipWs_cons (by decide), ← quote_append]
          simp only [hread]
          rfl

theorem readsItem_succ {fuel : Nat} (hvalue : ReadsValue Q N fuel) (hitem : ReadsItem Q N fuel) :
    ReadsItem Q N (fuel + 1) := by
  intro v vs rest h hvs hf
  have hpos := write_pos (Q := Q) (N := N) h
  cases vs with
  | nil =>
      simp only [Quoting.writeItems, List.length_append, List.length_singleton] at hf
      have hread := @hvalue v (Q.writeItems N [] ++ rest) h (by omega) (follows_cons (by decide))
      rw [readItem, hread]
      simp only [Quoting.writeItems, List.singleton_append, Option.bind_eq_bind, Option.bind_some]
      rw [skipWs_cons (by decide)]
      rfl
  | cons w vs =>
      rw [List.forall_mem_cons] at hvs
      simp only [Quoting.writeItems, List.length_append, List.length_cons] at hf
      have hread := @hvalue v (Q.writeItems N (w :: vs) ++ rest) h (by omega)
        (follows_cons (by decide))
      have hmore := @hitem w vs rest hvs.1 hvs.2 (by rw [List.length_append]; omega)
      rw [readItem, hread]
      simp only [Quoting.writeItems, List.cons_append, Option.bind_eq_bind, Option.bind_some]
      rw [skipWs_cons (by decide)]
      simp only [if_true, List.append_assoc]
      rw [hmore]
      simp [tokensItems]

theorem readsMember_succ {fuel : Nat} (hvalue : ReadsValue Q N fuel)
    (hmember : ReadsMember Q N fuel) : ReadsMember Q N (fuel + 1) := by
  intro name v ms rest h hms hf
  have hpos := write_pos (Q := Q) (N := N) h
  cases ms with
  | nil =>
      simp only [Quoting.writeMembers, List.length_append, List.length_cons, List.length_nil] at hf
      have hread := @hvalue v (Q.writeMembers N [] ++ rest) h (by omega) (follows_cons (by decide))
      rw [readMember, quote_append, skipWs_cons (by decide)]
      simp only [ne_eq, not_true_eq_false, if_false, Q.readString_body, Option.bind_eq_bind,
        Option.bind_some]
      rw [skipWs_cons (by decide)]
      simp only [not_true_eq_false, if_false, hread, Option.bind_some]
      simp only [Quoting.writeMembers, List.singleton_append]
      rw [skipWs_cons (by decide)]
      rfl
  | cons m ms =>
      obtain ⟨name', w⟩ := m
      rw [List.forall_mem_cons] at hms
      simp only [Quoting.writeMembers, List.length_append, List.length_cons] at hf
      have hread := @hvalue v (Q.writeMembers N ((name', w) :: ms) ++ rest) h (by omega)
        (follows_cons (by decide))
      have hmore := @hmember name' w ms rest hms.1 hms.2 (by
        simp only [List.length_append, List.length_cons]; omega)
      rw [readMember, quote_append, skipWs_cons (by decide)]
      simp only [ne_eq, not_true_eq_false, if_false, Q.readString_body, Option.bind_eq_bind,
        Option.bind_some]
      rw [skipWs_cons (by decide)]
      simp only [not_true_eq_false, if_false, hread, Option.bind_some]
      simp only [Quoting.writeMembers, List.cons_append]
      rw [skipWs_cons (by decide)]
      simp only [if_true, List.append_assoc, List.cons_append]
      rw [hmore]
      simp [tokensMembers]

theorem reads (fuel : Nat) : ReadsValue Q N fuel ∧ ReadsItem Q N fuel ∧ ReadsMember Q N fuel := by
  induction fuel with
  | zero =>
      refine ⟨?_, ?_, ?_⟩
      · intro v rest h hf
        have := write_pos (Q := Q) (N := N) h
        omega
      · intro v vs rest h _ hf
        have := write_pos (Q := Q) (N := N) h
        rw [List.length_append] at hf
        omega
      · intro name v ms rest h _ hf
        have := write_pos (Q := Q) (N := N) h
        simp only [List.length_append, List.length_cons] at hf
        omega
  | succ fuel ih =>
      obtain ⟨hvalue, hitem, hmember⟩ := ih
      exact ⟨readsValue_succ hitem hmember, readsItem_succ hvalue hitem,
        readsMember_succ hvalue hmember⟩

/-- Reading a written value meets the things the value consists of. -/
theorem Quoting.readText_write {v : Json} (h : Readable v) :
    readText N (Q.write N v) = some (tokens v) := by
  have hread := (reads (Q := Q) (N := N) ((Q.write N v).length + 1)).1 h (Nat.le_succ _) follows_nil
  rw [List.append_nil] at hread
  rw [readText, hread]
  rfl

theorem readText_write {v : Json} (h : Readable v) : readText N (write N v) = some (tokens v) := by
  rw [write_escaping]
  exact Quoting.readText_write h

end

end Json
