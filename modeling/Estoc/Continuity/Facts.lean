import Mathlib.Data.List.Dedup
import Mathlib.Data.String.Basic
import Estoc.Lib.Cmp
import Estoc.Lib.JsonText
import Estoc.Lib.OMap

/-!
# Facts and their identities

The fact schema of the continuity model, the validation a fact passes, and the
text that is its identity. Strings are the well-formed ones: a Lean `String`
is a sequence of Unicode scalar values, which is what a JavaScript string
without an unpaired surrogate is, so the surrogate check of the source has no
counterpart here.

A DID carries the proof that it has no U+0000. That is the whole reason why
`channelKey`, which puts one between the two DIDs of a pair, is injective and
orders as `compareChannels` does, and why the maps the source keys by that
string are keyed by the channel itself in everything that follows.
-/

namespace Estoc.Continuity

/-- An already validated canonical DID: compared byte for byte, never parsed,
and without U+0000. -/
structure Did where
  text : String
  noNul : '\x00' ∉ text.toList
deriving DecidableEq

theorem Did.text_injective : Function.Injective Did.text := by
  rintro ⟨a, ha⟩ ⟨b, hb⟩ h
  cases h
  rfl

/-- An oriented pair with fixed roles; rotation makes another channel rather
than rewriting this one. -/
@[ext] structure Channel where
  localDid : Did
  peerDid : Did
deriving DecidableEq

/-- Which endpoint a change replaces: `peer` for the peer's rotation or
ending, `local` for ours. -/
inductive Side where
  | «local»
  | peer
deriving DecidableEq

/-- A rotation to a successor, or an ending. -/
inductive Change where
  | rotate (successor : Did)
  | ending
deriving DecidableEq

/-- A fact is its content: a receipt from the peer, with the DID the peer
rotated from when it carried that proof; an ending of the peer; or a saved
local choice. -/
inductive ContinuityFact where
  | peerObservation («at» : Channel) (rotatedFrom : Option Did)
  | peerEnding («at» : Channel)
  | localDecision («at» : Channel) (change : Change)
deriving DecidableEq

def ContinuityFact.at : ContinuityFact → Channel
  | .peerObservation c _ => c
  | .peerEnding c => c
  | .localDecision c _ => c

/-! ## Order -/

/-- Code point order, a proper prefix first. -/
def comparePoints : List Char → List Char → Ordering
  | [], [] => .eq
  | [], _ :: _ => .lt
  | _ :: _, [] => .gt
  | x :: a, y :: b => if x = y then comparePoints a b else if x < y then .lt else .gt

def compareUtf8 (a b : String) : Ordering := comparePoints a.toList b.toList

def compareDids (a b : Did) : Ordering := compareUtf8 a.text b.text

/-- Canonical channel order: the local DID first, then the peer's. -/
def compareChannels (a b : Channel) : Ordering :=
  (compareDids a.localDid b.localDid).then (compareDids a.peerDid b.peerDid)

theorem comparePoints_eq_compareLex :
    comparePoints = List.compareLex (compare : Char → Char → Ordering) := by
  funext a b
  induction a generalizing b with
  | nil => cases b <;> rfl
  | cons x a ih =>
      cases b with
      | nil => rfl
      | cons y b =>
          rw [comparePoints, List.compareLex_cons_cons, ih]
          rcases lt_trichotomy x y with h | rfl | h
          · rw [if_neg h.ne, if_pos h, compare_lt_iff_lt.mpr h]; rfl
          · rw [if_pos rfl, compare_eq_iff_eq.mpr rfl]; rfl
          · rw [if_neg h.ne', if_neg h.not_gt, compare_gt_iff_gt.mpr h]; rfl

instance : Std.TransCmp comparePoints := by
  rw [comparePoints_eq_compareLex]; infer_instance

instance : Std.LawfulEqCmp comparePoints := by
  rw [comparePoints_eq_compareLex]; infer_instance

instance : Std.TransCmp compareUtf8 :=
  inferInstanceAs (Std.TransCmp (Cmp.comap String.toList comparePoints))

instance : Std.LawfulEqCmp compareUtf8 :=
  Cmp.lawful_comap fun _ _ => String.toList_injective

instance : Std.TransCmp compareDids :=
  inferInstanceAs (Std.TransCmp (Cmp.comap Did.text compareUtf8))

instance : Std.LawfulEqCmp compareDids := Cmp.lawful_comap Did.text_injective

instance : Std.TransCmp compareChannels :=
  inferInstanceAs (Std.TransCmp (compareLex
    (Cmp.comap Channel.localDid compareDids) (Cmp.comap Channel.peerDid compareDids)))

instance : Std.LawfulEqCmp compareChannels where
  eq_of_compare {a b} h := by
    rw [compareChannels, Ordering.then_eq_eq] at h
    exact Channel.ext (Std.LawfulEqCmp.eq_of_compare h.1)
      (Std.LawfulEqCmp.eq_of_compare h.2)

/-! ## Keys

The source keys its maps by strings. The lemmas here are what makes the string
stand for the pair: equal keys come from equal channels, and comparing keys is
comparing channels. -/

/-- A map key for the pair; a DID has no U+0000. -/
def channelKey (c : Channel) : String :=
  String.ofList (c.localDid.text.toList ++ '\x00' :: c.peerDid.text.toList)

private theorem comparePoints_nul {a b : List Char} (ha : '\x00' ∉ a) (hb : '\x00' ∉ b)
    (s t : List Char) :
    comparePoints (a ++ '\x00' :: s) (b ++ '\x00' :: t) =
      (comparePoints a b).then (comparePoints s t) := by
  have hnul : ∀ x : Char, x ≠ '\x00' → '\x00' < x := by
    intro x hx
    refine lt_of_le_of_ne ?_ (Ne.symm hx)
    exact Char.le_def.mpr (UInt32.le_iff_toNat_le.mpr (Nat.zero_le _))
  induction a generalizing b with
  | nil =>
      cases b with
      | nil => simp [comparePoints]
      | cons y b =>
          have hy : y ≠ '\x00' := fun h => hb (h ▸ List.mem_cons_self)
          simp [comparePoints, Ne.symm hy, hnul y hy]
  | cons x a ih =>
      have hx : x ≠ '\x00' := fun h => ha (h ▸ List.mem_cons_self)
      cases b with
      | nil =>
          simp [comparePoints, hx, (hnul x hx).not_gt]
      | cons y b =>
          simp only [List.cons_append, comparePoints]
          by_cases h : x = y
          · rw [if_pos h, if_pos h]
            exact ih (fun h' => ha (List.mem_cons_of_mem _ h'))
              (fun h' => hb (List.mem_cons_of_mem _ h'))
          · rw [if_neg h, if_neg h]
            split <;> rfl

/-- Comparing keys is comparing channels. -/
theorem compareUtf8_channelKey (a b : Channel) :
    compareUtf8 (channelKey a) (channelKey b) = compareChannels a b := by
  simp only [compareUtf8, channelKey, String.toList_ofList]
  exact comparePoints_nul a.localDid.noNul b.localDid.noNul _ _

/-- Equal keys come from equal channels. -/
theorem channelKey_injective : Function.Injective channelKey := by
  intro a b h
  refine @Std.LawfulEqCmp.eq_of_compare _ compareChannels _ _ _ ?_
  rw [← compareUtf8_channelKey, h]
  exact Std.ReflCmp.compare_self

/-- A map key for the change, so that two facts declaring the same change
compare equal. -/
def changeKey : Change → String
  | .ending => "end"
  | .rotate successor => "rotate\x00" ++ successor.text

/-- The channels, each once, in canonical order. -/
def sortedChannels (channels : List Channel) : List Channel :=
  Cmp.sortBy compareChannels channels.dedup

@[simp] theorem mem_sortedChannels {l : List Channel} {c : Channel} :
    c ∈ sortedChannels l ↔ c ∈ l := by
  rw [sortedChannels, Cmp.mem_sortBy, List.mem_dedup]

/-! ## Validation -/

/-- A value the profile refuses, and where and why. -/
structure InvalidFact where
  message : String
deriving DecidableEq

def text (value : Did) (path : String) : Except InvalidFact Did :=
  if value.text = "" then .error ⟨s!"{path} is a non-empty string"⟩ else .ok value

def textOrNull (value : Option Did) (path : String) : Except InvalidFact (Option Did) :=
  match value with
  | none => .ok none
  | some did => (text did path).map some

def channel (value : Channel) (path : String) : Except InvalidFact Channel := do
  let localDid ← text value.localDid s!"{path}.localDid"
  let peerDid ← text value.peerDid s!"{path}.peerDid"
  if localDid = peerDid then .error ⟨s!"{path} pairs a DID with itself"⟩
  else .ok ⟨localDid, peerDid⟩

def change (value : Change) (path : String) : Except InvalidFact Change :=
  match value with
  | .rotate successor => (text successor s!"{path}.successor").map .rotate
  | .ending => .ok .ending

/-- `value` as a fact of the profile, or `InvalidFact`. -/
def validateFact (value : ContinuityFact) (path : String) :
    Except InvalidFact ContinuityFact :=
  match value with
  | .peerObservation c from? => do
      let c ← channel c s!"{path}.at"
      let rotatedFrom ← textOrNull from? s!"{path}.rotatedFrom"
      if rotatedFrom = some c.peerDid then
        .error ⟨s!"{path}: the peer rotated from the DID it rotated to"⟩
      else if rotatedFrom = some c.localDid then
        .error ⟨s!"{path}: the peer rotated from the local DID"⟩
      else .ok (.peerObservation c rotatedFrom)
  | .peerEnding c => do
      let c ← channel c s!"{path}.at"
      .ok (.peerEnding c)
  | .localDecision c decided => do
      let c ← channel c s!"{path}.at"
      let decided ← change decided s!"{path}.change"
      if decided = .rotate c.localDid then
        .error ⟨s!"{path}: the successor is the DID it replaces"⟩
      else if decided = .rotate c.peerDid then
        .error ⟨s!"{path}: the successor is the other endpoint of the pair"⟩
      else .ok (.localDecision c decided)

/-- A pair of two different non-empty DIDs. -/
structure Channel.Valid (c : Channel) : Prop where
  localDid : c.localDid.text ≠ ""
  peerDid : c.peerDid.text ≠ ""
  distinct : c.localDid ≠ c.peerDid

/-- A fact the profile admits: a valid pair, and what it names besides being a
non-empty DID that is neither end of the pair. -/
def ContinuityFact.Valid : ContinuityFact → Prop
  | .peerObservation c none => c.Valid
  | .peerObservation c (some d) =>
      c.Valid ∧ d.text ≠ "" ∧ d ≠ c.peerDid ∧ d ≠ c.localDid
  | .peerEnding c => c.Valid
  | .localDecision c .ending => c.Valid
  | .localDecision c (.rotate d) =>
      c.Valid ∧ d.text ≠ "" ∧ d ≠ c.localDid ∧ d ≠ c.peerDid

theorem ContinuityFact.Valid.at {f : ContinuityFact} (h : f.Valid) : f.at.Valid := by
  match f, h with
  | .peerObservation _ none, h => exact h
  | .peerObservation _ (some _), h => exact h.1
  | .peerEnding _, h => exact h
  | .localDecision _ .ending, h => exact h
  | .localDecision _ (.rotate _), h => exact h.1

@[simp] theorem text_of_nonempty {d : Did} (h : d.text ≠ "") (path : String) :
    text d path = .ok d := by rw [text, if_neg h]

theorem text_of_empty {d : Did} (h : d.text = "") (path : String) :
    ∃ e, text d path = .error e := by rw [text, if_pos h]; exact ⟨_, rfl⟩

theorem channel_of_valid {c : Channel} (h : c.Valid) (path : String) :
    channel c path = .ok c := by
  simp [channel, h.localDid, h.peerDid, h.distinct, bind, Except.bind]

theorem channel_of_not_valid {c : Channel} (h : ¬ c.Valid) (path : String) :
    ∃ e, channel c path = .error e := by
  by_cases hl : c.localDid.text = ""
  · obtain ⟨e, he⟩ := text_of_empty hl s!"{path}.localDid"
    exact ⟨e, by rw [channel, he]; rfl⟩
  · by_cases hp : c.peerDid.text = ""
    · obtain ⟨e, he⟩ := text_of_empty hp s!"{path}.peerDid"
      exact ⟨e, by rw [channel, text_of_nonempty hl, he]; rfl⟩
    · have hd : c.localDid = c.peerDid := by
        by_contra hne
        exact h ⟨hl, hp, hne⟩
      refine ⟨⟨s!"{path} pairs a DID with itself"⟩, ?_⟩
      rw [channel, text_of_nonempty hl, text_of_nonempty hp]
      exact if_pos hd

/-- A valid fact passes validation as it is. -/
theorem validateFact_of_valid {f : ContinuityFact} (h : f.Valid) (path : String) :
    validateFact f path = .ok f := by
  match f, h with
  | .peerObservation c none, h =>
      simp [validateFact, channel_of_valid h, textOrNull, bind, Except.bind]
  | .peerObservation c (some d), ⟨hc, hd, hp, hl⟩ =>
      simp [validateFact, channel_of_valid hc, textOrNull, hd, hp, hl, bind,
        Except.bind, Except.map]
  | .peerEnding c, h =>
      simp [validateFact, channel_of_valid h, bind, Except.bind]
  | .localDecision c .ending, h =>
      simp [validateFact, channel_of_valid h, change, bind, Except.bind]
  | .localDecision c (.rotate d), ⟨hc, hd, hl, hp⟩ =>
      simp [validateFact, channel_of_valid hc, change, hd, hp, hl, bind,
        Except.bind, Except.map]

private theorem textOrNull_of_empty {d : Did} (h : d.text = "") (path : String) :
    ∃ e, textOrNull (some d) path = .error e := by
  obtain ⟨e, he⟩ := text_of_empty h path
  exact ⟨e, by rw [textOrNull, he]; rfl⟩

private theorem change_of_empty {d : Did} (h : d.text = "") (path : String) :
    ∃ e, change (.rotate d) path = .error e := by
  obtain ⟨e, he⟩ := text_of_empty h s!"{path}.successor"
  exact ⟨e, by rw [change, he]; rfl⟩

/-- A fact that is not valid is refused. -/
theorem validateFact_of_not_valid {f : ContinuityFact} (h : ¬ f.Valid) (path : String) :
    ∃ e, validateFact f path = .error e := by
  by_cases hat : f.at.Valid
  · match f, hat, h with
    | .peerObservation c none, hc, h => exact absurd hc h
    | .peerObservation c (some d), hat, h =>
        have hc : c.Valid := hat
        by_cases hd : d.text = ""
        · obtain ⟨e, he⟩ := textOrNull_of_empty hd s!"{path}.rotatedFrom"
          exact ⟨e, by rw [validateFact, channel_of_valid hc, he]; rfl⟩
        · simp only [validateFact, channel_of_valid hc, textOrNull,
            text_of_nonempty hd, bind, Except.bind, Except.map, Option.some.injEq]
          by_cases hp : d = c.peerDid
          · exact ⟨_, if_pos hp⟩
          · by_cases hl : d = c.localDid
            · exact ⟨_, by rw [if_neg hp, if_pos hl]⟩
            · exact absurd ⟨hc, hd, hp, hl⟩ h
    | .peerEnding c, hc, h => exact absurd hc h
    | .localDecision c .ending, hc, h => exact absurd hc h
    | .localDecision c (.rotate d), hat, h =>
        have hc : c.Valid := hat
        by_cases hd : d.text = ""
        · obtain ⟨e, he⟩ := change_of_empty hd s!"{path}.change"
          exact ⟨e, by rw [validateFact, channel_of_valid hc, he]; rfl⟩
        · simp only [validateFact, channel_of_valid hc, change,
            text_of_nonempty hd, bind, Except.bind, Except.map, Change.rotate.injEq]
          by_cases hl : d = c.localDid
          · exact ⟨_, if_pos hl⟩
          · by_cases hp : d = c.peerDid
            · exact ⟨_, by rw [if_neg hl, if_pos hp]⟩
            · exact absurd ⟨hc, hd, hl, hp⟩ h
  · obtain ⟨e, he⟩ := channel_of_not_valid hat s!"{path}.at"
    refine ⟨e, ?_⟩
    cases f <;> simp only [ContinuityFact.at] at he <;>
      simp only [validateFact, he, bind, Except.bind]

/-- Validation returns the fact it was given or refuses it, and refuses exactly
the facts that are not valid. -/
theorem validateFact_eq_ok {f g : ContinuityFact} {path : String} :
    validateFact f path = .ok g ↔ f.Valid ∧ f = g := by
  constructor
  · intro h
    by_cases hv : f.Valid
    · rw [validateFact_of_valid hv] at h
      exact ⟨hv, Except.ok.inj h⟩
    · obtain ⟨e, he⟩ := validateFact_of_not_valid hv path
      rw [he] at h
      cases h
  · rintro ⟨hv, rfl⟩
    exact validateFact_of_valid hv path

/-! ## Identity -/

/-- The RFC 8785 text of a fact: two facts with one identity are one fact. -/
abbrev FactIdentity := String

private def channelText (c : Channel) (rest : List Char) : List Char :=
  "\x7b\"localDid\":".toList ++ (JsonText.quote c.localDid.text.toList ++
    (",\"peerDid\":".toList ++ (JsonText.quote c.peerDid.text.toList ++
      ("\x7d".toList ++ rest))))

private def nullableText : Option Did → List Char
  | none => "null".toList
  | some d => JsonText.quote d.text.toList

private def changeText (rest : List Char) : Change → List Char
  | .ending => "\x7b\"kind\":\"end\"\x7d".toList ++ rest
  | .rotate d =>
      "\x7b\"kind\":\"rotate\",\"successor\":".toList ++
        (JsonText.quote d.text.toList ++ ("\x7d".toList ++ rest))

/-- The members after `at`, in the order of their names, and the closing
brace. -/
private def membersText : ContinuityFact → List Char
  | .peerObservation _ d =>
      ",\"kind\":\"peer-observation\",\"rotatedFrom\":".toList ++
        (nullableText d ++ "\x7d".toList)
  | .peerEnding _ => ",\"kind\":\"peer-ending\"".toList ++ "\x7d".toList
  | .localDecision _ decided =>
      ",\"change\":".toList ++ changeText ",\"kind\":\"local-decision\"\x7d".toList decided

/-- The identity of a fact already validated. -/
def identityOf (fact : ContinuityFact) : FactIdentity :=
  String.ofList ("\x7b\"at\":".toList ++ channelText fact.at (membersText fact))

private theorem channelText_inj {c c' : Channel} {r r' : List Char}
    (h : channelText c r = channelText c' r') : c = c' ∧ r = r' := by
  obtain ⟨hl, h⟩ := JsonText.quote_append_inj (List.append_cancel_left h)
  obtain ⟨hp, h⟩ := JsonText.quote_append_inj (List.append_cancel_left h)
  exact ⟨Channel.ext (Did.text_injective (String.toList_injective hl))
    (Did.text_injective (String.toList_injective hp)), List.append_cancel_left h⟩

/-- Two literals that differ at `n` tell the texts they begin apart. -/
private theorem ne_of_getElem? {a b : List Char} (n : Nat)
    (h : a[n]?.isSome ∧ b[n]?.isSome ∧ a[n]? ≠ b[n]?) (s t : List Char) :
    a ++ s ≠ b ++ t := by
  obtain ⟨ha, hb, hne⟩ := h
  rw [Option.isSome_iff_exists] at ha hb
  obtain ⟨x, hx⟩ := ha
  obtain ⟨y, hy⟩ := hb
  intro heq
  apply hne
  have h' := congrArg (fun l => l[n]?) heq
  simp only [List.getElem?_append_left (List.getElem?_eq_some_iff.mp hx).1,
    List.getElem?_append_left (List.getElem?_eq_some_iff.mp hy).1] at h'
  exact h'

private theorem nullableText_inj {d e : Option Did} {r r' : List Char}
    (h : nullableText d ++ r = nullableText e ++ r') : d = e := by
  have hnull : ∀ (x : List Char) (s t : List Char), JsonText.quote x ++ s ≠ "null".toList ++ t := by
    intro x s t h
    have h' := congrArg List.head? h
    rw [List.head?_append, List.head?_append,
      show "null".toList.head? = some 'n' by decide] at h'
    simp only [JsonText.quote, List.head?_cons, Option.some_or, Option.some.injEq] at h'
    exact absurd h' (by decide)
  cases d with
  | none =>
      cases e with
      | none => rfl
      | some b => exact absurd h.symm (hnull _ _ _)
  | some a =>
      cases e with
      | none => exact absurd h (hnull _ _ _)
      | some b =>
          obtain ⟨hab, _⟩ := JsonText.quote_append_inj h
          rw [Did.text_injective (String.toList_injective hab)]

private theorem changeText_inj {c c' : Change} {r : List Char}
    (h : changeText r c = changeText r c') : c = c' := by
  match c, c', h with
  | .ending, .ending, _ => rfl
  | .ending, .rotate _, h => exact absurd h (ne_of_getElem? 9 (by decide) _ _)
  | .rotate _, .ending, h => exact absurd h (ne_of_getElem? 9 (by decide) _ _)
  | .rotate a, .rotate b, h =>
      obtain ⟨hab, _⟩ := JsonText.quote_append_inj (List.append_cancel_left h)
      rw [Did.text_injective (String.toList_injective hab)]

/-- The identity the model gives a fact; throws for a value the profile refuses. -/
def factIdentity (fact : ContinuityFact) : Except InvalidFact FactIdentity := do
  let fact ← validateFact fact "fact"
  pure (identityOf fact)

/-- Two facts with one identity are one fact. -/
theorem identityOf_injective : Function.Injective identityOf := by
  intro f g h
  obtain ⟨hat, h⟩ := channelText_inj
    (List.append_cancel_left (String.ofList_injective h))
  match f, g, hat, h with
  | .peerObservation c _, .peerObservation c' _, hat, h =>
      rw [show c = c' from hat, nullableText_inj (List.append_cancel_left h)]
  | .peerEnding c, .peerEnding c', hat, _ => rw [show c = c' from hat]
  | .localDecision c _, .localDecision c' _, hat, h =>
      rw [show c = c' from hat, changeText_inj (List.append_cancel_left h)]
  | .peerObservation _ _, .peerEnding _, _, h
  | .peerEnding _, .peerObservation _ _, _, h =>
      exact absurd h (ne_of_getElem? 14 (by decide) _ _)
  | .peerObservation _ _, .localDecision _ _, _, h
  | .localDecision _ _, .peerObservation _ _, _, h
  | .peerEnding _, .localDecision _ _, _, h
  | .localDecision _ _, .peerEnding _, _, h =>
      exact absurd h (ne_of_getElem? 2 (by decide) _ _)

end Estoc.Continuity
