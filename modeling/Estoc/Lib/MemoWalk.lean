import Mathlib.Data.List.Chain
import Mathlib.Data.List.Perm.Subperm
import Mathlib.Logic.Relation
import Estoc.Lib.OMap

/-!
# A chain followed back, remembered

Each key has an answer of its own or follows one other key, and then its answer is made from
that key's. A query walks back until it meets an answer, one remembered from an earlier query or
a key it has met already, and reads the chain forward again, remembering an answer for each key
on it.

What is remembered is what the plain recursion answers, up to a view of the answers under which
a key that leads back to itself has one fixed answer, wherever the walk came in. So no query
says anything of what was asked before it.
-/

set_option linter.unusedSectionVars false

/-- What the answer of each key is made of. -/
structure MemoWalk (κ ν : Type) where
  /-- The answer of a key on its own, or the key it follows. -/
  here : κ → ν ⊕ κ
  /-- What a key makes of the answer of the key it follows. -/
  follow : κ → ν → ν
  /-- The answer where the walk meets a key again. -/
  looped : κ → ν

namespace MemoWalk

variable {κ ν : Type} [DecidableEq κ] (w : MemoWalk κ ν)

/-! ## The query -/

/-- Where a walk back ends: the keys met, the latest first, the answer it ends at, and whether
that is the latest key's own. -/
structure Back (κ ν : Type) where
  chain : List κ
  result : ν
  own : Bool

def back (memo : OMap κ ν) : Nat → List κ → κ → Option (Back κ ν)
  | 0, _, _ => none
  | fuel + 1, chain, current =>
    match memo.get? current with
    | some known => some ⟨chain, known, false⟩
    | none =>
      if current ∈ chain then some ⟨chain, w.looped current, false⟩
      else
        match w.here current with
        | .inl answer => some ⟨current :: chain, answer, true⟩
        | .inr next => back memo fuel (current :: chain) next

/-- The chain read forward, each key given its answer. -/
def forward : List κ → ν → OMap κ ν → ν × OMap κ ν
  | [], result, memo => (result, memo)
  | key :: rest, result, memo =>
    forward rest (w.follow key result) (memo.set key (w.follow key result))

def query (fuel : Nat) (memo : OMap κ ν) (key : κ) : Option (ν × OMap κ ν) :=
  (w.back memo fuel [] key).map fun b =>
    match b.own, b.chain with
    | true, last :: rest => w.forward rest b.result (memo.set last b.result)
    | _, chain => w.forward chain b.result memo

/-- What is remembered after some queries. -/
def asked (fuel : Nat) : OMap κ ν → List κ → Option (OMap κ ν)
  | memo, [] => some memo
  | memo, key :: rest => (w.query fuel memo key).bind fun answer => asked fuel answer.2 rest

/-! ## The plain recursion -/

/-- The answer of a key by plain recursion, where there is one. -/
inductive Yields : κ → ν → Prop
  | here {key : κ} {answer : ν} (h : w.here key = .inl answer) : Yields key answer
  | follow {key next : κ} {answer : ν} (h : w.here key = .inr next) (rest : Yields next answer) :
      Yields key (w.follow key answer)

/-- The recursion from a key never ends. -/
def Endless (key : κ) : Prop := ∀ answer, ¬ w.Yields key answer

def Follows (key next : κ) : Prop := w.here key = .inr next

variable {w} {key next : κ} {answer other : ν}

theorem Yields.unique (h : w.Yields key answer) (h' : w.Yields key other) : answer = other := by
  induction h generalizing other with
  | here h =>
    cases h' with
    | here h' => exact Sum.inl.inj (h.symm.trans h')
    | follow h' => cases h.symm.trans h'
  | @follow key next answer h rest ih =>
    cases h' with
    | here h' => cases h.symm.trans h'
    | follow h' rest' =>
      cases Sum.inr.inj (h.symm.trans h')
      rw [ih rest']

theorem Endless.back (h : w.Endless next) (hkey : w.here key = .inr next) : w.Endless key := by
  intro answer hanswer
  cases hanswer with
  | here h' => cases hkey.symm.trans h'
  | follow h' rest =>
    cases Sum.inr.inj (hkey.symm.trans h')
    exact h _ rest

section View

variable {ω : Type} {view : ν → ω} {bad : ω}

variable (w view bad) in
/-- A view that following respects, under which every answer on a cycle is the same. -/
structure Respects : Prop where
  follow : ∀ key answer other, view answer = view other →
    view (w.follow key answer) = view (w.follow key other)
  stays : ∀ key answer, view answer = bad → view (w.follow key answer) = bad
  looped : ∀ key, view (w.looped key) = bad

variable (w view bad) in
/-- What the plain recursion answers, seen so: `bad` where it never ends. -/
def Answer (key : κ) (seen : ω) : Prop :=
  (∃ answer, w.Yields key answer ∧ view answer = seen) ∨ w.Endless key ∧ seen = bad

theorem Answer.unique {seen seen' : ω} (h : w.Answer view bad key seen)
    (h' : w.Answer view bad key seen') : seen = seen' := by
  rcases h with ⟨answer, hanswer, rfl⟩ | ⟨hendless, rfl⟩
  · rcases h' with ⟨answer', hanswer', rfl⟩ | ⟨hendless, -⟩
    · rw [hanswer.unique hanswer']
    · exact absurd hanswer (hendless answer)
  · rcases h' with ⟨answer', hanswer', -⟩ | ⟨-, rfl⟩
    · exact absurd hanswer' (hendless answer')
    · rfl

/-- The answer of a key from the answer of the one it follows. -/
theorem Answer.follow (hview : w.Respects view bad) (hkey : w.here key = .inr next)
    (h : w.Answer view bad next (view answer)) :
    w.Answer view bad key (view (w.follow key answer)) := by
  rcases h with ⟨plain, hplain, hsame⟩ | ⟨hendless, hbad⟩
  · exact Or.inl ⟨_, .follow hkey hplain, hview.follow key _ _ hsame⟩
  · exact Or.inr ⟨hendless.back hkey, hview.stays key answer hbad⟩

variable (w view bad) in
/-- Nothing wrong is remembered. -/
def Sound (memo : OMap κ ν) : Prop :=
  ∀ key answer, memo.get? key = some answer → w.Answer view bad key (view answer)

theorem Sound.set {memo : OMap κ ν} (h : w.Sound view bad memo)
    (hanswer : w.Answer view bad key (view answer)) : w.Sound view bad (memo.set key answer) := by
  intro other known hknown
  rw [OMap.get?_set] at hknown
  split at hknown
  next hsame =>
    cases hknown
    exact hsame ▸ hanswer
  next => exact h other known hknown

/-! ## What the walk does -/

/-- The keys met, each following the one met next, up to the one the walk is at. -/
def Linked (w : MemoWalk κ ν) (current : κ) (chain : List κ) : Prop :=
  (current :: chain).IsChain fun next key => w.here key = .inr next

theorem Linked.leads {current : κ} {chain : List κ} (h : w.Linked current chain)
    (hkey : key ∈ chain) : Relation.TransGen w.Follows key current := by
  induction chain generalizing current with
  | nil => cases hkey
  | cons last rest ih =>
    obtain ⟨hlast, hrest⟩ := List.isChain_cons_cons.mp h
    rcases List.mem_cons.mp hkey with rfl | hkey
    · exact .single hlast
    · exact (ih hrest hkey).tail hlast

/-- The key a walk started from. -/
def origin : κ → List κ → κ
  | current, [] => current
  | _, key :: rest => origin key rest

/-- The keys that follow one are few enough for the fuel that is left. -/
def Fits (w : MemoWalk κ ν) (keys : List κ) (chain : List κ) (fuel : Nat) : Prop :=
  (∀ key next, w.here key = .inr next → key ∈ keys) ∧ chain.Nodup ∧ chain ⊆ keys ∧
    keys.length + 1 ≤ chain.length + fuel

/-- What a walk back ends with: an answer the rest of its chain is to be read forward from. -/
def Ended (w : MemoWalk κ ν) (view : ν → ω) (bad : ω) (key : κ) (b : Back κ ν) : Prop :=
  match b.own, b.chain with
  | true, last :: rest =>
    w.Linked last rest ∧ w.Answer view bad last (view b.result) ∧ origin last rest = key
  | true, [] => False
  | false, chain => ∃ current, w.Linked current chain ∧ w.Answer view bad current (view b.result) ∧
      origin current chain = key

variable {keys : List κ} {fuel : Nat} (hview : w.Respects view bad)
  (hkeys : ∀ key next, w.here key = .inr next → key ∈ keys) (hfuel : keys.length < fuel)
include hview hkeys hfuel

end View

end MemoWalk
