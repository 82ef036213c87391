import Mathlib.Data.List.Range
import Mathlib.Data.List.Nodup
import Mathlib.Data.List.Perm.Basic

/-!
# Promises

Promises are handed out by number, and a promise once settled stays so. A ledger is how many were
handed out and how each was settled, in the order it was. What a component keeps of the promises
that are open is a list; the ledger keeps with it (`Ledger.Keeps`) when each promise handed out is
in one of the two, and there once.
-/

namespace Promises

structure Ledger (α : Type) where
  handed : Nat
  settled : List (Nat × α)
deriving DecidableEq

variable {α : Type} {ledger : Ledger α} {awaited awaited' : List Nat} {promise : Nat} {a : α}

namespace Ledger

def empty : Ledger α := ⟨0, []⟩

/-- The promise handed out next is named by how many were handed out before. -/
def hand (ledger : Ledger α) : Ledger α := { ledger with handed := ledger.handed + 1 }

def settleAll (ledger : Ledger α) (settled : List (Nat × α)) : Ledger α :=
  { ledger with settled := ledger.settled ++ settled }

def settle (ledger : Ledger α) (promise : Nat) (a : α) : Ledger α := ledger.settleAll [(promise, a)]

/-- A promise handed out settled. -/
def handSettled (ledger : Ledger α) (a : α) : Ledger α := ledger.hand.settle ledger.handed a

/-- Each promise handed out is awaited or settled, and is so once. -/
def Keeps (ledger : Ledger α) (awaited : List Nat) : Prop :=
  (awaited ++ ledger.settled.map Prod.fst).Perm (List.range ledger.handed)

theorem keeps_empty : (empty : Ledger α).Keeps [] := List.Perm.refl _

theorem Keeps.perm (h : ledger.Keeps awaited) (hperm : awaited'.Perm awaited) : ledger.Keeps awaited' :=
  (hperm.append_right _).trans h

theorem Keeps.hand (h : ledger.Keeps awaited) : ledger.hand.Keeps (ledger.handed :: awaited) := by
  have hrange : (List.range ledger.hand.handed) = List.range ledger.handed ++ [ledger.handed] :=
    List.range_succ
  unfold Keeps
  rw [hrange]
  exact (List.Perm.cons _ h).trans (List.perm_append_singleton _ _).symm

theorem Keeps.settleAll {settled : List (Nat × α)} (h : ledger.Keeps (settled.map Prod.fst ++ awaited)) :
    (ledger.settleAll settled).Keeps awaited := by
  refine List.Perm.trans ?_ h
  rw [Ledger.settleAll, List.map_append, ← List.append_assoc]
  exact List.perm_append_comm.trans (by rw [← List.append_assoc])

theorem Keeps.settle (h : ledger.Keeps (promise :: awaited)) : (ledger.settle promise a).Keeps awaited :=
  @Keeps.settleAll _ _ _ [(promise, a)] h

theorem Keeps.handSettled (h : ledger.Keeps awaited) : (ledger.handSettled a).Keeps awaited :=
  h.hand.settle

/-- No promise is settled twice. -/
theorem Keeps.nodup (h : ledger.Keeps awaited) : (ledger.settled.map Prod.fst).Nodup :=
  List.Nodup.of_append_right (h.nodup_iff.mpr List.nodup_range)

theorem Keeps.not_settled (h : ledger.Keeps awaited) (hawaited : promise ∈ awaited) :
    promise ∉ ledger.settled.map Prod.fst := fun hsettled =>
  List.disjoint_of_nodup_append (h.nodup_iff.mpr List.nodup_range) hawaited hsettled

theorem Keeps.mem_iff (h : ledger.Keeps awaited) : promise < ledger.handed ↔
    promise ∈ awaited ∨ promise ∈ ledger.settled.map Prod.fst := by
  rw [← List.mem_range, ← List.Perm.mem_iff h, List.mem_append]

/-- Where none is awaited all are settled. -/
theorem Keeps.settled_of_none (h : ledger.Keeps []) (hpromise : promise < ledger.handed) :
    promise ∈ ledger.settled.map Prod.fst :=
  (h.mem_iff.mp hpromise).resolve_left List.not_mem_nil

end Ledger

end Promises
