import Estoc.Lib.Checked

/-!
# Batches of statements

A batch is a list of statements that runs in order as one transaction: it lands whole
or not at all. Foreign keys are checked as each statement ends, or, once they are
deferred, when the batch commits. A table is the list of its rows in the order they
were inserted; what a database's tables are, and which keys they refer to each other
by, is a parameter.
-/

set_option linter.unusedSectionVars false

namespace Sql

open Checked (bind_eq_ok)

/-- Why a batch did not land. -/
inductive Fault where
  | unique
  | foreignKey
deriving DecidableEq

/-! ## Rows -/

section
variable {ρ : Type}

/-- Insert a row that clashes with none. -/
def insert (clash : ρ → ρ → Bool) (row : ρ) (table : List ρ) : Except Fault (List ρ) :=
  if table.any (clash row) then .error .unique else .ok (table ++ [row])

/-- Insert a row unless it clashes with one. -/
def insertOrIgnore (clash : ρ → ρ → Bool) (row : ρ) (table : List ρ) : List ρ :=
  if table.any (clash row) then table else table ++ [row]

/-- Insert rows one after the other. -/
def insertAll (clash : ρ → ρ → Bool) : (rows table : List ρ) → Except Fault (List ρ)
  | [], table => .ok table
  | row :: rows, table => do
    let table ← insert clash row table
    insertAll clash rows table

def delete (which : ρ → Bool) (table : List ρ) : List ρ := table.filter fun row => !which row

def update (which : ρ → Bool) (change : ρ → ρ) (table : List ρ) : List ρ :=
  table.map fun row => if which row then change row else row

theorem insert_eq_ok {clash : ρ → ρ → Bool} {row : ρ} {table result : List ρ}
    (h : insert clash row table = .ok result) :
    table.any (clash row) = false ∧ result = table ++ [row] := by
  unfold insert at h
  split at h
  · cases h
  · next hclash =>
      cases h
      exact ⟨by simpa using hclash, rfl⟩

theorem insertAll_eq_ok {clash : ρ → ρ → Bool} {rows table result : List ρ}
    (h : insertAll clash rows table = .ok result) :
    result = table ++ rows ∧ (∀ row ∈ rows, table.any (clash row) = false) ∧
      rows.Pairwise fun a b => clash b a = false := by
  induction rows generalizing table with
  | nil =>
      cases h
      exact ⟨(List.append_nil _).symm, fun _ h => (by cases h), .nil⟩
  | cons row rows ih =>
      rw [insertAll, bind_eq_ok] at h
      obtain ⟨table', hrow, h⟩ := h
      obtain ⟨hclash, rfl⟩ := insert_eq_ok hrow
      obtain ⟨rfl, hrows, hpairwise⟩ := ih h
      simp only [List.any_append, Bool.or_eq_false_iff, List.any_cons, List.any_nil,
        Bool.or_false] at hrows
      refine ⟨by simp, List.forall_mem_cons.mpr ⟨hclash, fun r hr => (hrows r hr).1⟩, ?_⟩
      exact List.pairwise_cons.mpr ⟨fun r hr => (hrows r hr).2, hpairwise⟩

theorem mem_insertOrIgnore {clash : ρ → ρ → Bool} {row r : ρ} {table : List ρ}
    (h : r ∈ insertOrIgnore clash row table) :
    r ∈ table ∨ r = row ∧ table.any (clash row) = false := by
  unfold insertOrIgnore at h
  split at h
  · exact .inl h
  · next hclash =>
      rcases List.mem_append.mp h with h | h
      · exact .inl h
      · exact .inr ⟨List.mem_singleton.mp h, by simpa using hclash⟩

@[simp] theorem mem_delete {which : ρ → Bool} {table : List ρ} {row : ρ} :
    row ∈ delete which table ↔ row ∈ table ∧ which row = false := by
  simp [delete]

theorem mem_update {which : ρ → Bool} {change : ρ → ρ} {table : List ρ} {row : ρ} :
    row ∈ update which change table ↔
      ∃ r ∈ table, (if which r then change r else r) = row := List.mem_map

end

/-! ## Transactions -/

/-- A database inside a transaction. -/
structure Tx (Db : Type) where
  db : Db
  deferred : Bool

/-- Statements, and what is made of their rows. -/
abbrev Batch (Db α : Type) := StateT (Tx Db) (Except Fault) α

section
variable {Db α β : Type} (keys : Db → Bool)

def select (read : Db → α) : Batch Db α := fun t => .ok (read t.db, t)

/-- A statement that writes: its foreign keys hold when it ends, unless deferred. -/
def write (change : Db → Except Fault Db) : Batch Db Unit := fun t => do
  let db ← change t.db
  Checked.refuse (t.deferred = false ∧ keys db = false) .foreignKey
  pure ((), { t with db })

def deferForeignKeys : Batch Db Unit := fun t => .ok ((), { t with deferred := true })

/-- The batch as one transaction: what it made, and the database after it. -/
def transaction (batch : Batch Db α) (db : Db) : Except Fault (α × Db) := do
  let (a, t) ← batch ⟨db, false⟩
  Checked.refuse (keys t.db = false) .foreignKey
  pure (a, t.db)

variable {keys}

theorem bind_ok {x : Batch Db α} {f : α → Batch Db β} {t t' : Tx Db} {b : β} :
    (x >>= f) t = .ok (b, t') ↔ ∃ a s, x t = .ok (a, s) ∧ f a s = .ok (b, t') := by
  have hbind : (x >>= f) t = (x t >>= fun p => f p.1 p.2) := rfl
  rw [hbind, bind_eq_ok]
  exact ⟨fun ⟨p, hx, hf⟩ => ⟨p.1, p.2, hx, hf⟩, fun ⟨a, s, hx, hf⟩ => ⟨(a, s), hx, hf⟩⟩

theorem select_ok {read : Db → α} {t t' : Tx Db} {a : α}
    (h : select read t = .ok (a, t')) : a = read t.db ∧ t' = t := by
  cases h
  exact ⟨rfl, rfl⟩

theorem select_bind_ok {read : Db → α} {f : α → Batch Db β} {t t' : Tx Db} {b : β} :
    (select read >>= f) t = .ok (b, t') ↔ f (read t.db) t = .ok (b, t') := by
  rw [bind_ok]
  refine ⟨fun ⟨a, s, hs, hf⟩ => ?_, fun hf => ⟨_, _, rfl, hf⟩⟩
  obtain ⟨ha, hst⟩ := select_ok hs
  rw [← ha, ← hst]
  exact hf

theorem write_ok {change : Db → Except Fault Db} {t t' : Tx Db} {u : Unit}
    (h : write keys change t = .ok (u, t')) :
    change t.db = .ok t'.db ∧ t'.deferred = t.deferred := by
  rw [write, bind_eq_ok] at h
  obtain ⟨db, hdb, h⟩ := h
  rw [Checked.refuse_bind_eq_ok] at h
  cases h.2
  exact ⟨hdb, rfl⟩

theorem defer_ok {t t' : Tx Db} {u : Unit} (h : deferForeignKeys t = .ok (u, t')) :
    t'.db = t.db := by
  cases h
  rfl

theorem pure_ok {a b : α} {t t' : Tx Db} (h : (pure a : Batch Db α) t = .ok (b, t')) :
    b = a ∧ t' = t := by
  cases h
  exact ⟨rfl, rfl⟩

/-! What a batch leaves alone is what each of its statements leaves alone. -/

section
variable {γ : Type} {part : Db → γ}

/-- Where the batch returns, a part of the database is as it was. -/
def Keeps (part : Db → γ) (batch : Batch Db α) : Prop :=
  ∀ t a t', batch t = .ok (a, t') → part t'.db = part t.db

theorem keeps_pure (a : α) : Keeps part (pure a : Batch Db α) := by
  intro t b t' h
  rw [(pure_ok h).2]

theorem keeps_select_bind {read : Db → α} {f : α → Batch Db β} (h : ∀ a, Keeps part (f a)) :
    Keeps part (select read >>= f) := fun t b t' hrun => h _ t b t' (select_bind_ok.mp hrun)

theorem keeps_write {change : Db → Except Fault Db}
    (h : ∀ db db', change db = .ok db' → part db' = part db) : Keeps part (write keys change) :=
  fun t _ t' hrun => h t.db t'.db (write_ok hrun).1

theorem keeps_bind {x : Batch Db α} {f : α → Batch Db β} (hx : Keeps part x)
    (hf : ∀ a, Keeps part (f a)) : Keeps part (x >>= f) := by
  intro t b t' h
  obtain ⟨a, s, hs, h⟩ := bind_ok.mp h
  exact (hf a s b t' h).trans (hx t a s hs)

end

/-- What landed is what the batch left, with its foreign keys in order. -/
theorem transaction_ok {batch : Batch Db α} {db db' : Db} {a : α}
    (h : transaction keys batch db = .ok (a, db')) :
    (∃ t, batch ⟨db, false⟩ = .ok (a, t) ∧ t.db = db') ∧ keys db' = true := by
  rw [transaction, bind_eq_ok] at h
  obtain ⟨⟨a', t⟩, ht, h⟩ := h
  rw [Checked.refuse_bind_eq_ok] at h
  obtain ⟨hkeys, h⟩ := h
  cases h
  exact ⟨⟨t, ht, rfl⟩, by simpa using hkeys⟩

end

end Sql
