import Mathlib.Data.List.Pairwise
import Mathlib.Tactic.Common

/-!
# Tables with uniqueness constraints

A table is a list of rows no two of which are in conflict. The relation `conflict` gathers the
primary key and every unique index of the table: two rows conflict when they agree on one of them.
The operations are the ones a relational engine offers on such a table, and each returns a table, so
no sequence of them can break a constraint.
-/

universe u

/-- Rows in insertion order, pairwise free of `conflict`. -/
structure Table {α : Type u} (conflict : α → α → Prop) where
  rows : List α
  unique : rows.Pairwise fun a b => ¬ conflict a b

namespace Table

variable {α : Type u} {conflict : α → α → Prop}

instance : Membership α (Table conflict) where
  mem table row := row ∈ table.rows

theorem mem_def {table : Table conflict} {row : α} : row ∈ table ↔ row ∈ table.rows := Iff.rfl

@[ext]
theorem ext {left right : Table conflict} (h : left.rows = right.rows) : left = right := by
  cases left
  cases right
  cases h
  rfl

instance [DecidableEq α] : DecidableEq (Table conflict) := fun _ _ =>
  decidable_of_iff _ ⟨Table.ext, congrArg rows⟩

def empty : Table conflict := ⟨[], .nil⟩

@[simp]
theorem rows_empty : (empty : Table conflict).rows = [] := rfl

@[simp]
theorem not_mem_empty (row : α) : row ∉ (empty : Table conflict) := by
  simp [mem_def]

/-- Two rows of a table that agree on a key are the same row. -/
theorem eq_of_conflict [Std.Symm conflict] {table : Table conflict} {a b : α}
    (ha : a ∈ table) (hb : b ∈ table) (hconflict : conflict a b) : a = b := by
  by_contra hne
  have : Std.Symm fun a b => ¬ conflict a b := ⟨fun a b hab hba => hab (Std.Symm.symm b a hba)⟩
  exact table.unique.forall ha hb hne hconflict

theorem nodup [Std.Refl conflict] (table : Table conflict) : table.rows.Nodup := by
  apply table.unique.imp
  rintro a b hab rfl
  exact hab (Std.Refl.refl a)

/-! ### Reading -/

def find? (table : Table conflict) (p : α → Bool) : Option α := table.rows.find? p

/-- A condition that only rows in conflict share selects at most one row. -/
theorem find?_eq_some_iff [Std.Symm conflict] {table : Table conflict} {p : α → Bool} {row : α}
    (hp : ∀ a b, p a → p b → conflict a b) :
    table.find? p = some row ↔ row ∈ table ∧ p row := by
  constructor
  · intro hfind
    exact ⟨List.mem_of_find?_eq_some hfind, List.find?_some hfind⟩
  · rintro ⟨hmem, hrow⟩
    cases hfind : table.find? p with
    | none => exact absurd hrow (by simpa using List.find?_eq_none.mp hfind row hmem)
    | some found =>
        have hconflict := hp found row (List.find?_some hfind) hrow
        rw [eq_of_conflict (List.mem_of_find?_eq_some hfind) hmem hconflict]

theorem find?_eq_none_iff {table : Table conflict} {p : α → Bool} :
    table.find? p = none ↔ ∀ row ∈ table, p row = false := by
  simp [find?, mem_def]

/-! ### Writing -/

section Insert

variable [DecidableRel conflict]

/-- `INSERT`: fails when the new row violates a constraint. -/
def insert? (table : Table conflict) (row : α) : Option (Table conflict) :=
  if h : ∀ other ∈ table.rows, ¬ conflict other row then
    some ⟨table.rows ++ [row], by
      rw [List.pairwise_append]
      exact ⟨table.unique, by simp, by simpa using h⟩⟩
  else
    none

theorem insert?_eq_some_iff {table after : Table conflict} {row : α} :
    table.insert? row = some after ↔
      (∀ other ∈ table, ¬ conflict other row) ∧ after.rows = table.rows ++ [row] := by
  unfold insert?
  split
  · rename_i h
    simp only [Option.some.injEq]
    constructor
    · rintro rfl
      exact ⟨h, rfl⟩
    · rintro ⟨-, hrows⟩
      exact Table.ext hrows.symm
  · rename_i h
    simp only [reduceCtorEq, false_iff, not_and]
    exact fun hfree => absurd hfree h

theorem insert?_eq_none_iff {table : Table conflict} {row : α} :
    table.insert? row = none ↔ ∃ other ∈ table, conflict other row := by
  unfold insert?
  split
  · rename_i h
    simp only [reduceCtorEq, false_iff, not_exists, not_and]
    exact h
  · rename_i h
    push Not at h
    simpa [mem_def] using h

/-- `INSERT OR REPLACE`: the rows in conflict with the new one give way to it. -/
def replace (table : Table conflict) (row : α) : Table conflict :=
  ⟨table.rows.filter (fun other => ¬ conflict other row) ++ [row], by
    rw [List.pairwise_append]
    refine ⟨table.unique.filter _, by simp, ?_⟩
    intro other hother inserted hinserted
    rw [List.mem_singleton.mp hinserted]
    simpa using (List.mem_filter.mp hother).2⟩

@[simp]
theorem rows_replace (table : Table conflict) (row : α) :
    (table.replace row).rows = table.rows.filter (fun other => ¬ conflict other row) ++ [row] := rfl

theorem mem_replace {table : Table conflict} {row other : α} :
    other ∈ table.replace row ↔ other ∈ table ∧ ¬ conflict other row ∨ other = row := by
  simp [mem_def]

end Insert

/-- `DELETE … WHERE p`. -/
def delete (table : Table conflict) (p : α → Bool) : Table conflict :=
  ⟨table.rows.filter (fun row => ! p row), table.unique.filter _⟩

@[simp]
theorem rows_delete (table : Table conflict) (p : α → Bool) :
    (table.delete p).rows = table.rows.filter (fun row => ! p row) := rfl

theorem mem_delete {table : Table conflict} {p : α → Bool} {row : α} :
    row ∈ table.delete p ↔ row ∈ table ∧ p row = false := by
  simp [mem_def]

/-- `UPDATE`, for a change that touches no key. -/
def update (table : Table conflict) (f : α → α)
    (hkeys : ∀ a b, conflict (f a) (f b) → conflict a b) : Table conflict :=
  ⟨table.rows.map f, List.pairwise_map.mpr (table.unique.imp fun hab h => hab (hkeys _ _ h))⟩

@[simp]
theorem rows_update (table : Table conflict) (f : α → α)
    (hkeys : ∀ a b, conflict (f a) (f b) → conflict a b) :
    (table.update f hkeys).rows = table.rows.map f := rfl

theorem mem_update {table : Table conflict} {f : α → α}
    {hkeys : ∀ a b, conflict (f a) (f b) → conflict a b} {row : α} :
    row ∈ table.update f hkeys ↔ ∃ old ∈ table, f old = row := by
  simp [mem_def]

def map {β : Type*} {conflict' : β → β → Prop} (table : Table conflict) (f : α → β)
    (hkeys : ∀ a b, conflict' (f a) (f b) → conflict a b) : Table conflict' :=
  ⟨table.rows.map f, List.pairwise_map.mpr (table.unique.imp fun hab h => hab (hkeys _ _ h))⟩

@[simp]
theorem rows_map {β : Type*} {conflict' : β → β → Prop} (table : Table conflict) (f : α → β)
    (hkeys : ∀ a b, conflict' (f a) (f b) → conflict a b) :
    (table.map f hkeys).rows = table.rows.map f := rfl

end Table
