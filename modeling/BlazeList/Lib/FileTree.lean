import Mathlib.Logic.Relation
import Mathlib.Tactic.Common

/-!
# Directories and paths

A name in a directory leads to a file or to a directory, and links count as what they lead to. Every directory has
a parent. A path goes from a directory step by step. Where it never goes up, what it finds depends on nothing but
the directories below the one it starts from.
-/

universe u v w

/-- Directories with what the names in them lead to, and their parents. -/
inductive FileTree.Entry (δ : Type u) (β : Type w) where
  | dir (dir : δ)
  | file (content : β)

structure FileTree (δ : Type u) (ν : Type v) (β : Type w) where
  entry : δ → ν → Option (FileTree.Entry δ β)
  parent : δ → δ

namespace FileTree

inductive Step (ν : Type v) where
  | stay
  | up
  | down (name : ν)
  deriving DecidableEq

variable {δ : Type u} {ν : Type v} {β : Type w} {tree other : FileTree δ ν β} {dir sub : δ}
  {steps : List (Step ν)}

/-- What a path leads to. After a file it has to end. -/
def walk (tree : FileTree δ ν β) : δ → List (Step ν) → Option (Entry δ β)
  | dir, [] => some (.dir dir)
  | dir, .stay :: rest => walk tree dir rest
  | dir, .up :: rest => walk tree (tree.parent dir) rest
  | dir, .down name :: rest =>
      match tree.entry dir name with
      | some (.dir sub) => walk tree sub rest
      | some (.file content) => if rest.isEmpty then some (.file content) else none
      | none => none

def readFile (tree : FileTree δ ν β) (dir : δ) (steps : List (Step ν)) : Option β :=
  match tree.walk dir steps with
  | some (.file content) => some content
  | _ => none

def Below (tree : FileTree δ ν β) : δ → δ → Prop :=
  Relation.ReflTransGen fun dir sub => ∃ name, tree.entry dir name = some (.dir sub)

/-- Two trees have the same in every directory below this one. -/
def AgreeBelow (tree other : FileTree δ ν β) (dir : δ) : Prop :=
  ∀ sub, tree.Below dir sub → tree.entry sub = other.entry sub

theorem AgreeBelow.descend (h : AgreeBelow tree other dir) {name : ν}
    (hentry : tree.entry dir name = some (.dir sub)) : AgreeBelow tree other sub :=
  fun last hlast => h last (.head ⟨name, hentry⟩ hlast)

/-- A path that never goes up finds the same in both. -/
theorem AgreeBelow.walk (h : AgreeBelow tree other dir) (hup : ∀ step ∈ steps, step ≠ .up) :
    tree.walk dir steps = other.walk dir steps := by
  induction steps generalizing dir with
  | nil => rfl
  | cons step rest ih =>
      have hrest : ∀ step ∈ rest, step ≠ .up := fun step hstep => hup step (List.mem_cons_of_mem _ hstep)
      cases step with
      | stay => exact ih h hrest
      | up => exact absurd rfl (hup .up List.mem_cons_self)
      | down name =>
          have hentry : tree.entry dir name = other.entry dir name := congrFun (h dir .refl) name
          rw [FileTree.walk, FileTree.walk, ← hentry]
          cases hfound : tree.entry dir name with
          | none => rfl
          | some entry =>
              cases entry with
              | file content => rfl
              | dir sub => exact ih (h.descend hfound) hrest

theorem AgreeBelow.readFile (h : AgreeBelow tree other dir) (hup : ∀ step ∈ steps, step ≠ .up) :
    tree.readFile dir steps = other.readFile dir steps := by
  rw [FileTree.readFile, FileTree.readFile, h.walk hup]

end FileTree
