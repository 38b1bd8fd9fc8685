import Mathlib.Logic.Function.Iterate
import Mathlib.Tactic.Common

/-!
# Visited entries

What has been visited, as a browser keeps it: the entries behind the current one, nearest first, and those
ahead of it. A visit of something new forgets what was ahead.
-/

universe u

structure Visits (α : Type u) where
  back : List α
  current : α
  forward : List α

namespace Visits

variable {α : Type u}

def start (entry : α) : Visits α := ⟨[], entry, []⟩

/-- A visit of the current entry is none. -/
def visit [DecidableEq α] (visits : Visits α) (entry : α) : Visits α :=
  if entry = visits.current then visits else ⟨visits.current :: visits.back, entry, []⟩

def goBack (visits : Visits α) : Visits α :=
  match visits.back with
  | [] => visits
  | entry :: rest => ⟨rest, entry, visits.current :: visits.forward⟩

def goForward (visits : Visits α) : Visits α :=
  match visits.forward with
  | [] => visits
  | entry :: rest => ⟨visits.current :: visits.back, entry, rest⟩

/-- What is reached by going back, the current entry first. -/
def stack (visits : Visits α) : List α := visits.current :: visits.back

def entries (visits : Visits α) : List α := visits.back.reverse ++ visits.current :: visits.forward

variable {visits : Visits α} {entry : α}

theorem current_mem_entries : visits.current ∈ visits.entries :=
  List.mem_append_right _ List.mem_cons_self

/-- Going back or forward visits no other entries. -/
theorem entries_goBack : visits.goBack.entries = visits.entries := by
  cases visits with
  | mk back current forward =>
      cases back with
      | nil => rfl
      | cons entry rest => simp [entries, goBack]

theorem entries_goForward : visits.goForward.entries = visits.entries := by
  cases visits with
  | mk back current forward =>
      cases forward with
      | nil => rfl
      | cons entry rest => simp [entries, goForward]

theorem goForward_goBack (h : visits.back ≠ []) : visits.goBack.goForward = visits := by
  cases visits with
  | mk back current forward =>
      cases back with
      | nil => exact absurd rfl h
      | cons entry rest => rfl

section

variable [DecidableEq α]

theorem current_visit : (visits.visit entry).current = entry := by
  unfold visit
  split
  · rename_i heq
    exact heq.symm
  · rfl

theorem mem_entries_visit {other : α} (h : other ∈ (visits.visit entry).entries) :
    other ∈ visits.entries ∨ other = entry := by
  unfold visit at h
  split at h
  · exact .inl h
  · simp only [entries, List.reverse_cons, List.append_assoc, List.mem_append, List.mem_cons, List.not_mem_nil,
      or_false] at h
    simp only [entries, List.mem_append, List.mem_cons]
    tauto

theorem stack_suffix_visit : visits.stack <:+ (visits.visit entry).stack := by
  unfold visit
  split
  · exact List.suffix_refl _
  · exact List.suffix_cons _ _

end

/-- What lies below in the stack is reached by going back. -/
theorem stack_iterate_goBack {above : List α} {base : Visits α} (h : visits.stack = above ++ base.stack) :
    (goBack^[above.length] visits).stack = base.stack := by
  induction above generalizing visits with
  | nil => exact h
  | cons entry rest ih =>
      have htail : visits.back = rest ++ base.stack := (List.cons.inj h).2
      rw [List.length_cons, Function.iterate_succ_apply]
      apply ih
      unfold goBack
      split
      · rename_i hnil
        rw [hnil] at htail
        exact absurd htail.symm (List.append_ne_nil_of_right_ne_nil _ (List.cons_ne_nil _ _))
      · rename_i hcons
        rw [← htail, hcons]
        rfl

/-- As many steps forward as there were back. -/
theorem iterate_goForward_goBack {n : Nat} (h : n ≤ visits.back.length) :
    goForward^[n] (goBack^[n] visits) = visits := by
  induction n generalizing visits with
  | zero => rfl
  | succ n ih =>
      have hne : visits.back ≠ [] := by
        intro hnil
        rw [hnil] at h
        exact absurd h (by simp)
      have hlength : n ≤ visits.goBack.back.length := by
        cases visits with
        | mk back current forward =>
            cases back with
            | nil => exact absurd rfl hne
            | cons entry rest => exact Nat.le_of_succ_le_succ h
      rw [Function.iterate_succ_apply' goForward, Function.iterate_succ_apply, ih hlength, goForward_goBack hne]

end Visits
