import Mathlib.Data.List.Nodup
import Mathlib.Data.List.Forall2
import Mathlib.Tactic.Common

/-!
# Rows with keys

A list of rows that is read by key. Reading gives the first row of a key; replacing takes the rows of a
key out and puts the new one at the end. What is read after a replacement does not depend on the order
of the rows, and neither does reading where no two rows have one key.
-/

universe u v w

namespace Keyed

variable {α : Type u} {β : Type w} {κ : Type v} [DecidableEq κ]

abbrev lookup (key : α → κ) (rows : List α) (k : κ) : Option α := rows.find? fun row => key row = k

/-- The row takes the place of those with its key, at the end. -/
abbrev replace (key : α → κ) (rows : List α) (row : α) : List α :=
  rows.filter (fun other => key other ≠ key row) ++ [row]

variable {key : α → κ} {rows : List α} {row : α} {k : κ}

theorem lookup_cons : lookup key (row :: rows) k = if key row = k then some row else lookup key rows k := by
  rw [lookup, List.find?_cons]
  by_cases hkey : key row = k <;> simp [hkey]

theorem key_of_lookup (h : lookup key rows k = some row) : key row = k := by
  have hholds := List.find?_some h
  exact of_decide_eq_true hholds

theorem mem_of_lookup (h : lookup key rows k = some row) : row ∈ rows := List.mem_of_find?_eq_some h

theorem lookup_eq_none_iff : lookup key rows k = none ↔ k ∉ rows.map key := by
  simp [lookup, List.find?_eq_none]

theorem lookup_isSome_iff : (lookup key rows k).isSome ↔ k ∈ rows.map key := by
  rw [← not_iff_not, Option.not_isSome_iff_eq_none, lookup_eq_none_iff]

theorem lookup_of_mem (hnodup : (rows.map key).Nodup) (h : row ∈ rows) :
    lookup key rows (key row) = some row := by
  obtain ⟨found, hfound⟩ := Option.isSome_iff_exists.mp
    (lookup_isSome_iff.mpr (List.mem_map.mpr ⟨row, h, rfl⟩) : (lookup key rows (key row)).isSome)
  rw [hfound, List.inj_on_of_nodup_map hnodup (mem_of_lookup hfound) h (key_of_lookup hfound)]

theorem lookup_eq_some_iff (hnodup : (rows.map key).Nodup) :
    lookup key rows k = some row ↔ row ∈ rows ∧ key row = k := by
  constructor
  · exact fun h => ⟨mem_of_lookup h, key_of_lookup h⟩
  · rintro ⟨hmem, rfl⟩
    exact lookup_of_mem hnodup hmem

/-- Where the keys differ the order of the rows does not matter. -/
theorem lookup_perm {others : List α} (hperm : rows.Perm others) (hnodup : (rows.map key).Nodup) (k : κ) :
    lookup key rows k = lookup key others k := by
  have hothers : (others.map key).Nodup := (hperm.map key).nodup_iff.mp hnodup
  ext row
  rw [lookup_eq_some_iff hnodup, lookup_eq_some_iff hothers, hperm.mem_iff]

theorem lookup_append {front back : List α} :
    lookup key (front ++ back) k = (lookup key front k).or (lookup key back k) :=
  List.find?_append

theorem lookup_replace :
    lookup key (replace key rows row) k = if key row = k then some row else lookup key rows k := by
  rw [replace, lookup_append, lookup_cons]
  split
  · rename_i hkey
    have hnone : lookup key (rows.filter fun other => key other ≠ key row) k = none := by
      rw [lookup_eq_none_iff, List.mem_map]
      rintro ⟨other, hother, hotherKey⟩
      exact of_decide_eq_true (List.mem_filter.mp hother).2 (hotherKey.trans hkey.symm)
    rw [hnone, Option.none_or]
  · rename_i hkey
    have hkeep : lookup key (rows.filter fun other => key other ≠ key row) k = lookup key rows k := by
      rw [lookup, lookup, List.find?_filter]
      congr
      funext other
      by_cases hother : key other = k
      · simp [hother, Ne.symm hkey]
      · simp [hother]
    rw [hkeep]
    exact Option.or_none

theorem nodup_replace (hnodup : (rows.map key).Nodup) : ((replace key rows row).map key).Nodup := by
  rw [replace, List.map_append, List.map_singleton, List.nodup_append']
  refine ⟨hnodup.sublist (List.filter_sublist.map key), List.nodup_singleton _, ?_⟩
  intro k hfiltered hself
  obtain ⟨other, hother, rfl⟩ := List.mem_map.mp hfiltered
  exact of_decide_eq_true (List.mem_filter.mp hother).2 (List.mem_singleton.mp hself)

/-- Rows with different keys, one after another. -/
theorem lookup_foldl_replace {news : List α} (hnodup : (news.map key).Nodup) (rows : List α) (k : κ) :
    lookup key (news.foldl (replace key) rows) k = (lookup key news k).or (lookup key rows k) := by
  induction news generalizing rows with
  | nil => rfl
  | cons new news ih =>
      obtain ⟨hnew, hnodup⟩ := List.nodup_cons.mp hnodup
      rw [List.foldl_cons, ih hnodup, lookup_replace, lookup_cons]
      by_cases hkey : key new = k
      · rw [if_pos hkey, if_pos hkey, lookup_eq_none_iff.mpr (hkey ▸ hnew)]
        rfl
      · rw [if_neg hkey, if_neg hkey]

theorem nodup_foldl_replace {news : List α} (hnodup : (rows.map key).Nodup) :
    ((news.foldl (replace key) rows).map key).Nodup := by
  induction news generalizing rows with
  | nil => exact hnodup
  | cons new news ih => exact ih (nodup_replace hnodup)

/-- Rows under new keys are appended. -/
theorem foldl_replace_of_nodup {news : List α} (hnodup : ((rows ++ news).map key).Nodup) :
    news.foldl (replace key) rows = rows ++ news := by
  induction news generalizing rows with
  | nil => exact (List.append_nil rows).symm
  | cons new news ih =>
      rw [List.append_cons] at hnodup
      have hkeep : replace key rows new = rows ++ [new] := by
        rw [replace, List.filter_eq_self.mpr]
        intro row hrow
        rw [List.map_append, List.map_append, List.nodup_append', List.nodup_append'] at hnodup
        refine decide_eq_true fun heq => ?_
        exact hnodup.1.2.2 (List.mem_map.mpr ⟨row, hrow, rfl⟩) (heq ▸ List.mem_singleton_self _)
      rw [List.foldl_cons, hkeep, ih hnodup, List.append_assoc, List.singleton_append]

/-- Rows that are made one by one, under the keys they are made from. -/
theorem lookup_forall₂ {key' : β → κ} {f : α → Option β} {made : List β}
    (hmade : List.Forall₂ (fun row result => f row = some result) rows made)
    (hkey : ∀ row result, f row = some result → key' result = key row) (k : κ) :
    lookup key' made k = (lookup key rows k).bind f := by
  induction hmade with
  | nil => rfl
  | cons hfirst _ ih =>
      rw [lookup_cons, lookup_cons, hkey _ _ hfirst, ih]
      split
      · rw [Option.bind_some, hfirst]
      · rfl

end Keyed
