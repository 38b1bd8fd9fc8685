import Mathlib.Data.List.Nodup
import Mathlib.Data.List.Perm.Basic
import Mathlib.Tactic.Common

/-!
# Insertion-ordered maps

A map that remembers insertion order, kept as the list of its values. The key of an entry is read
off its value by `key`, and no two entries share one.
-/

universe u v

structure IndexMap {α : Type u} {κ : Type v} (key : α → κ) where
  values : List α
  nodup : (values.map key).Nodup

namespace IndexMap

variable {α : Type u} {κ : Type v} {key : α → κ}

def empty : IndexMap key := ⟨[], List.nodup_nil⟩

@[simp]
theorem values_empty : (empty : IndexMap key).values = [] := rfl

variable [DecidableEq κ]

/-! ### Insertion -/

/-- The values after an insertion: an entry with the same key keeps its place. -/
def insertValues (key : α → κ) : List α → α → List α
  | [], a => [a]
  | b :: rest, a => if key b = key a then a :: rest else b :: insertValues key rest a

theorem map_insertValues (values : List α) (a : α) :
    (insertValues key values a).map key =
      if key a ∈ values.map key then values.map key else values.map key ++ [key a] := by
  induction values with
  | nil => simp [insertValues]
  | cons b rest ih =>
      by_cases hkey : key b = key a
      · simp [insertValues, hkey]
      · have hkey' : key a ≠ key b := fun h => hkey h.symm
        by_cases hmem : key a ∈ rest.map key <;>
          simp [insertValues, hkey, hkey', ih, hmem]

theorem mem_insertValues {values : List α} (hnodup : (values.map key).Nodup) {a x : α} :
    x ∈ insertValues key values a ↔ x = a ∨ x ∈ values ∧ key x ≠ key a := by
  induction values with
  | nil => simp [insertValues]
  | cons b rest ih =>
      obtain ⟨hnotMem, hrest⟩ := List.nodup_cons.mp hnodup
      by_cases hkey : key b = key a
      · have hfresh : ∀ y ∈ rest, key y ≠ key a := by
          intro y hy heq
          exact hnotMem (List.mem_map.mpr ⟨y, hy, heq.trans hkey.symm⟩)
        simp only [insertValues, hkey, if_true, List.mem_cons]
        constructor
        · rintro (rfl | hx)
          · exact .inl rfl
          · exact .inr ⟨.inr hx, hfresh x hx⟩
        · rintro (rfl | ⟨rfl | hx, hne⟩)
          · exact .inl rfl
          · exact absurd hkey hne
          · exact .inr hx
      · simp only [insertValues, hkey, if_false, List.mem_cons, ih hrest]
        constructor
        · rintro (rfl | rfl | ⟨hx, hne⟩)
          · exact .inr ⟨.inl rfl, hkey⟩
          · exact .inl rfl
          · exact .inr ⟨.inr hx, hne⟩
        · rintro (rfl | ⟨rfl | hx, hne⟩)
          · exact .inr (.inl rfl)
          · exact .inl rfl
          · exact .inr (.inr ⟨hx, hne⟩)

def insert (map : IndexMap key) (a : α) : IndexMap key :=
  ⟨insertValues key map.values a, by
    rw [map_insertValues]
    split
    · exact map.nodup
    · rename_i hmem
      exact List.Nodup.append map.nodup (List.nodup_singleton _) (by simpa using hmem)⟩

theorem mem_insert {map : IndexMap key} {a x : α} :
    x ∈ (map.insert a).values ↔ x = a ∨ x ∈ map.values ∧ key x ≠ key a :=
  mem_insertValues map.nodup

/-! ### Removal -/

/-- The values after a removal: the last entry takes the place of the removed one. -/
def swapRemoveValues (key : α → κ) : List α → κ → List α
  | [], _ => []
  | a :: rest, k =>
      if key a = k then
        match rest.getLast? with
        | none => []
        | some last => last :: rest.dropLast
      else
        a :: swapRemoveValues key rest k

theorem swapRemoveValues_perm {values : List α} (hnodup : (values.map key).Nodup) (k : κ) :
    (swapRemoveValues key values k).Perm (values.filter (key · ≠ k)) := by
  induction values with
  | nil => simp [swapRemoveValues]
  | cons a rest ih =>
      obtain ⟨hnotMem, hrest⟩ := List.nodup_cons.mp hnodup
      by_cases hkey : key a = k
      · have hkept : rest.filter (key · ≠ k) = rest := by
          refine List.filter_eq_self.mpr fun x hx => ?_
          simp only [ne_eq, decide_eq_true_eq]
          exact fun heq => hnotMem (List.mem_map.mpr ⟨x, hx, heq.trans hkey.symm⟩)
        rw [swapRemoveValues, if_pos hkey, List.filter_cons_of_neg (by simpa using hkey), hkept]
        cases hlast : rest.getLast? with
        | none => simp [List.getLast?_eq_none_iff.mp hlast]
        | some last =>
            obtain ⟨front, rfl⟩ := List.getLast?_eq_some_iff.mp hlast
            simpa using (List.perm_append_singleton last front).symm
      · rw [swapRemoveValues, if_neg hkey, List.filter_cons_of_pos (by simpa using hkey)]
        exact (ih hrest).cons a

def swapRemove (map : IndexMap key) (k : κ) : IndexMap key :=
  ⟨swapRemoveValues key map.values k, by
    rw [((swapRemoveValues_perm map.nodup k).map key).nodup_iff]
    exact map.nodup.sublist (List.filter_sublist.map key)⟩

theorem mem_swapRemove {map : IndexMap key} {k : κ} {x : α} :
    x ∈ (map.swapRemove k).values ↔ x ∈ map.values ∧ key x ≠ k := by
  simpa [swapRemove] using (swapRemoveValues_perm map.nodup k).mem_iff (a := x)

/-! ### Building a map -/

def ofList (key : α → κ) (values : List α) : IndexMap key := values.foldl insert empty

/-- Values whose keys differ all stay. -/
theorem mem_foldl_insert {values : List α} (hnodup : (values.map key).Nodup) (map : IndexMap key)
    {x : α} :
    x ∈ (values.foldl insert map).values ↔
      x ∈ values ∨ x ∈ map.values ∧ key x ∉ values.map key := by
  induction values generalizing map with
  | nil => simp
  | cons a rest ih =>
      obtain ⟨hnotMem, hrest⟩ := List.nodup_cons.mp hnodup
      rw [List.foldl_cons, ih hrest, mem_insert, List.map_cons, List.mem_cons, List.mem_cons, not_or]
      constructor
      · rintro (hx | ⟨rfl | ⟨hx, hne⟩, hfresh⟩)
        · exact .inl (.inr hx)
        · exact .inl (.inl rfl)
        · exact .inr ⟨hx, hne, hfresh⟩
      · rintro ((rfl | hx) | ⟨hx, hne, hfresh⟩)
        · exact .inr ⟨.inl rfl, hnotMem⟩
        · exact .inl hx
        · exact .inr ⟨.inr ⟨hx, hne⟩, hfresh⟩

theorem mem_ofList {values : List α} (hnodup : (values.map key).Nodup) {x : α} :
    x ∈ (ofList key values).values ↔ x ∈ values := by
  simp [ofList, mem_foldl_insert hnodup]

theorem mem_of_mem_foldl_insert {values : List α} {map : IndexMap key} {x : α}
    (h : x ∈ (values.foldl insert map).values) : x ∈ values ∨ x ∈ map.values := by
  induction values generalizing map with
  | nil => exact .inr h
  | cons a rest ih =>
      rcases ih h with hrest | hmap
      · exact .inl (List.mem_cons_of_mem a hrest)
      · rcases mem_insert.mp hmap with rfl | ⟨hmap, -⟩
        · exact .inl List.mem_cons_self
        · exact .inr hmap

theorem mem_of_mem_ofList {values : List α} {x : α} (h : x ∈ (ofList key values).values) :
    x ∈ values :=
  (mem_of_mem_foldl_insert h).resolve_right List.not_mem_nil

/-- No key is lost. -/
theorem exists_mem_foldl_insert {values : List α} {map : IndexMap key} {a : α}
    (h : a ∈ values ∨ a ∈ map.values) :
    ∃ x ∈ (values.foldl insert map).values, key x = key a := by
  induction values generalizing map a with
  | nil => exact ⟨a, h.resolve_left List.not_mem_nil, rfl⟩
  | cons b rest ih =>
      by_cases hkey : key a = key b
      · obtain ⟨x, hx, hxKey⟩ := @ih (map.insert b) b (.inr (mem_insert.mpr (.inl rfl)))
        exact ⟨x, hx, hxKey.trans hkey.symm⟩
      · apply @ih (map.insert b) a
        rcases h with h | h
        · exact .inl ((List.mem_cons.mp h).resolve_left fun heq => hkey (congrArg key heq))
        · exact .inr (mem_insert.mpr (.inr ⟨h, hkey⟩))

theorem exists_mem_ofList {values : List α} {a : α} (h : a ∈ values) :
    ∃ x ∈ (ofList key values).values, key x = key a :=
  exists_mem_foldl_insert (.inl h)

theorem mem_foldl_swapRemove (keys : List κ) (map : IndexMap key) {x : α} :
    x ∈ (keys.foldl swapRemove map).values ↔ x ∈ map.values ∧ key x ∉ keys := by
  induction keys generalizing map with
  | nil => simp
  | cons k rest ih =>
      rw [List.foldl_cons, ih, mem_swapRemove, List.mem_cons, not_or, and_assoc]

end IndexMap
