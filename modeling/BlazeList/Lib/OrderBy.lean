import Mathlib.Data.List.Pairwise
import Mathlib.Data.List.Sort
import Mathlib.Tactic.Common

/-!
# Sorting rows by a key

`orderBy key` is `ORDER BY key`. When the key tells the rows apart, the result depends only on which
rows there are, not on the order they were stored in.
-/

universe u v w

namespace List

variable {α : Type u} {β : Type v} {κ : Type w} [LinearOrder κ]

def orderBy (key : α → κ) (rows : List α) : List α :=
  rows.insertionSort fun a b => key a ≤ key b

theorem orderBy_perm (key : α → κ) (rows : List α) : (rows.orderBy key).Perm rows :=
  List.perm_insertionSort _ rows

@[simp]
theorem mem_orderBy {key : α → κ} {rows : List α} {row : α} :
    row ∈ rows.orderBy key ↔ row ∈ rows :=
  (orderBy_perm key rows).mem_iff

theorem orderBy_pairwise (key : α → κ) (rows : List α) :
    (rows.orderBy key).Pairwise fun a b => key a ≤ key b := by
  have : Std.Total fun a b : α => key a ≤ key b := ⟨fun a b => le_total (key a) (key b)⟩
  have : IsTrans α fun a b => key a ≤ key b := ⟨fun _ _ _ => le_trans⟩
  exact List.pairwise_insertionSort _ rows

/-- A list that is sorted already, with the same rows, is the result. -/
theorem eq_orderBy_of_perm {key : α → κ} {rows sorted : List α}
    (hkey : ∀ a ∈ rows, ∀ b ∈ rows, key a = key b → a = b) (hperm : sorted.Perm rows)
    (hsorted : sorted.Pairwise fun a b => key a ≤ key b) : sorted = rows.orderBy key := by
  refine List.Perm.eq_of_pairwise ?_ hsorted (orderBy_pairwise key rows)
    (hperm.trans (orderBy_perm key rows).symm)
  intro a b ha hb hab hba
  exact hkey a (hperm.mem_iff.mp ha) b (mem_orderBy.mp hb) (le_antisymm hab hba)

/-- The stored order does not matter. -/
theorem orderBy_congr {key : α → κ} {left right : List α}
    (hkey : ∀ a ∈ right, ∀ b ∈ right, key a = key b → a = b) (hperm : left.Perm right) :
    left.orderBy key = right.orderBy key :=
  eq_orderBy_of_perm hkey ((orderBy_perm key left).trans hperm) (orderBy_pairwise key left)

/-- Sorting the images is sorting by the key of the image. -/
theorem orderBy_map (key : β → κ) (f : α → β) (rows : List α) :
    (rows.map f).orderBy key = (rows.orderBy fun a => key (f a)).map f :=
  (List.map_insertionSort _ _ f rows fun _ _ _ _ => Iff.rfl).symm

/-- Rows that do not differ in the key keep their order. -/
theorem filter_orderBy_of_const {key : α → κ} {p : α → Bool}
    (hconst : ∀ a b, p a → p b → key a = key b) (rows : List α) :
    (rows.orderBy key).filter p = rows.filter p := by
  have hsorted : (rows.filter p).Pairwise fun a b => key a ≤ key b :=
    List.pairwise_of_forall_mem_list fun a ha b hb =>
      (hconst a b (List.of_mem_filter ha) (List.of_mem_filter hb)).le
  have hsub : (rows.filter p).filter p <+ (rows.orderBy key).filter p :=
    (List.sublist_insertionSort hsorted List.filter_sublist).filter p
  rw [List.filter_filter] at hsub
  simp only [Bool.and_self] at hsub
  exact (hsub.eq_of_length ((orderBy_perm key rows).filter p).length_eq.symm).symm

/-- Selecting commutes with sorting. -/
theorem filter_orderBy {key : α → κ} {p : α → Bool} {rows : List α}
    (hkey : ∀ a ∈ rows.filter p, ∀ b ∈ rows.filter p, key a = key b → a = b) :
    (rows.orderBy key).filter p = (rows.filter p).orderBy key :=
  eq_orderBy_of_perm hkey ((orderBy_perm key rows).filter p) ((orderBy_pairwise key rows).filter p)

/-- Two keys by which a list is sorted, neither of them with ties, order its elements alike. -/
theorem lt_iff_lt_of_pairwise {first : α → κ} {second : α → β} [Preorder β] {rows : List α}
    (hfirst : rows.Pairwise fun a b => first b < first a)
    (hsecond : rows.Pairwise fun a b => second b < second a) {a b : α} (ha : a ∈ rows)
    (hb : b ∈ rows) : first a < first b ↔ second a < second b := by
  obtain ⟨i, hi, rfl⟩ := List.mem_iff_getElem.mp ha
  obtain ⟨j, hj, rfl⟩ := List.mem_iff_getElem.mp hb
  rw [List.pairwise_iff_getElem] at hfirst hsecond
  rcases lt_trichotomy i j with hlt | rfl | hgt
  · exact iff_of_false (hfirst i j hi hj hlt).not_gt (hsecond i j hi hj hlt).not_gt
  · exact iff_of_false (lt_irrefl _) (lt_irrefl _)
  · exact iff_of_true (hfirst j i hj hi hgt) (hsecond j i hj hi hgt)

theorem orderBy_pairwise_lt {key : α → κ} {rows : List α} (hkeys : (rows.map key).Nodup) :
    (rows.orderBy key).Pairwise fun a b => key a < key b := by
  have hnodup : ((rows.orderBy key).map key).Nodup := ((orderBy_perm key rows).map key).nodup_iff.mpr hkeys
  exact ((orderBy_pairwise key rows).and (pairwise_map.mp hnodup)).imp fun h => lt_of_le_of_ne h.1 h.2

/-- Rows that are left out are left out of the sorted rows. -/
theorem orderBy_sublist {key : α → κ} {fewer rows : List α} (hkeys : (rows.map key).Nodup)
    (hfewer : fewer.Sublist rows) : (fewer.orderBy key).Sublist (rows.orderBy key) := by
  have : Std.Antisymm fun a b : α => key a < key b := ⟨fun _ _ hab hba => absurd hba hab.not_gt⟩
  have hsub : (fewer.orderBy key).Subperm (rows.orderBy key) :=
    ((orderBy_perm key fewer).subperm.trans hfewer.subperm).trans (orderBy_perm key rows).symm.subperm
  exact sublist_of_subperm_of_pairwise hsub (orderBy_pairwise_lt (hkeys.sublist (hfewer.map key)))
    (orderBy_pairwise_lt hkeys)

/-- What is sorted the other way around is turned around. -/
theorem orderBy_eq_reverse {key : α → κ} {rows : List α} (hsorted : rows.Pairwise fun a b => key b < key a) :
    rows.orderBy key = rows.reverse := by
  symm
  apply eq_orderBy_of_perm
  · intro a ha b hb heq
    have : Std.Symm fun a b : α => key a ≠ key b := ⟨fun _ _ h => h.symm⟩
    have hne : rows.Pairwise fun a b => key a ≠ key b := hsorted.imp fun h => h.ne'
    by_contra hab
    exact hne.forall ha hb hab heq
  · exact reverse_perm rows
  · exact pairwise_reverse.mpr (hsorted.imp fun h => h.le)

end List
