import Mathlib.Data.List.Flatten
import Mathlib.Data.List.Perm.Basic
import Mathlib.Order.Lattice
import Mathlib.Order.Nat
import Mathlib.Tactic.Common

/-!
# Pages and groups

A list that falls strictly in a key is read page by page, each page below the last key of the page
before. Rows that are grouped by a key are listed once, under their key.
-/

universe u v

namespace Paging

variable {α : Type u} {κ : Type v} [LinearOrder κ]

def below (key : α → κ) (after : Option κ) (rows : List α) : List α :=
  rows.filter fun row => after.all fun bound => key row < bound

/-- Page after page, until one is empty. -/
def readAll (key : α → κ) (fetch : Option κ → List α) : Nat → Option κ → List α
  | 0, _ => []
  | fuel + 1, after =>
      match (fetch after).getLast? with
      | none => []
      | some last => fetch after ++ readAll key fetch fuel (some (key last))

variable {key : α → κ} {rows : List α}

@[simp]
theorem below_none : below key none rows = rows := by
  simp [below]

/-- Below the last key of a page, that page is over and the rest is left. -/
theorem below_getLast (hrows : rows.Pairwise fun a b => key b < key a) {after : Option κ}
    {size : Nat} {last : α} (hlast : ((below key after rows).take size).getLast? = some last) :
    below key (some (key last)) rows = (below key after rows).drop size := by
  obtain ⟨front, hfront⟩ := List.getLast?_eq_some_iff.mp hlast
  have hsplit : below key after rows = (front ++ [last]) ++ (below key after rows).drop size := by
    rw [← hfront, List.take_append_drop]
  have hafter : ∀ bound ∈ after, key last < bound := by
    have hmem : last ∈ below key after rows := by
      rw [hsplit]
      simp
    have hall := (List.mem_filter.mp hmem).2
    rintro bound ⟨⟩
    exact of_decide_eq_true hall
  have hbelow : below key (some (key last)) rows =
      (below key after rows).filter fun row => key row < key last := by
    rw [below, below, List.filter_filter]
    apply List.filter_congr
    intro row _
    cases after with
    | none => simp
    | some bound =>
        have hbound := hafter bound rfl
        simpa using fun hrow : key row < key last => hrow.trans hbound
  have hsublist : (below key after rows).Sublist rows := List.filter_sublist
  have hsorted := hrows.sublist hsublist
  rw [hsplit, List.pairwise_append, List.pairwise_append] at hsorted
  obtain ⟨⟨-, -, hover⟩, -, hrest⟩ := hsorted
  rw [hbelow]
  conv_lhs => rw [hsplit]
  rw [List.filter_append, List.filter_append]
  have hfrontNone : front.filter (fun row => key row < key last) = [] := by
    rw [List.filter_eq_nil_iff]
    intro row hrow hlt
    exact lt_asymm (of_decide_eq_true hlt) (hover row hrow last (List.mem_singleton_self last))
  have hlastNone : [last].filter (fun row => key row < key last) = [] := by
    simp
  have hrestAll : ((below key after rows).drop size).filter (fun row => key row < key last) =
      (below key after rows).drop size := by
    rw [List.filter_eq_self]
    intro row hrow
    exact decide_eq_true (hrest last (by simp) row hrow)
  rw [hfrontNone, hlastNone, hrestAll, List.nil_append, List.nil_append]

/-- Pages of a positive size make up the list. -/
theorem readAll_eq (hrows : rows.Pairwise fun a b => key b < key a) {size : Nat} (hsize : 0 < size)
    {fetch : Option κ → List α} (hfetch : ∀ after, fetch after = (below key after rows).take size)
    {fuel : Nat} {after : Option κ} (hfuel : (below key after rows).length < fuel) :
    readAll key fetch fuel after = below key after rows := by
  induction fuel generalizing after with
  | zero => exact absurd hfuel (Nat.not_lt_zero _)
  | succ fuel ih =>
      rw [readAll]
      cases hlast : (fetch after).getLast? with
      | none =>
          rw [List.getLast?_eq_none_iff, hfetch, List.take_eq_nil_iff] at hlast
          exact (hlast.resolve_left hsize.ne').symm
      | some last =>
          rw [hfetch] at hlast
          have hrest := below_getLast hrows hlast
          have hne : below key after rows ≠ [] := by
            intro hnil
            rw [hnil, List.take_nil] at hlast
            cases hlast
          have hlength : (below key (some (key last)) rows).length < fuel := by
            have hpos := List.length_pos_iff.mpr hne
            rw [hrest, List.length_drop]
            omega
          dsimp only
          rw [ih hlength, hrest, hfetch, List.take_append_drop]

end Paging

namespace List

variable {α : Type u} {κ : Type v} [DecidableEq κ]

/-- Each row is listed once, under its key. -/
theorem flatMap_filter_perm {keys : List κ} (hkeys : keys.Nodup) (key : α → κ) {rows : List α}
    (hrows : ∀ row ∈ rows, key row ∈ keys) :
    (keys.flatMap fun k => (rows.filter fun row => key row = k).map fun row => (k, row)).Perm
      (rows.map fun row => (key row, row)) := by
  induction keys generalizing rows with
  | nil =>
      rw [List.eq_nil_iff_forall_not_mem.mpr fun row hrow => List.not_mem_nil (hrows row hrow)]
      exact List.Perm.refl _
  | cons k rest ih =>
      obtain ⟨hfresh, hrest⟩ := List.nodup_cons.mp hkeys
      have hothers : ∀ row ∈ rows.filter (fun row => ! decide (key row = k)), key row ∈ rest := by
        intro row hrow
        obtain ⟨hmem, hne⟩ := List.mem_filter.mp hrow
        have hne' : key row ≠ k := by simpa using hne
        exact (List.mem_cons.mp (hrows row hmem)).resolve_left hne'
      have hsame : (rest.flatMap fun other => ((rows.filter fun row => ! decide (key row = k)).filter
            fun row => key row = other).map fun row => (other, row)) =
          rest.flatMap fun other => (rows.filter fun row => key row = other).map
            fun row => (other, row) := by
        rw [List.flatMap_def, List.flatMap_def]
        congr 1
        apply List.map_congr_left
        intro other hother
        have hne : other ≠ k := fun heq => hfresh (heq ▸ hother)
        rw [List.filter_filter]
        congr 1
        apply List.filter_congr
        intro row _
        by_cases hrow : key row = other
        · simp [hrow, hne]
        · simp [hrow]
      have hkey : ((rows.filter fun row => key row = k).map fun row => (k, row)) =
          (rows.filter fun row => key row = k).map fun row => (key row, row) := by
        apply List.map_congr_left
        intro row hrow
        rw [of_decide_eq_true (List.mem_filter.mp hrow).2]
      rw [List.flatMap_cons, ← hsame, hkey]
      apply ((List.Perm.refl _).append (ih hrest hothers)).trans
      rw [← List.map_append]
      exact (List.filter_append_perm (fun row => key row = k) rows).map _

end List
