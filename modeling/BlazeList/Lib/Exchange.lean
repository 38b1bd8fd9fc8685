import Mathlib.Data.List.Dedup
import Mathlib.Data.List.Basic
import Mathlib.Tactic.Common
import Mathlib.Order.Lattice

/-!
# Neighbours that change places

Elements are in the order of a key, and get new keys. One of them has changed places with its neighbour
when the others are in their order and it has come to the other side of exactly one of them.
-/

universe u v

namespace Exchange

variable {α : Type u} {κ : Type v} [LinearOrder κ]

/-- `item` and the next element in the order of `before` have changed places in that of `after`, and all
other pairs are in the order they were in. -/
structure Exchanged [DecidableEq α] (items : List α) (before after : α → κ) (item : α) : Prop where
  distinct : (items.map after).Nodup
  swaps : ∃ next ∈ items, next ≠ item ∧
    (∀ other ∈ items, ¬ (min (before item) (before next) < before other ∧
      before other < max (before item) (before next))) ∧
    ∀ a ∈ items, ∀ b ∈ items, after a < after b ↔
      if a = item ∧ b = next ∨ a = next ∧ b = item then before b < before a else before a < before b

/-- Of the elements other than `item`, exactly one finds it on its other side. -/
def PassesOne (others : List α) (before after : α → κ) (item : α) : Prop :=
  ∃ passed ∈ others, ∀ other ∈ others,
    (before item < before other ↔ after other < after item) ↔ other = passed

variable {items others : List α} {before after : α → κ} {item : α}

omit [LinearOrder κ] in
theorem ne_of_nodup_map (hdistinct : (items.map before).Nodup) {a b : α} (ha : a ∈ items)
    (hb : b ∈ items) (hne : a ≠ b) : before a ≠ before b := fun heq =>
  hne (List.inj_on_of_nodup_map hdistinct ha hb heq)

/-- The item stays on its side of an element that it does not pass. -/
theorem lt_iff_of_not_passed {a b a' b' : κ} (hne : a ≠ b) (hne' : a' ≠ b')
    (h : ¬ (a < b ↔ b' < a')) : (b' < a' ↔ b < a) ∧ (a' < b' ↔ a < b) := by
  rcases lt_or_gt_of_ne hne with hlt | hgt
  · have hnot : ¬ b' < a' := fun hlt' => h (iff_of_true hlt hlt')
    have hlt' : a' < b' := lt_of_le_of_ne (not_lt.mp hnot) hne'
    exact ⟨iff_of_false hnot hlt.not_gt, iff_of_true hlt' hlt⟩
  · have hlt' : b' < a' := by
      by_contra hnot
      exact h (iff_of_false hgt.not_gt hnot)
    exact ⟨iff_of_true hlt' hgt, iff_of_false hlt'.not_gt hgt.not_gt⟩

/-- It comes to the other side of the passed one. -/
theorem lt_iff_of_passed {a b a' b' : κ} (hne : a ≠ b) (hne' : a' ≠ b') (h : a < b ↔ b' < a') :
    (a' < b' ↔ b < a) ∧ (b' < a' ↔ a < b) := by
  refine ⟨?_, h.symm⟩
  constructor
  · intro hup
    exact lt_of_le_of_ne (not_lt.mp fun hlt => lt_asymm hup (h.mp hlt)) hne.symm
  · intro hlt
    exact lt_of_le_of_ne (not_lt.mp fun hdown => lt_asymm hlt (h.mpr hdown)) hne'

/-- An element between the two would be passed on the way. -/
theorem not_between {a b c a' b' c' : κ} (hpassed : (a' < b' ↔ b < a) ∧ (b' < a' ↔ a < b))
    (hstays : (c' < a' ↔ c < a) ∧ (a' < c' ↔ a < c)) (hbelow : c' < b' ↔ c < b) (habove : b' < c' ↔ b < c)
    (hbetween : min a b < c ∧ c < max a b) : False := by
  rcases le_total a b with hle | hle
  · rw [min_eq_left hle, max_eq_right hle] at hbetween
    have hdown : b' < a' := hpassed.2.mpr (hbetween.1.trans hbetween.2)
    exact lt_asymm (hstays.2.mpr hbetween.1) ((hbelow.mpr hbetween.2).trans hdown)
  · rw [min_eq_right hle, max_eq_left hle] at hbetween
    have hup : a' < b' := hpassed.1.mpr (hbetween.1.trans hbetween.2)
    exact lt_asymm (hstays.1.mpr hbetween.2) (hup.trans (habove.mpr hbetween.1))

/-- Elements in their order, and one more with a key of its own, have distinct keys. -/
theorem nodup_after (hbefore : (items.map before).Nodup)
    (hothers : ∀ other, other ∈ others ↔ other ∈ items ∧ other ≠ item)
    (horder : ∀ a ∈ others, ∀ b ∈ others, after a < after b ↔ before a < before b)
    (hapart : ∀ other ∈ others, after other ≠ after item) : (items.map after).Nodup := by
  refine List.Nodup.map_on (fun a ha b hb heq => ?_) hbefore.of_map
  by_contra hne
  by_cases haItem : a = item
  · subst haItem
    exact hapart b ((hothers b).mpr ⟨hb, Ne.symm hne⟩) heq.symm
  · by_cases hbItem : b = item
    · subst hbItem
      exact hapart a ((hothers a).mpr ⟨ha, haItem⟩) heq
    · have haOther := (hothers a).mpr ⟨ha, haItem⟩
      have hbOther := (hothers b).mpr ⟨hb, hbItem⟩
      rcases lt_or_gt_of_ne (ne_of_nodup_map hbefore ha hb hne) with hlt | hgt
      · exact ((horder a haOther b hbOther).mpr hlt).ne heq
      · exact ((horder b hbOther a haOther).mpr hgt).ne heq.symm

/-- The item stays on its side of every element but the passed one. -/
theorem stays {passed : α} (hbefore : (items.map before).Nodup) (hitem : item ∈ items)
    (hothers : ∀ other, other ∈ others ↔ other ∈ items ∧ other ≠ item)
    (hapart : ∀ other ∈ others, after other ≠ after item)
    (hone : ∀ other ∈ others, (before item < before other ↔ after other < after item) ↔ other = passed)
    {other : α} (hother : other ∈ others) (hne : other ≠ passed) :
    (after other < after item ↔ before other < before item) ∧
      (after item < after other ↔ before item < before other) := by
  obtain ⟨hotherItems, hotherItem⟩ := (hothers other).mp hother
  exact lt_iff_of_not_passed (ne_of_nodup_map hbefore hitem hotherItems (Ne.symm hotherItem))
    (Ne.symm (hapart other hother)) (mt (hone other hother).mp hne)

variable [DecidableEq α]

/-- What an exchange does to the others, and to the item among them. -/
theorem Exchanged.passesOne (hbefore : (items.map before).Nodup) (hitem : item ∈ items)
    (hothers : ∀ other, other ∈ others ↔ other ∈ items ∧ other ≠ item)
    (h : Exchanged items before after item) :
    (∀ a ∈ others, ∀ b ∈ others, after a < after b ↔ before a < before b) ∧
      (∀ other ∈ others, after other ≠ after item) ∧ PassesOne others before after item := by
  obtain ⟨hafter, next, hnext, hne, -, hpairs⟩ := h
  refine ⟨fun a ha b hb => ?_, fun other hother => ?_, next, (hothers next).mpr ⟨hnext, hne⟩,
    fun other hother => ?_⟩
  · obtain ⟨ha, haItem⟩ := (hothers a).mp ha
    obtain ⟨hb, hbItem⟩ := (hothers b).mp hb
    rw [hpairs a ha b hb, if_neg]
    rintro (⟨heq, -⟩ | ⟨-, heq⟩)
    · exact haItem heq
    · exact hbItem heq
  · obtain ⟨hother, hotherItem⟩ := (hothers other).mp hother
    exact ne_of_nodup_map hafter hother hitem hotherItem
  · obtain ⟨hother, hotherItem⟩ := (hothers other).mp hother
    have hpair := hpairs other hother item hitem
    by_cases heq : other = next
    · rw [if_pos (.inr ⟨heq, rfl⟩)] at hpair
      exact iff_of_true hpair.symm heq
    · rw [if_neg (by simp [hotherItem, heq])] at hpair
      refine iff_of_false (fun hpasses => ?_) heq
      rw [hpair] at hpasses
      rcases lt_or_gt_of_ne (ne_of_nodup_map hbefore hother hitem hotherItem) with hlt | hgt
      · exact lt_asymm hlt (hpasses.mpr hlt)
      · exact lt_asymm hgt (hpasses.mp hgt)

/-- The others keep their order, and the item passes one of them. -/
theorem exchanged_iff (hbefore : (items.map before).Nodup) (hitem : item ∈ items)
    (hothers : ∀ other, other ∈ others ↔ other ∈ items ∧ other ≠ item) :
    Exchanged items before after item ↔
      (∀ a ∈ others, ∀ b ∈ others, after a < after b ↔ before a < before b) ∧
        (∀ other ∈ others, after other ≠ after item) ∧ PassesOne others before after item := by
  refine ⟨Exchanged.passesOne hbefore hitem hothers, ?_⟩
  rintro ⟨horder, hapart, passed, hpassed, hone⟩
  obtain ⟨hpassedItems, hpassedItem⟩ := (hothers passed).mp hpassed
  have hchanges := lt_iff_of_passed (ne_of_nodup_map hbefore hitem hpassedItems hpassedItem.symm)
    (hapart passed hpassed).symm ((hone passed hpassed).mpr rfl)
  have hstays : ∀ other ∈ others, other ≠ passed → _ := fun other hother hne =>
    stays hbefore hitem hothers hapart hone hother hne
  refine ⟨nodup_after hbefore hothers horder hapart, passed, hpassedItems, hpassedItem,
    fun other hother hbetween => ?_, fun a ha b hb => ?_⟩
  · have hotherItem : other ≠ item := by
      rintro rfl
      rcases le_total (before other) (before passed) with hle | hle
      · exact lt_irrefl _ ((min_eq_left hle).symm.trans_lt hbetween.1)
      · exact lt_irrefl _ (hbetween.2.trans_eq (max_eq_left hle))
    have hotherPassed : other ≠ passed := by
      rintro rfl
      rcases le_total (before item) (before other) with hle | hle
      · exact lt_irrefl _ (hbetween.2.trans_eq (max_eq_right hle))
      · exact lt_irrefl _ ((min_eq_right hle).symm.trans_lt hbetween.1)
    have hmem := (hothers other).mpr ⟨hother, hotherItem⟩
    exact not_between hchanges (hstays other hmem hotherPassed) (horder other hmem passed hpassed)
      (horder passed hpassed other hmem) hbetween
  · by_cases haItem : a = item
    · rw [haItem]
      by_cases hbItem : b = item
      · rw [hbItem, if_neg (by simp [Ne.symm hpassedItem])]
        exact iff_of_false (lt_irrefl _) (lt_irrefl _)
      · by_cases hbPassed : b = passed
        · rw [hbPassed, if_pos (.inl ⟨rfl, rfl⟩)]
          exact hchanges.1
        · rw [if_neg (by simp [hbPassed, hbItem])]
          exact (hstays b ((hothers b).mpr ⟨hb, hbItem⟩) hbPassed).2
    · by_cases hbItem : b = item
      · rw [hbItem]
        by_cases haPassed : a = passed
        · rw [haPassed, if_pos (.inr ⟨rfl, rfl⟩)]
          exact hchanges.2
        · rw [if_neg (by simp [haPassed, haItem])]
          exact (hstays a ((hothers a).mpr ⟨ha, haItem⟩) haPassed).1
      · rw [if_neg (by simp [haItem, hbItem])]
        exact horder a ((hothers a).mpr ⟨ha, haItem⟩) b ((hothers b).mpr ⟨hb, hbItem⟩)

end Exchange
