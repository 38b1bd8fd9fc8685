import BlazeList.Client.Ordering

/-!
# The ends of the range

Cards may hold the highest and the lowest priority there is. A placement next to the lowest one comes
out right. At the other end there is one layout in which it does not: consecutive cards from the highest
priority down leave a single priority free below them, and a card is placed among them. They are then
moved down by one each, on to a card that stays.
-/

namespace BlazeList

/-- The cards start with consecutive ones from the highest priority down, with one priority free below
them, and the place is among these. -/
def CrowdedTop (cards : List Card) (index : Nat) : Prop :=
  ∃ count < cards.length, index < count ∧ (∀ i < count, priorityAt cards i = i64Max - i) ∧
    priorityAt cards count = i64Max - count - 1

instance (cards : List Card) (index : Nat) : Decidable (CrowdedTop cards index) :=
  inferInstanceAs (Decidable (∃ _ < _, _))

/-- The priorities are distinct, the card is where it was asked for and the others are in their order. -/
def PlacedApart (cards after : List Card) (cardId : Uuid) (index : Nat) : Prop :=
  (after.map Card.priority).Nodup ∧ PlacedAt cards after cardId index

/-! ### Where the run lies in the list -/

theorem priorityAt_append_left {front back : List Card} {index : Nat} (h : index < front.length) :
    priorityAt (front ++ back) index = priorityAt front index := by
  rw [priorityAt, priorityAt, List.getElem?_append_left h]

theorem priorityAt_append_right (front back : List Card) (index : Nat) :
    priorityAt (front ++ back) (front.length + index) = priorityAt back index := by
  rw [priorityAt, priorityAt, List.getElem?_append_right (Nat.le_add_right _ _),
    Nat.add_sub_cancel_left]

namespace PackedRun

variable {run : PackedRun} {cards : List Card} {insertIdx : Nat}

theorem Around.priorityAt_run (haround : run.Around cards insertIdx) {index : Nat}
    (h : index < run.packed.length) :
    priorityAt cards (run.above.length + index) = run.top - index := by
  rw [← haround.cards_eq, PackedRun.cards, List.append_assoc, priorityAt_append_right,
    priorityAt_append_left h, haround.priorityAt_packed h]

theorem Around.priorityAt_above (haround : run.Around cards insertIdx) (h : run.above ≠ []) :
    priorityAt cards (run.above.length - 1) = run.upper := by
  have hpos : 0 < run.above.length := List.length_pos_iff.mpr h
  rw [← haround.cards_eq, PackedRun.cards, List.append_assoc, priorityAt_append_left (by omega),
    priorityAt_getElem (by omega), upper, List.getLast?_eq_getElem?, List.getElem?_eq_getElem (by omega)]
  rfl

theorem Around.priorityAt_below (haround : run.Around cards insertIdx) (h : run.below ≠ []) :
    priorityAt cards (run.above.length + run.packed.length) = run.lower := by
  have hpos : 0 < run.below.length := List.length_pos_iff.mpr h
  have hindex : run.above.length + run.packed.length = (run.above ++ run.packed).length + 0 := by
    rw [List.length_append, Nat.add_zero]
  rw [← haround.cards_eq, PackedRun.cards, hindex, priorityAt_append_right, priorityAt_getElem hpos,
    lower, List.head?_eq_getElem?, List.getElem?_eq_getElem hpos]
  rfl

theorem Around.length_eq (haround : run.Around cards insertIdx) :
    cards.length = run.above.length + run.packed.length + run.below.length := by
  rw [← haround.cards_eq, PackedRun.cards, List.length_append, List.length_append]

theorem Around.not_fits (haround : run.Around cards insertIdx) (h : CrowdedTop cards insertIdx) :
    ¬ run.Fits := by
  obtain ⟨count, hlength, hindex, htop, hfree⟩ := h
  have hpos := haround.nonempty
  have hslot := haround.insertIdx_eq
  have hcards := haround.length_eq
  have habove : run.above = [] := by
    by_contra hne
    have hone : 0 < run.above.length := List.length_pos_iff.mpr hne
    have hgap := (haround.top_le_upper.2) hne
    have hlast := haround.priorityAt_above hne
    have hfirst := haround.priorityAt_run hpos
    rw [htop _ (by omega)] at hlast hfirst
    omega
  rw [habove, List.length_nil] at hslot hcards
  have hrun : ∀ i < run.packed.length, priorityAt cards i = run.top - i := by
    intro i hi
    have := haround.priorityAt_run hi
    rwa [habove, List.length_nil, Nat.zero_add] at this
  have hcount : run.packed.length = count := by
    rcases lt_trichotomy run.packed.length count with hlt | heq | hgt
    · -- a gap below the run, where the cards are consecutive
      have hbelow : run.below ≠ [] := by
        rw [← List.length_pos_iff]
        omega
      have hgap := haround.lower_le_bottom.2 hbelow
      have hlower := haround.priorityAt_below hbelow
      have hfirst := hrun 0 hpos
      rw [habove, List.length_nil, Nat.zero_add, htop _ hlt] at hlower
      rw [htop 0 (by omega)] at hfirst
      omega
    · exact heq
    · -- consecutive cards, where one priority is free
      have hhere := hrun count hgt
      have hbefore := hrun (count - 1) (by omega)
      rw [hfree] at hhere
      rw [htop _ (by omega)] at hbefore
      omega
  have hbelow : run.below ≠ [] := by
    rw [← List.length_pos_iff]
    omega
  have hlower := haround.priorityAt_below hbelow
  rw [habove, List.length_nil, Nat.zero_add, hcount, hfree] at hlower
  have hupper : run.upper = i64Max := by simp [upper, habove]
  rintro (hnil | hroom)
  · exact hbelow hnil
  · omega

theorem Around.crowdedTop (haround : run.Around cards insertIdx) (h : ¬ run.Fits) :
    CrowdedTop cards insertIdx := by
  obtain ⟨hbelow, hroom⟩ := not_or.mp h
  rw [not_le] at hroom
  obtain ⟨hupper, hupperGap⟩ := haround.top_le_upper
  have hlowerGap := haround.lower_le_bottom.2 hbelow
  have habove : run.above = [] := by
    by_contra hne
    have := hupperGap hne
    omega
  have hmax : run.upper = i64Max := by simp [upper, habove]
  have hslot := haround.insertIdx_eq
  have hslotLt := haround.slot_lt hbelow
  have hcards := haround.length_eq
  have hbelowPos : 0 < run.below.length := List.length_pos_iff.mpr hbelow
  rw [habove, List.length_nil, Nat.zero_add] at hslot hcards
  refine ⟨run.packed.length, by omega, by omega, fun i hi => ?_, ?_⟩
  · have hrun := haround.priorityAt_run hi
    rw [habove, List.length_nil, Nat.zero_add] at hrun
    omega
  · have hlower := haround.priorityAt_below hbelow
    rw [habove, List.length_nil, Nat.zero_add] at hlower
    omega

theorem Around.fits_iff (haround : run.Around cards insertIdx) :
    run.Fits ↔ ¬ CrowdedTop cards insertIdx :=
  ⟨fun hfits hcrowded => haround.not_fits hcrowded hfits, fun h => not_not.mp (mt haround.crowdedTop h)⟩

/-- Without room the lowest card of the run is moved on to the card below. -/
theorem Around.not_nodup_relocated (haround : run.Around cards insertIdx)
    (hids : (cards.map Card.id).Nodup) (hlength : cards.length < 2 ^ 64 - 2) (h : ¬ run.Fits) :
    ¬ ((cards.map (Card.relocated run.shifted)).map Card.priority).Nodup := by
  obtain ⟨hbelow, hroom⟩ := not_or.mp h
  have hpos := haround.nonempty
  have hslot := haround.slot_lt hbelow
  obtain ⟨first, rest, hfirst⟩ := List.exists_cons_of_ne_nil hbelow
  have hlower : first.priority.val = run.lower := by
    rw [lower, hfirst]
    rfl
  have hlast : run.packed.length - 1 < run.spreadRun.length := by
    rw [length_spreadRun]
    omega
  have hmoved : run.spreadRun[run.packed.length - 1].priority = first.priority := by
    apply Subtype.ext
    rw [haround.getElem_spreadRun hids hlength hlast, slotOf, if_neg (by omega),
      Nat.sub_add_cancel hpos, haround.target_last hlength (not_le.mp hroom), hlower]
  rw [haround.map_relocated hids, hfirst, List.map_append, List.nodup_append']
  rintro ⟨-, -, hapart⟩
  refine hapart (a := first.priority) ?_ (List.mem_map.mpr ⟨first, List.mem_cons_self, rfl⟩)
  refine List.mem_map.mpr ⟨_, ?_, hmoved⟩
  exact List.mem_append_right _ (List.getElem_mem hlast)

end PackedRun

/-! ### When a placement is right -/

section

variable {cards : List Card}

/-- Among consecutive cards there is no gap to place a card in. -/
theorem CrowdedTop.tight (hsorted : SortedDesc cards) {position : InsertPosition}
    (h : CrowdedTop cards (position.index cards)) :
    (boundsForPosition cards position).1.val - (boundsForPosition cards position).2.1.val ≤ 1 := by
  obtain ⟨count, hlength, hindex, htop, -⟩ := h
  obtain ⟨habove, hbelow⟩ := bounds_separate hsorted position
  have hhere : position.index cards < cards.length := hindex.trans hlength
  have hlower := hbelow cards[position.index cards]
    (List.mem_drop_iff_getElem.mpr ⟨0, by simpa using hhere, by simp⟩)
  rw [← priorityAt_getElem hhere, htop _ hindex] at hlower
  have hmax := (boundsForPosition cards position).1.property.2
  by_cases hzero : position.index cards = 0
  · omega
  · have hbefore : position.index cards - 1 < cards.length := by omega
    have hupper := habove cards[position.index cards - 1]
      (List.mem_take_iff_getElem.mpr ⟨position.index cards - 1, by omega, rfl⟩)
    rw [← priorityAt_getElem hbefore, htop _ (by omega)] at hupper
    omega

theorem SortedDesc.nodup_priorities (hsorted : SortedDesc cards) : (cards.map Card.priority).Nodup := by
  refine List.pairwise_map.mpr (hsorted.imp fun hlt heq => ?_)
  rw [heq] at hlt
  exact absurd hlt (lt_irrefl _)

/-- A crowded top has no room for a card more. -/
theorem CrowdedTop.not_nodup (hsorted : SortedDesc cards) (hids : (cards.map Card.id).Nodup)
    (hlength : cards.length < 2 ^ 64 - 2) {position : InsertPosition}
    (h : CrowdedTop cards (position.index cards)) (randomRange : Int → Int) :
    ¬ ((cards.map (Card.relocated (placeCard randomRange cards position).shifted)).map
      Card.priority).Nodup := by
  rcases placeCard_cases randomRange hsorted position with
    ⟨priority, -, hlower, hupper⟩ | ⟨run, haround, -, hshifted⟩
  · have := h.tight hsorted
    omega
  · rw [hshifted]
    exact haround.not_nodup_relocated hids hlength (haround.not_fits h)

/-- Among the others a card comes out right unless the top is crowded. -/
theorem placeCard_right_iff (randomRange : Int → Int) (hsorted : SortedDesc cards)
    (hids : (cards.map Card.id).Nodup) (hlength : cards.length < 2 ^ 64 - 2) (card : Card)
    (position : InsertPosition) :
    let after := applyPlacement cards card (placeCard randomRange cards position)
    ((after.map Card.priority).Nodup ∧ after.map Card.id =
      (cards.map Card.id).take (position.index cards) ++
        card.id :: (cards.map Card.id).drop (position.index cards)) ↔
      ¬ CrowdedTop cards (position.index cards) := by
  intro after
  constructor
  · rintro ⟨hnodup, -⟩ hcrowded
    have hperm : (after.map Card.priority).Perm _ := (List.orderBy_perm _ _).map Card.priority
    rw [hperm.nodup_iff, List.map_cons, List.nodup_cons] at hnodup
    exact hcrowded.not_nodup hsorted hids hlength randomRange hnodup.2
  · intro hroom
    obtain ⟨hsortedAfter, hidsAfter⟩ := sorted_applyPlacement randomRange hsorted hids hlength card
      position fun run haround => haround.fits_iff.mpr hroom
    exact ⟨hsortedAfter.nodup_priorities, hidsAfter⟩

/-- **Placement over the whole range.** A placed or moved card is where it was asked for, with distinct
priorities and the others in their order, exactly when the cards it is placed among do not crowd the
top around the place. -/
theorem placement_right_iff (randomRange : Int → Int) (hsorted : SortedDesc cards)
    (hids : (cards.map Card.id).Nodup) (hlength : cards.length < 2 ^ 63) :
    (∀ card : Card, (∀ other ∈ cards, other.id ≠ card.id) → ∀ position : InsertPosition,
      (PlacedApart cards (applyPlacement cards card (placeCard randomRange cards position)) card.id
          (position.index cards) ↔
        ¬ CrowdedTop cards (position.index cards))) ∧
    ∀ card ∈ cards, ∀ target : InsertPosition,
      (PlacedApart cards
          (applyPlacement (otherCards cards card.id) card (moveCard randomRange cards card.id target))
          card.id (target.index (otherCards cards card.id)) ↔
        ¬ CrowdedTop (otherCards cards card.id) (target.index (otherCards cards card.id))) := by
  have hroom : cards.length < 2 ^ 64 - 2 := hlength.trans (by decide)
  constructor
  · intro card hnew position
    have hself : otherCards cards card.id = cards :=
      List.filter_eq_self.mpr fun other hother => decide_eq_true (hnew other hother)
    rw [PlacedApart, PlacedAt, hself]
    exact placeCard_right_iff randomRange hsorted hids hroom card position
  · intro card _ target
    have hothers := otherCards_sublist cards card.id
    exact placeCard_right_iff randomRange (hsorted.sublist hothers) (hids.sublist (hothers.map Card.id))
      (hothers.length_le.trans_lt hroom) card target

def topCards : List Card :=
  [sampleCard 1 i64MaxValue, sampleCard 2 ⟨i64Max - 2, by decide⟩]

theorem sortedDesc_topCards : SortedDesc topCards := by
  rw [SortedDesc]
  decide +kernel

/-- Below both of them there is room for a card. -/
theorem placement_right_iff_bottom :
    PlacedApart topCards
      (applyPlacement topCards (sampleCard 3 ⟨0, by decide⟩) (placeCard (fun _ => 0) topCards .bottom))
      3 2 := by
  have hnew : ∀ other ∈ topCards, other.id ≠ (sampleCard 3 ⟨0, by decide⟩).id := by decide +kernel
  exact ((placement_right_iff (fun _ => 0) sortedDesc_topCards (by decide +kernel) (by decide)).1
    (sampleCard 3 ⟨0, by decide⟩) hnew .bottom).mpr (by decide +kernel)

/-- Above both of them the card takes the free priority, and the upper card that of the lower one. -/
theorem not_placement_right_top :
    SortedDesc topCards ∧
      placeCard (fun _ => 0) topCards .top =
        .rebalanced ⟨i64Max - 1, by decide⟩ [(1, ⟨i64Max - 2, by decide⟩)] ∧
      ¬ PlacedApart topCards
        (applyPlacement topCards (sampleCard 3 ⟨0, by decide⟩) (placeCard (fun _ => 0) topCards .top))
        3 0 := by
  refine ⟨sortedDesc_topCards, by decide +kernel, ?_⟩
  rintro ⟨hnodup, -⟩
  revert hnodup
  decide +kernel

end

end BlazeList
