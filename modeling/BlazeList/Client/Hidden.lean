import BlazeList.Client.Coalesce
import BlazeList.Client.Extremes
import BlazeList.Client.Filter

/-!
# Hidden cards

A move looks at the visible cards alone. A priority that is free among them may be that of a hidden card:
one that lies around the middle of the gap, or on a slot of the packed run when it is spread.
-/

namespace BlazeList

/-! ### The jitter -/

/-- `randomRange n` is drawn from `0..n`. -/
def Draws (randomRange : Int → Int) : Prop :=
  ∀ bound, 0 < bound → 0 ≤ randomRange bound ∧ randomRange bound < bound

def midpoint (upper lower : I64) : Int := lower.val + (upper.val - lower.val).tdiv 2

def jitterRange (upper lower : I64) : Int := max ((upper.val - lower.val).tdiv jitterDivisor) 1

def InReach (upper lower : I64) (priority : Int) : Prop :=
  lower.val < priority ∧ priority < upper.val ∧
    midpoint upper lower - jitterRange upper lower ≤ priority ∧
    priority ≤ midpoint upper lower + jitterRange upper lower

instance (upper lower : I64) (priority : Int) : Decidable (InReach upper lower priority) :=
  inferInstanceAs (Decidable (_ ∧ _ ∧ _))

/-- A placement may give this priority to a card. -/
def MayGive (cards : List Card) (position : InsertPosition) (priority : Int) : Prop :=
  let (upper, lower) := cappedBounds cards position
  if 1 < upper.val - lower.val then
    InReach upper lower priority
  else
    let run := packedRun cards (position.index cards)
    ∃ slot ≤ run.packed.length, priority = run.target slot

instance (cards : List Card) (position : InsertPosition) (priority : Int) :
    Decidable (MayGive cards position priority) :=
  inferInstanceAs (Decidable (if 1 < (cappedBounds cards position).1.val -
      (cappedBounds cards position).2.val then
      InReach (cappedBounds cards position).1 (cappedBounds cards position).2 priority
    else
      ∃ slot ≤ (packedRun cards (position.index cards)).packed.length,
        priority = (packedRun cards (position.index cards)).target slot))

def Placement.newPriority (cardId : Uuid) (placement : Placement) (card : Card) : I64 :=
  if card.id = cardId then placement.priority else (card.relocated placement.shifted).priority

theorem Placement.newPriority_self (placement : Placement) (card : Card) :
    placement.newPriority card.id card = placement.priority := if_pos rfl

theorem Placement.newPriority_of_other (placement : Placement) {cards : List Card} {id : Uuid}
    {other : Card} (h : other ∈ otherCards cards id) :
    placement.newPriority id other = (other.relocated placement.shifted).priority :=
  if_neg (id_ne_of_mem_otherCards h)

theorem Placement.assign_eq (placement : Placement) {cards : List Card}
    (hids : (cards.map Card.id).Nodup) (cardId : Uuid) {card : Card} (hcard : card ∈ cards) :
    Placement.assign cardId (prioritiesOf cards) placement card.id =
      some (placement.newPriority cardId card) := by
  rw [Placement.assign, prioritiesOf, Keyed.lookup_of_mem hids hcard, Option.map_some, Option.map_some,
    Placement.newPriority]
  rfl

/-- These are the priorities on the screen once the versions of the move are shown. -/
theorem ClientState.prioritiesOf_moved [Blake3] {client after : ClientState} {move : ShownMove}
    {current card : Card} (hids : (client.cards.map Card.id).Nodup)
    (hpending : client.pendingPriority = none)
    (hcurrent : Keyed.lookup Card.id client.cards move.cardId = some current)
    (h : client.moveShown move = some after) (hcard : card ∈ client.cards) :
    prioritiesOf after.cards card.id =
      some ((client.placementOf move).newPriority move.cardId card) := by
  have hscreen : OnScreen client move.cardId current (move.view.shown client.cards)
      (client.placementOf move) :=
    ⟨hcurrent, move.view.subperm client.cards, moveCard_shifted _ _ _ _⟩
  have hmoved : client.applyMovePlacement (client.placementOf move) current
      (move.view.shown client.cards) move.env = some after := by
    have hfind : (client.cards.find? fun card => card.id = move.cardId) = some current := hcurrent
    rw [ClientState.moveShown, hfind] at h
    exact h
  have hcoalesced := (Coalesced.start hids hpending).step hscreen hmoved
  obtain ⟨hburst, primary, siblings, hbuilt, hcards⟩ := ClientState.recordMove_spec hmoved
  rw [hcards, ← (client.placementOf move).assign_eq hids move.cardId hcard]
  exact congrFun (hcoalesced.priorities hburst hbuilt) card.id

section

variable {randomRange : Int → Int} {upper lower : I64}

theorem draws_zero : Draws fun _ => 0 := fun _ hpos => ⟨le_rfl, hpos⟩

theorem midpoint_between (h : 1 < upper.val - lower.val) :
    lower.val < midpoint upper lower ∧ midpoint upper lower < upper.val ∧
      (upper.val - lower.val ≤ 2 → midpoint upper lower = lower.val + 1) := by
  rw [midpoint, Int.tdiv_eq_ediv_of_nonneg (by omega)]
  omega

/-- The priority that is drawn in a wide gap, and how the jitter is cut off at its ends. -/
theorem computePriority_wide (randomRange : Int → Int) (h : 2 < upper.val - lower.val) :
    (computePriority randomRange upper lower).val =
      min (max (midpoint upper lower + (randomRange (jitterRange upper lower * 2 + 1) -
        jitterRange upper lower)) (lower.val + 1)) (upper.val - 1) := by
  have hupper := upper.property
  have hlower := lower.property
  unfold computePriority
  dsimp only
  rw [if_neg (by omega), toI64_val (by omega) (by omega)]
  rfl

theorem computePriority_narrow (randomRange : Int → Int) (h : 1 < upper.val - lower.val)
    (hnarrow : upper.val - lower.val ≤ 2) :
    (computePriority randomRange upper lower).val = midpoint upper lower := by
  have hupper := upper.property
  have hlower := lower.property
  obtain ⟨habove, hbelow, -⟩ := midpoint_between h
  unfold computePriority
  dsimp only
  rw [if_pos hnarrow]
  exact toI64_val (by rw [← midpoint]; omega) (by rw [← midpoint]; omega)

theorem one_le_jitterRange : 1 ≤ jitterRange upper lower := le_max_right _ _

theorem inReach_computePriority (hdraws : Draws randomRange) (h : 1 < upper.val - lower.val) :
    InReach upper lower (computePriority randomRange upper lower).val := by
  obtain ⟨habove, hbelow, -⟩ := midpoint_between h
  have hjitter := @one_le_jitterRange upper lower
  by_cases hnarrow : upper.val - lower.val ≤ 2
  · rw [computePriority_narrow randomRange h hnarrow]
    exact ⟨habove, hbelow, by omega, by omega⟩
  · obtain ⟨hzero, hbound⟩ := hdraws (jitterRange upper lower * 2 + 1) (by omega)
    rw [computePriority_wide randomRange (not_le.mp hnarrow)]
    refine ⟨?_, ?_, ?_, ?_⟩ <;> omega

/-- Every priority in reach is drawn at times. -/
theorem exists_draw (h : 1 < upper.val - lower.val) {priority : Int}
    (hreach : InReach upper lower priority) :
    ∃ randomRange, Draws randomRange ∧ (computePriority randomRange upper lower).val = priority := by
  obtain ⟨hlower, hupper, hfrom, hto⟩ := hreach
  have hjitter := @one_le_jitterRange upper lower
  by_cases hnarrow : upper.val - lower.val ≤ 2
  · obtain ⟨-, -, hmiddle⟩ := midpoint_between h
    refine ⟨fun _ => 0, draws_zero, ?_⟩
    rw [computePriority_narrow _ h hnarrow, hmiddle hnarrow]
    omega
  · refine ⟨fun bound => if bound = jitterRange upper lower * 2 + 1 then
      priority - midpoint upper lower + jitterRange upper lower else 0, fun bound hpos => ?_, ?_⟩
    · dsimp only
      split
      · omega
      · exact ⟨le_rfl, hpos⟩
    · rw [computePriority_wide _ (not_le.mp hnarrow), if_pos rfl]
      omega

end

/-! ### Moves among the visible cards -/

/-- Every slot but that of the placed card is one of a card of the run. -/
theorem PackedRun.Around.exists_slotOf {run : PackedRun} {cards : List Card} {insertIdx slot : Nat}
    (haround : run.Around cards insertIdx) (hslot : slot ≤ run.packed.length) (hne : slot ≠ run.slot) :
    ∃ index < run.packed.length, run.slotOf index = slot := by
  have hle := haround.slot_le
  rcases Nat.lt_or_gt_of_ne hne with hlt | hgt
  · refine ⟨slot, by omega, ?_⟩
    rw [PackedRun.slotOf, if_pos hlt]
  · refine ⟨slot - 1, by omega, ?_⟩
    rw [PackedRun.slotOf, if_neg (by omega)]
    omega

section

variable {cards shown : List Card}

/-- What the moved card and the others get, given what the others had. -/
theorem mayGive_iff (hsorted : SortedDesc cards) (hids : (cards.map Card.id).Nodup)
    (hlength : cards.length < 2 ^ 64 - 2) (position : InsertPosition) {priority : I64}
    (hfree : priority ∉ cards.map Card.priority) :
    MayGive cards position priority.val ↔ ∃ randomRange, Draws randomRange ∧
      (priority = (placeCard randomRange cards position).priority ∨
        priority ∈ (cards.map (Card.relocated (placeCard randomRange cards position).shifted)).map
          Card.priority) := by
  unfold MayGive
  dsimp only
  split
  · rename_i hgap
    have hplacement : ∀ randomRange, placeCard randomRange cards position = .simple
        (computePriority randomRange (cappedBounds cards position).1 (cappedBounds cards position).2) :=
      fun randomRange => by rw [placeCard_eq, tryPlace, if_pos hgap]
    have hself : cards.map (Card.relocated []) = cards := List.map_id cards
    constructor
    · intro hreach
      obtain ⟨randomRange, hdraws, hdrawn⟩ := exists_draw hgap hreach
      refine ⟨randomRange, hdraws, .inl ?_⟩
      rw [hplacement]
      exact Subtype.ext hdrawn.symm
    · rintro ⟨randomRange, hdraws, rfl | hmem⟩
      · rw [hplacement]
        exact inReach_computePriority hdraws hgap
      · rw [hplacement] at hmem
        exact absurd (hself ▸ hmem) hfree
  · rename_i htight
    constructor
    · rintro ⟨slot, hslot, htarget⟩
      obtain ⟨haround, hpriority, hshifted⟩ :=
        placeCard_tight (fun _ => 0) hsorted position (not_lt.mp htight)
      have hgiven := haround.toI64_target hlength hslot
      refine ⟨fun _ => 0, draws_zero, ?_⟩
      rw [hpriority, hshifted]
      rcases eq_or_ne slot (packedRun cards (position.index cards)).slot with rfl | hne
      · exact .inl (Subtype.ext (htarget.trans hgiven.symm))
      · obtain ⟨index, hindex, hslotOf⟩ := haround.exists_slotOf hslot hne
        refine .inr (List.mem_map.mpr ⟨_, List.mem_map.mpr ⟨_,
          haround.mem_cards (List.getElem?_eq_getElem hindex), rfl⟩, Subtype.ext ?_⟩)
        rw [haround.relocated_packed hids hlength (List.getElem?_eq_getElem hindex), hslotOf, htarget]
    · rintro ⟨randomRange, -, hgives⟩
      obtain ⟨haround, hpriority, hshifted⟩ :=
        placeCard_tight randomRange hsorted position (not_lt.mp htight)
      rw [hpriority, hshifted] at hgives
      rcases hgives with rfl | hmem
      · exact ⟨_, haround.slot_le, haround.toI64_target hlength haround.slot_le⟩
      · obtain ⟨moved, hmoved, rfl⟩ := List.mem_map.mp hmem
        obtain ⟨card, hcard, rfl⟩ := List.mem_map.mp hmoved
        by_cases hpacked : card ∈ (packedRun cards (position.index cards)).packed
        · obtain ⟨index, hget⟩ := List.mem_iff_getElem?.mp hpacked
          exact ⟨_, PackedRun.slotOf_le _ (PackedRun.lt_length hget),
            haround.relocated_packed hids hlength hget⟩
        · rw [haround.relocated_of_not_packed hids hcard hpacked] at hfree
          exact absurd (List.mem_map.mpr ⟨card, hcard, rfl⟩) hfree

/-- The visible cards, and behind them the hidden ones. -/
theorem perm_shown_hidden (hids : (cards.map Card.id).Nodup) (hshown : shown.Subperm cards) :
    (shown ++ cards.filter fun card => card ∉ shown).Perm cards := by
  have hnodup : cards.Nodup := hids.of_map
  have hvisible : (cards.filter fun card => card ∈ shown).Perm shown := by
    refine (List.perm_ext_iff_of_nodup (hnodup.filter _) ?_).mpr fun card => ?_
    · obtain ⟨part, hperm, hsub⟩ := hshown
      exact hperm.nodup_iff.mp (hnodup.sublist hsub)
    · rw [List.mem_filter, decide_eq_true_eq]
      exact ⟨fun h => h.2, fun h => ⟨hshown.subset h, h⟩⟩
  apply (hvisible.symm.append_right _).trans
  have hparts := List.filter_append_perm (fun card => decide (card ∈ shown)) cards
  simpa only [decide_not] using hparts

/-- A card and the others. -/
theorem perm_card_others (hids : (shown.map Card.id).Nodup) {card : Card} (hcard : card ∈ shown) :
    (card :: otherCards shown card.id).Perm shown := by
  refine (List.perm_ext_iff_of_nodup (List.nodup_cons.mpr ⟨?_, hids.of_map.filter _⟩) hids.of_map).mpr
    fun other => ?_
  · intro hmem
    exact absurd rfl (id_ne_of_mem_otherCards hmem)
  · rw [List.mem_cons]
    constructor
    · rintro (rfl | hother)
      · exact hcard
      · exact (otherCards_sublist _ _).subset hother
    · intro hother
      by_cases hid : other.id = card.id
      · exact .inl (List.inj_on_of_nodup_map hids hother hcard hid)
      · exact .inr (List.mem_filter.mpr ⟨hother, decide_eq_true hid⟩)

/-- The priorities after a move: that of the moved card, those of the other visible cards, and those of
the hidden cards, which stay. -/
theorem newPriorities_perm (randomRange : Int → Int) (hids : (cards.map Card.id).Nodup)
    (hshown : shown.Subperm cards) (hshownIds : (shown.map Card.id).Nodup) {card : Card}
    (hcard : card ∈ shown) (position : InsertPosition) :
    let placement := moveCard randomRange shown card.id position
    (cards.map (placement.newPriority card.id)).Perm
      ((placement.priority :: ((otherCards shown card.id).map
        (Card.relocated placement.shifted)).map Card.priority) ++
      (cards.filter fun other => other ∉ shown).map Card.priority) := by
  intro placement
  have hself := placement.newPriority_self card
  have hothers : (otherCards shown card.id).map (placement.newPriority card.id) =
      ((otherCards shown card.id).map (Card.relocated placement.shifted)).map Card.priority := by
    rw [List.map_map]
    exact List.map_congr_left fun other hother => placement.newPriority_of_other hother
  have hhidden : (cards.filter fun other => other ∉ shown).map (placement.newPriority card.id) =
      (cards.filter fun other => other ∉ shown).map Card.priority := by
    refine List.map_congr_left fun other hother => ?_
    obtain ⟨hmem, hnot⟩ := List.mem_filter.mp hother
    have hapart : ∀ visible ∈ shown, other.id ≠ visible.id := fun visible hvisible hid =>
      of_decide_eq_true hnot
        (List.inj_on_of_nodup_map hids hmem (hshown.subset hvisible) hid ▸ hvisible)
    have hstays : (placement.shifted.find? fun move => move.1 = other.id) = none := by
      refine List.find?_eq_none.mpr fun move hmove hid => ?_
      obtain ⟨moved, hsub, hkeys⟩ := moveCard_shifted randomRange shown card.id position
      have hkey : move.1 ∈ moved.map Card.id := hkeys ▸ List.mem_map.mpr ⟨move, hmove, rfl⟩
      obtain ⟨visible, hvisible, heq⟩ := List.mem_map.mp hkey
      exact hapart visible ((otherCards_sublist _ _).subset (hsub.subset hvisible))
        (heq.trans (of_decide_eq_true hid)).symm
    rw [Placement.newPriority, if_neg (hapart card hcard), Card.relocated, hstays]
    rfl
  have hperm := ((perm_card_others hshownIds hcard).append_right
    (cards.filter fun other => other ∉ shown)).trans (perm_shown_hidden hids hshown)
  have hmapped := (hperm.map (placement.newPriority card.id)).symm
  rw [List.map_append, List.map_cons, hself, hothers, hhidden] at hmapped
  exact hmapped

/-- **A move stays clear of the hidden cards**, whatever is drawn for the jitter, exactly when the other
visible cards do not crowd the top around the place and no hidden card has a priority that the move may
give to a visible one. -/
theorem move_apart_iff {toLowercase : String → String} {filters : Filters} {allTags : List Tag}
    {today : Int} (hids : (cards.map Card.id).Nodup) (hpriorities : (cards.map Card.priority).Nodup)
    (hlength : cards.length < 2 ^ 63)
    (hshows : filters.Shows toLowercase .priority allTags today cards shown) {card : Card}
    (hcard : card ∈ shown) (position : InsertPosition) :
    (∀ randomRange, Draws randomRange → (cards.map ((moveCard randomRange shown card.id
        position).newPriority card.id)).Nodup) ↔
      ¬ CrowdedTop (otherCards shown card.id) (position.index (otherCards shown card.id)) ∧
        ∀ hidden ∈ cards, hidden ∉ shown →
          ¬ MayGive (otherCards shown card.id) position hidden.priority.val := by
  have hshownIds := hshows.nodup_map Card.id hids
  have hsorted : SortedDesc (otherCards shown card.id) :=
    (hshows.sortedDesc hpriorities).sublist (otherCards_sublist _ _)
  have hotherIds : ((otherCards shown card.id).map Card.id).Nodup :=
    hshownIds.sublist ((otherCards_sublist _ _).map Card.id)
  have hotherLength : (otherCards shown card.id).length < 2 ^ 64 - 2 :=
    ((otherCards_sublist _ _).length_le.trans hshows.subperm.length_le).trans_lt
      (hlength.trans (by decide))
  have hhiddenNodup : ((cards.filter fun other => other ∉ shown).map Card.priority).Nodup :=
    hpriorities.sublist (List.filter_sublist.map Card.priority)
  have hfree : ∀ hidden ∈ cards, hidden ∉ shown →
      hidden.priority ∉ (otherCards shown card.id).map Card.priority := by
    intro hidden hmem hnot hshared
    obtain ⟨other, hother, heq⟩ := List.mem_map.mp hshared
    have hvisible := (otherCards_sublist _ _).subset hother
    exact hnot (List.inj_on_of_nodup_map hpriorities (hshows.mem hvisible) hmem heq ▸ hvisible)
  have hsplit : ∀ randomRange, (cards.map ((moveCard randomRange shown card.id
      position).newPriority card.id)).Nodup ↔ _ := fun randomRange =>
    ((newPriorities_perm randomRange hids hshows.subperm hshownIds hcard position).nodup_iff).trans
      List.nodup_append'
  constructor
  · intro hapart
    refine ⟨fun hcrowded => ?_, fun hidden hmem hnot hgives => ?_⟩
    · have hvisible := ((hsplit _).mp (hapart _ draws_zero)).1
      exact hcrowded.not_nodup hsorted hotherIds hotherLength (fun _ => 0)
        (List.nodup_cons.mp hvisible).2
    · obtain ⟨randomRange, hdraws, hgiven⟩ :=
        (mayGive_iff hsorted hotherIds hotherLength position (hfree hidden hmem hnot)).mp hgives
      apply ((hsplit _).mp (hapart _ hdraws)).2.2 (List.mem_cons.mpr hgiven)
      exact List.mem_map.mpr ⟨hidden, List.mem_filter.mpr ⟨hmem, decide_eq_true hnot⟩, rfl⟩
  · rintro ⟨hroom, hclear⟩ randomRange hdraws
    refine (hsplit _).mpr ⟨?_, hhiddenNodup, fun priority hvisible hhidden => ?_⟩
    · have hright := ((placeCard_right_iff randomRange hsorted hotherIds hotherLength card
        position).mpr hroom).1
      have hperm : (applyPlacement (otherCards shown card.id) card (placeCard randomRange
          (otherCards shown card.id) position)).Perm _ := List.orderBy_perm _ _
      exact (hperm.map Card.priority).nodup_iff.mp hright
    · obtain ⟨hidden, hmem, rfl⟩ := List.mem_map.mp hhidden
      obtain ⟨hmem, hnot⟩ := List.mem_filter.mp hmem
      have hnot := of_decide_eq_true hnot
      exact hclear hidden hmem hnot ((mayGive_iff hsorted hotherIds hotherLength position
        (hfree hidden hmem hnot)).mpr ⟨randomRange, hdraws, List.mem_cons.mp hvisible⟩)

end

/-! ### Samples -/

def blazedCards : List Card :=
  [sampleCard 1 ⟨40, by decide⟩, { sampleCard 2 ⟨30, by decide⟩ with blazed := true },
    sampleCard 3 ⟨20, by decide⟩, sampleCard 4 ⟨0, zero_mem_i64⟩]

/-- The lowest card is moved between the other two visible ones, with what is drawn for the jitter. -/
theorem move_apart_iff_top :
    (blazedCards.map ((moveCard (fun _ => 0) (otherCards blazedCards 2) 4 .top).newPriority 4)).Nodup := by
  have hcard : sampleCard 4 ⟨0, by decide⟩ ∈ otherCards blazedCards 2 := by decide +kernel
  have hshows : defaultFilters.Shows String.toLower .priority [] 0 blazedCards
      (otherCards blazedCards 2) := by decide +kernel
  exact (move_apart_iff (by decide +kernel) (by decide +kernel) (by decide) hshows hcard .top).mpr
    (by decide +kernel) (fun _ => 0) draws_zero

/-- Without jitter a card between the other two takes the priority of the blazed one. -/
theorem not_move_apart_between :
    Draws (fun bound => bound / 2) ∧
      defaultFilters.Shows String.toLower .priority [] 0 blazedCards (otherCards blazedCards 2) ∧
      (blazedCards.map Card.priority).Nodup ∧
      moveCard (fun bound => bound / 2) (otherCards blazedCards 2) 4 (.at 1) =
        .simple ⟨30, by decide⟩ ∧
      ¬ (blazedCards.map ((moveCard (fun bound => bound / 2) (otherCards blazedCards 2) 4
        (.at 1)).newPriority 4)).Nodup := by
  refine ⟨fun bound hpos => ?_, by decide +kernel⟩
  dsimp only
  omega

end BlazeList
