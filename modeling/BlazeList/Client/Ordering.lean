import BlazeList.Client.Rebalance

/-!
# The order of the cards

What a run of placements does to the list. A placement puts its card where it was asked for and leaves
the others in their order, whether there was a gap or the packed run had to be spread: as long as no card
touches an end of the range, the free space around a packed run has room for one card more.
-/

namespace BlazeList

/-! ### Applying a placement -/

def Placement.priority : Placement → I64
  | .simple priority | .rebalanced priority _ => priority

def Placement.shifted : Placement → List (Uuid × I64)
  | .simple _ => []
  | .rebalanced _ shifted => shifted

def Card.relocated (shifted : List (Uuid × I64)) (card : Card) : Card :=
  { card with
    priority := ((shifted.find? fun move => move.1 = card.id).map Prod.snd).getD card.priority }

def applyPlacement (cards : List Card) (card : Card) (placement : Placement) : List Card :=
  byPriority ({ card with priority := placement.priority } ::
    cards.map (Card.relocated placement.shifted))

inductive OrderStep where
  | place (randomRange : Int → Int) (card : Card) (position : InsertPosition)
  | move (randomRange : Int → Int) (cardId : Uuid) (target : InsertPosition)
  | collide (randomRange : Int → Int) (card : Card) (desiredPriority : I64)

/-- A new card is placed, and a card of the list is moved. A card with a taken priority may be either. -/
def orderStep (cards : List Card) : OrderStep → List Card
  | .place randomRange card position =>
      if cards.any fun other => other.id = card.id then cards
      else applyPlacement cards card (placeCard randomRange cards position)
  | .move randomRange cardId target =>
      match cards.find? fun card => card.id = cardId with
      | some card =>
          applyPlacement (otherCards cards cardId) card (moveCard randomRange cards cardId target)
      | none => cards
  | .collide randomRange card desiredPriority =>
      applyPlacement (otherCards cards card.id) card
        (resolveCollision randomRange (otherCards cards card.id) desiredPriority)

/-! ### What is to hold -/

/-- The priorities are distinct, sorted, and strictly inside the range of the integers. -/
structure Ordered (cards : List Card) : Prop where
  sorted : SortedDesc cards
  inside : ∀ card ∈ cards, i64Min < card.priority.val ∧ card.priority.val < i64Max
  ids : (cards.map Card.id).Nodup

def InsertPosition.index (cards : List Card) : InsertPosition → Nat
  | .top => 0
  | .bottom => cards.length
  | .at index => min index cards.length

/-- The card is at the index, and the others are around it in their order. -/
def PlacedAt (cards after : List Card) (cardId : Uuid) (index : Nat) : Prop :=
  let ids := (otherCards cards cardId).map Card.id
  after.map Card.id = ids.take index ++ cardId :: ids.drop index

/-- A card whose priority is taken goes below the cards of higher priority. -/
def OrderStep.Placed (cards after : List Card) : OrderStep → Prop
  | .place _ card position =>
      (∀ other ∈ cards, other.id ≠ card.id) → PlacedAt cards after card.id (position.index cards)
  | .move _ cardId target =>
      (∃ card ∈ cards, card.id = cardId) →
        PlacedAt cards after cardId (target.index (otherCards cards cardId))
  | .collide _ card desiredPriority =>
      PlacedAt cards after card.id ((otherCards cards card.id).countP fun other =>
        desiredPriority.val < other.priority.val)

/-! ### A gap -/

section

variable {randomRange : Int → Int} {cards : List Card} {position : InsertPosition}

theorem insertIdx_eq_index (cards : List Card) (position : InsertPosition) :
    insertIdx cards position = position.index cards := by
  cases position <;> rfl

theorem computePriority_between {upper lower : I64} (h : 1 < upper.val - lower.val) :
    lower.val < (computePriority randomRange upper lower).val ∧
      (computePriority randomRange upper lower).val < upper.val := by
  have hupper := upper.property
  have hlower := lower.property
  unfold computePriority
  dsimp only
  split
  · rename_i hgap
    have hhalf : (upper.val - lower.val).tdiv 2 = 1 := by
      rw [Int.tdiv_eq_ediv_of_nonneg (by omega)]
      omega
    rw [hhalf, toI64_val (by omega) (by omega)]
    omega
  · rw [toI64_val (by omega) (by omega)]
    omega

/-- Capping moves a bound towards the other one, and leaves a gap a gap. -/
theorem capEdgeBounds_within {upper lower : I64} :
    lower.val ≤ (capEdgeBounds upper lower).2.val ∧ (capEdgeBounds upper lower).1.val ≤ upper.val := by
  have hupper := upper.property
  have hlower := lower.property
  unfold capEdgeBounds
  split
  · exact ⟨le_rfl, le_rfl⟩
  · rename_i hgap
    rw [maxEdgeGap, not_le] at hgap
    constructor
    · dsimp only
      split
      · rw [maxEdgeGap, toI64_val (by omega) (by omega)]
        omega
      · exact le_rfl
    · dsimp only
      split
      · rw [maxEdgeGap, toI64_val (by omega) (by omega)]
        omega
      · exact le_rfl

theorem SortedDesc.le_of_le (hsorted : SortedDesc cards) {i j : Nat} (hij : i ≤ j)
    (hj : j < cards.length) : cards[j].priority.val ≤ cards[i].priority.val := by
  rcases Nat.lt_or_eq_of_le hij with hlt | rfl
  · exact (List.pairwise_iff_getElem.mp hsorted i j (by omega) hj hlt).le
  · exact le_rfl

/-- The bounds of a place separate the cards above it from those below. -/
theorem bounds_separate (hsorted : SortedDesc cards) (position : InsertPosition) :
    (∀ card ∈ cards.take (position.index cards),
      (boundsForPosition cards position).1.val ≤ card.priority.val) ∧
    ∀ card ∈ cards.drop (position.index cards),
      card.priority.val ≤ (boundsForPosition cards position).2.1.val := by
  have hupper : ∀ h : position.index cards - 1 < cards.length, 0 < position.index cards →
      (boundsForPosition cards position).1 = cards[position.index cards - 1].priority := by
    intro h hpos
    cases position with
    | top => exact absurd hpos (lt_irrefl 0)
    | bottom =>
        simp only [InsertPosition.index] at h ⊢
        rw [boundsForPosition, List.getLast?_eq_getElem?, List.getElem?_eq_getElem h]
        rfl
    | «at» index =>
        simp only [InsertPosition.index] at h hpos ⊢
        rw [boundsForPosition]
        dsimp only
        rw [if_neg (by omega), List.getElem?_eq_getElem h]
        rfl
  have hlower : ∀ h : position.index cards < cards.length,
      (boundsForPosition cards position).2.1 = cards[position.index cards].priority := by
    intro h
    cases position with
    | top =>
        simp only [InsertPosition.index] at h ⊢
        rw [boundsForPosition, List.head?_eq_getElem?, List.getElem?_eq_getElem h]
        rfl
    | bottom => exact absurd h (lt_irrefl cards.length)
    | «at» index =>
        simp only [InsertPosition.index] at h ⊢
        rw [boundsForPosition]
        dsimp only
        rw [List.getElem?_eq_getElem h]
        rfl
  constructor
  · intro card hcard
    obtain ⟨i, hi, rfl⟩ := List.mem_take_iff_getElem.mp hcard
    have hle := insertIdx_le cards position
    rw [insertIdx_eq_index] at hle
    have hlast : position.index cards - 1 < cards.length := by omega
    have hbefore : i ≤ position.index cards - 1 := by omega
    rw [hupper hlast (by omega)]
    exact hsorted.le_of_le hbefore hlast
  · intro card hcard
    obtain ⟨i, hi, rfl⟩ := List.mem_drop_iff_getElem.mp hcard
    have hfirst : position.index cards < cards.length := by omega
    rw [hlower hfirst]
    exact hsorted.le_of_le (Nat.le_add_right _ i) _

/-! ### Sorted lists -/

/-- A card between two parts of a sorted list. -/
theorem sortedDesc_insert {above below : List Card} {placed : Card}
    (habove : ∀ card ∈ above, placed.priority.val < card.priority.val)
    (hbelow : ∀ card ∈ below, card.priority.val < placed.priority.val)
    (hsortedAbove : SortedDesc above) (hsortedBelow : SortedDesc below) :
    SortedDesc (above ++ placed :: below) := by
  refine List.pairwise_append.mpr ⟨hsortedAbove, List.pairwise_cons.mpr ⟨hbelow, hsortedBelow⟩, ?_⟩
  intro upper hupper lower hlower
  rcases List.mem_cons.mp hlower with rfl | hlower
  · exact habove upper hupper
  · exact (hbelow lower hlower).trans (habove upper hupper)

theorem byPriority_eq {sorted : List Card} (hperm : sorted.Perm cards) (hsorted : SortedDesc sorted) :
    byPriority cards = sorted := by
  refine (List.eq_orderBy_of_perm ?_ hperm ?_).symm
  · intro a ha b hb hkey
    obtain ⟨i, hi, rfl⟩ := List.mem_iff_getElem.mp (hperm.mem_iff.mpr ha)
    obtain ⟨j, hj, rfl⟩ := List.mem_iff_getElem.mp (hperm.mem_iff.mpr hb)
    rcases lt_trichotomy i j with hlt | rfl | hgt
    · have := List.pairwise_iff_getElem.mp hsorted i j hi hj hlt
      omega
    · rfl
    · have := List.pairwise_iff_getElem.mp hsorted j i hj hi hgt
      omega
  · exact hsorted.imp fun hlt => by omega

/-- A placed list is ordered when it is sorted and the placed card is the only new one. -/
theorem Ordered.insert (hordered : Ordered cards) {placed : Card} {after : List Card} {index : Nat}
    (hnew : ∀ other ∈ cards, other.id ≠ placed.id) (hsorted : SortedDesc after)
    (hids : after.map Card.id =
      (cards.map Card.id).take index ++ placed.id :: (cards.map Card.id).drop index)
    (hinside : ∀ other ∈ after, i64Min < other.priority.val ∧ other.priority.val < i64Max) :
    Ordered after := by
  refine ⟨hsorted, hinside, ?_⟩
  rw [hids, List.perm_middle.nodup_iff, List.take_append_drop, List.nodup_cons]
  refine ⟨fun hmem => ?_, hordered.ids⟩
  obtain ⟨other, hother, hid⟩ := List.mem_map.mp hmem
  exact hnew other hother hid

/-- A priority strictly between the bounds of the place. -/
theorem SortedDesc.insert (hsorted : SortedDesc cards) (position : InsertPosition) {placed : Card}
    (hlower : (boundsForPosition cards position).2.1.val < placed.priority.val)
    (hupper : placed.priority.val < (boundsForPosition cards position).1.val) :
    SortedDesc (cards.take (position.index cards) ++ placed :: cards.drop (position.index cards)) := by
  obtain ⟨habove, hbelow⟩ := bounds_separate hsorted position
  refine sortedDesc_insert (fun card hcard => hupper.trans_le (habove card hcard))
    (fun card hcard => (hbelow card hcard).trans_lt hlower) ?_ ?_
  · exact hsorted.sublist (List.take_sublist _ _)
  · exact hsorted.sublist (List.drop_sublist _ _)

end

/-! ### A spread run -/

namespace PackedRun

variable {run : PackedRun} {cards : List Card} {insertIdx : Nat}

/-- No card touches an end of the range, so the run and one more card fit into the space around it. -/
theorem Around.fits (haround : run.Around cards insertIdx) (hordered : Ordered cards)
    (hlength : cards.length < 2 ^ 64 - 2) : (run.packed.length : Int) + 2 ≤ run.upper - run.lower := by
  have hpos := haround.nonempty
  have hlast : run.packed.length - 1 < run.packed.length := by omega
  have hbottom := haround.priorityAt_packed hlast
  rw [priorityAt_getElem hlast] at hbottom
  have hfirst : run.packed[0].priority.val = run.top := by
    rw [top, priorityAt_getElem hpos]
  have hinsideFirst := hordered.inside _ (haround.mem_cards (List.getElem?_eq_getElem hpos))
  have hinsideLast := hordered.inside _ (haround.mem_cards (List.getElem?_eq_getElem hlast))
  have hupper : run.top + 1 ≤ run.upper ∧ (run.above ≠ [] → run.top + 2 ≤ run.upper) := by
    refine ⟨?_, haround.top_le_upper.2⟩
    by_cases habove : run.above = []
    · have hmax : run.upper = i64Max := by simp [upper, habove]
      omega
    · have := haround.top_le_upper.2 habove
      omega
  have hlower : run.lower + run.packed.length ≤ run.top ∧
      (run.below ≠ [] → run.lower + run.packed.length + 1 ≤ run.top) := by
    refine ⟨?_, haround.lower_le_bottom.2⟩
    by_cases hbelow : run.below = []
    · have hmin : run.lower = i64Min := by simp [lower, hbelow]
      omega
    · have := haround.lower_le_bottom.2 hbelow
      omega
  by_cases habove : run.above = []
  · by_cases hbelow : run.below = []
    · -- the run is the whole list, in the whole range
      have hpacked : run.packed.length ≤ cards.length := by
        rw [← haround.cards_eq, PackedRun.cards]
        simp only [List.length_append]
        omega
      simp only [PackedRun.upper, PackedRun.lower, habove, hbelow, List.getLast?_nil, List.head?_nil,
        Option.map_none, Option.getD_none, i64Max, i64Min]
      omega
    · have := hlower.2 hbelow
      omega
  · have := hupper.2 habove
    omega

theorem target_lt {a b : Nat} (h : a < b) : run.target b < run.target a := by
  have hstep := run.one_le_step
  have hmul : run.step * ((a : Int) + 1) < run.step * ((b : Int) + 1) :=
    mul_lt_mul_of_pos_left (by omega) (by omega)
  rw [target, target]
  omega

/-- Where the cards of the run are afterwards. -/
theorem priority_relocated_packed (hids : (run.cards.map Card.id).Nodup) {index : Nat} {card : Card}
    (hget : run.packed[index]? = some card) :
    (card.relocated run.shifted).priority = toI64 (run.target (run.slotOf index)) := by
  unfold Card.relocated
  dsimp only
  cases hfind : run.shifted.find? fun move => move.1 = card.id with
  | some move =>
      have hholds := List.find?_some hfind
      have hid : move.1 = card.id := of_decide_eq_true hholds
      obtain ⟨other, otherCard, hother, -, rfl⟩ := mem_shifted_iff.mp (List.mem_of_find?_eq_some hfind)
      have hsame : otherCard = card :=
        List.inj_on_of_nodup_map hids (mem_cards hother) (mem_cards hget) hid
      have hpacked : run.packed.Nodup := hids.of_map.sublist run.packed_sublist
      obtain rfl : other = index :=
        (List.getElem?_inj (lt_length hother) hpacked).mp (hother.trans (hsame ▸ hget.symm))
      rfl
  | none =>
      by_contra hne
      have hmem : (card.id, toI64 (run.target (run.slotOf index))) ∈ run.shifted :=
        mem_shifted_iff.mpr ⟨index, card, hget, fun heq => hne heq.symm, rfl⟩
      exact List.find?_eq_none.mp hfind _ hmem (decide_eq_true rfl)

theorem Around.relocated_packed (haround : run.Around cards insertIdx)
    (hids : (cards.map Card.id).Nodup) (hlength : cards.length < 2 ^ 64 - 2) {index : Nat} {card : Card}
    (hget : run.packed[index]? = some card) :
    (card.relocated run.shifted).priority.val = run.target (run.slotOf index) := by
  rw [← haround.toI64_target hlength (run.slotOf_le (lt_length hget))]
  exact congrArg Subtype.val (priority_relocated_packed (haround.cards_eq ▸ hids) hget)

/-- The cards around the run stay where they are. -/
theorem relocated_eq_self (hids : (run.cards.map Card.id).Nodup) {card : Card}
    (hcard : card ∈ run.cards) (hnot : card ∉ run.packed) : card.relocated run.shifted = card := by
  unfold Card.relocated
  cases hfind : run.shifted.find? fun move => move.1 = card.id with
  | none => rfl
  | some move =>
      have hholds := List.find?_some hfind
      have hid : move.1 = card.id := of_decide_eq_true hholds
      obtain ⟨other, otherCard, hother, -, rfl⟩ := mem_shifted_iff.mp (List.mem_of_find?_eq_some hfind)
      have hsame : otherCard = card := List.inj_on_of_nodup_map hids (mem_cards hother) hcard hid
      exact absurd (hsame ▸ List.mem_of_getElem? hother) hnot

theorem Around.relocated_of_not_packed (haround : run.Around cards insertIdx)
    (hids : (cards.map Card.id).Nodup) {card : Card} (hcard : card ∈ cards) (hnot : card ∉ run.packed) :
    card.relocated run.shifted = card :=
  relocated_eq_self (haround.cards_eq ▸ hids) (haround.cards_eq ▸ hcard) hnot

theorem Around.map_relocated (haround : run.Around cards insertIdx)
    (hids : (cards.map Card.id).Nodup) :
    cards.map (Card.relocated run.shifted) =
      run.above ++ run.packed.map (Card.relocated run.shifted) ++ run.below := by
  have hcards : run.above ++ run.packed ++ run.below = cards := haround.cards_eq
  have hnodup := hids.of_map
  rw [← hcards, List.nodup_append', List.nodup_append'] at hnodup
  obtain ⟨⟨-, -, habovePacked⟩, -, hpackedBelow⟩ := hnodup
  have hstays : ∀ part : List Card, (∀ card ∈ part, card ∈ cards ∧ card ∉ run.packed) →
      part.map (Card.relocated run.shifted) = part := by
    intro part hpart
    calc part.map (Card.relocated run.shifted)
        = part.map id := List.map_congr_left fun card hcard =>
          haround.relocated_of_not_packed hids (hpart card hcard).1 (hpart card hcard).2
      _ = part := List.map_id part
  have habove := hstays run.above fun card hcard => by
    refine ⟨?_, fun hpacked => habovePacked hcard hpacked⟩
    rw [← hcards]
    exact List.mem_append_left _ (List.mem_append_left _ hcard)
  have hbelow := hstays run.below fun card hcard => by
    refine ⟨?_, fun hpacked => hpackedBelow (List.mem_append_right _ hpacked) hcard⟩
    rw [← hcards]
    exact List.mem_append_right _ hcard
  calc cards.map (Card.relocated run.shifted)
      = (run.above ++ run.packed ++ run.below).map (Card.relocated run.shifted) := by rw [hcards]
    _ = run.above ++ run.packed.map (Card.relocated run.shifted) ++ run.below := by
      rw [List.map_append, List.map_append, habove, hbelow]

/-- The gap holds every slot of the run. -/
theorem Around.target_between (haround : run.Around cards insertIdx) (hfits : run.Fits)
    (hlength : cards.length < 2 ^ 64 - 2) {slot : Nat} (hslot : slot ≤ run.packed.length) :
    run.target slot < run.upper ∧ (run.below ≠ [] → run.lower < run.target slot) := by
  obtain ⟨-, hupper, hlower⟩ := haround.target_bounds hlength hslot
  exact ⟨hupper, fun hbelow => hlower (hfits.resolve_left hbelow)⟩

def spreadRun (run : PackedRun) : List Card := run.packed.map (Card.relocated run.shifted)

theorem length_spreadRun : run.spreadRun.length = run.packed.length := List.length_map _

theorem Around.getElem_spreadRun (haround : run.Around cards insertIdx)
    (hids : (cards.map Card.id).Nodup) (hlength : cards.length < 2 ^ 64 - 2) {i : Nat}
    (hi : i < run.spreadRun.length) :
    run.spreadRun[i].priority.val = run.target (run.slotOf i) := by
  have hpacked : i < run.packed.length := length_spreadRun ▸ hi
  have hget : run.spreadRun[i] = run.packed[i].relocated run.shifted := List.getElem_map _
  rw [hget]
  exact haround.relocated_packed hids hlength (List.getElem?_eq_getElem hpacked)

theorem Around.spreadRun_between (haround : run.Around cards insertIdx)
    (hids : (cards.map Card.id).Nodup) (hfits : run.Fits) (hlength : cards.length < 2 ^ 64 - 2) :
    ∀ card ∈ run.spreadRun,
      card.priority.val < run.upper ∧ (run.below ≠ [] → run.lower < card.priority.val) := by
  intro card hcard
  obtain ⟨i, hi, rfl⟩ := List.mem_iff_getElem.mp hcard
  rw [haround.getElem_spreadRun hids hlength hi]
  exact haround.target_between hfits hlength (run.slotOf_le (length_spreadRun ▸ hi))

theorem Around.sortedDesc_relocated (haround : run.Around cards insertIdx) (hsorted : SortedDesc cards)
    (hids : (cards.map Card.id).Nodup) (hfits : run.Fits) (hlength : cards.length < 2 ^ 64 - 2) :
    SortedDesc (cards.map (Card.relocated run.shifted)) := by
  have hcards : run.above ++ run.packed ++ run.below = cards := haround.cards_eq
  have hin := haround.spreadRun_between hids hfits hlength
  have hparts := hsorted
  rw [← hcards, SortedDesc, List.pairwise_append, List.pairwise_append] at hparts
  obtain ⟨⟨hsortedAbove, -, -⟩, hsortedBelow, hapart⟩ := hparts
  have hsortedRun : run.spreadRun.Pairwise fun a b => b.priority.val < a.priority.val := by
    refine List.pairwise_iff_getElem.mpr fun i j hi hj hij => ?_
    rw [haround.getElem_spreadRun hids hlength hi, haround.getElem_spreadRun hids hlength hj]
    apply target_lt
    rw [slotOf, slotOf]
    split <;> split <;> omega
  rw [haround.map_relocated hids, SortedDesc, List.pairwise_append, List.pairwise_append]
  refine ⟨⟨hsortedAbove, hsortedRun, fun upper hupper card hcard => ?_⟩, hsortedBelow,
    fun card hcard lower hlower => ?_⟩
  · exact (hin card hcard).1.trans_le (haround.upper_le hsorted upper hupper)
  · have hle := haround.le_lower hsorted lower hlower
    rcases List.mem_append.mp hcard with hcard | hcard
    · exact hapart card (List.mem_append_left _ hcard) lower hlower
    · exact hle.trans_lt ((hin card hcard).2 (List.ne_nil_of_mem hlower))

/-- With no card at an end of the range the slots are strictly inside it. -/
theorem Around.target_inside (haround : run.Around cards insertIdx) (hordered : Ordered cards)
    (hlength : cards.length < 2 ^ 64 - 2) {slot : Nat} (hslot : slot ≤ run.packed.length) :
    i64Min < run.target slot ∧ run.target slot < i64Max := by
  obtain ⟨-, hupper, hlower⟩ := haround.target_bounds hlength hslot
  have hin := hlower (haround.fits hordered hlength)
  obtain ⟨hmin, hmax⟩ := run.bounds_inRange
  omega

theorem Around.relocated_inside (haround : run.Around cards insertIdx) (hordered : Ordered cards)
    (hlength : cards.length < 2 ^ 64 - 2) :
    ∀ card ∈ cards.map (Card.relocated run.shifted),
      i64Min < card.priority.val ∧ card.priority.val < i64Max := by
  have hcards : run.above ++ run.packed ++ run.below = cards := haround.cards_eq
  intro card hcard
  rw [haround.map_relocated hordered.ids, List.mem_append, List.mem_append] at hcard
  rcases hcard with (hcard | hcard) | hcard
  · apply hordered.inside card
    rw [← hcards]
    exact List.mem_append_left _ (List.mem_append_left _ hcard)
  · change card ∈ run.spreadRun at hcard
    obtain ⟨i, hi, rfl⟩ := List.mem_iff_getElem.mp hcard
    rw [haround.getElem_spreadRun hordered.ids hlength hi]
    exact haround.target_inside hordered hlength (run.slotOf_le (length_spreadRun ▸ hi))
  · apply hordered.inside card
    rw [← hcards]
    exact List.mem_append_right _ hcard

theorem Around.take_relocated (haround : run.Around cards insertIdx)
    (hids : (cards.map Card.id).Nodup) :
    (cards.map (Card.relocated run.shifted)).take insertIdx =
      run.above ++ run.spreadRun.take run.slot := by
  have hle : run.slot ≤ run.spreadRun.length := length_spreadRun ▸ haround.slot_le
  rw [haround.map_relocated hids, ← haround.insertIdx_eq, List.append_assoc,
    List.take_length_add_append]
  exact congrArg (run.above ++ ·) (List.take_append_of_le_length hle)

theorem Around.drop_relocated (haround : run.Around cards insertIdx)
    (hids : (cards.map Card.id).Nodup) :
    (cards.map (Card.relocated run.shifted)).drop insertIdx =
      run.spreadRun.drop run.slot ++ run.below := by
  have hle : run.slot ≤ run.spreadRun.length := length_spreadRun ▸ haround.slot_le
  rw [haround.map_relocated hids, ← haround.insertIdx_eq, List.append_assoc,
    List.drop_length_add_append]
  exact List.drop_append_of_le_length hle

/-- The spread run with the placed card in its slot. -/
theorem Around.spread (haround : run.Around cards insertIdx) (hsorted : SortedDesc cards)
    (hids : (cards.map Card.id).Nodup) (hfits : run.Fits) (hlength : cards.length < 2 ^ 64 - 2)
    {placed : Card} (hpriority : placed.priority.val = run.target run.slot) :
    let moved := cards.map (Card.relocated run.shifted)
    SortedDesc (moved.take insertIdx ++ placed :: moved.drop insertIdx) := by
  intro moved
  have hmovedSorted : SortedDesc moved := haround.sortedDesc_relocated hsorted hids hfits hlength
  have hplaced := haround.target_between hfits hlength haround.slot_le
  refine sortedDesc_insert (fun card hcard => ?_) (fun card hcard => ?_)
    (hmovedSorted.sublist (List.take_sublist _ _)) (hmovedSorted.sublist (List.drop_sublist _ _))
  · rw [hpriority]
    rw [haround.take_relocated hids] at hcard
    rcases List.mem_append.mp hcard with hcard | hcard
    · exact hplaced.1.trans_le (haround.upper_le hsorted card hcard)
    · obtain ⟨i, hi, rfl⟩ := List.mem_take_iff_getElem.mp hcard
      rw [haround.getElem_spreadRun hids hlength (by omega)]
      apply target_lt
      rw [slotOf, if_pos (by omega)]
      omega
  · rw [hpriority]
    rw [haround.drop_relocated hids] at hcard
    rcases List.mem_append.mp hcard with hcard | hcard
    · obtain ⟨i, hi, rfl⟩ := List.mem_drop_iff_getElem.mp hcard
      rw [haround.getElem_spreadRun hids hlength (by omega)]
      apply target_lt
      rw [slotOf, if_neg (by omega)]
      omega
    · exact (haround.le_lower hsorted card hcard).trans_lt (hplaced.2 (List.ne_nil_of_mem hcard))

end PackedRun

/-! ### One placement -/

section

variable {randomRange : Int → Int} {cards : List Card} {position : InsertPosition}

/-- In an empty list there is a gap. -/
theorem ne_nil_of_tight (h : (boundsForPosition cards position).1.val -
    (boundsForPosition cards position).2.1.val ≤ 1) : cards ≠ [] := by
  rintro rfl
  cases position with
  | top => exact absurd h (by decide)
  | bottom => exact absurd h (by decide)
  | «at» index =>
      have hbounds : boundsForPosition [] (.at index) = (i64MaxValue, i64MinValue, 0) := by
        simp [boundsForPosition]
      rw [hbounds] at h
      exact absurd h (by decide)

def cappedBounds (cards : List Card) (position : InsertPosition) : I64 × I64 :=
  capEdgeBounds (boundsForPosition cards position).1 (boundsForPosition cards position).2.1

theorem placeCard_eq (randomRange : Int → Int) (cards : List Card) (position : InsertPosition) :
    placeCard randomRange cards position =
      tryPlace randomRange cards (cappedBounds cards position).1 (cappedBounds cards position).2
        (position.index cards) := by
  rw [← insertIdx_eq_index]
  rfl

/-- Without a gap the packed run is spread, whatever order the cards are in. -/
theorem placeCard_framed (randomRange : Int → Int) (position : InsertPosition)
    (htight : (cappedBounds cards position).1.val - (cappedBounds cards position).2.val ≤ 1) :
    let run := packedRun cards (position.index cards)
    run.Framed cards (position.index cards) ∧
      (placeCard randomRange cards position).priority = toI64 (run.target run.slot) ∧
      (placeCard randomRange cards position).shifted = run.shifted := by
  intro run
  have hgap := gap_le_of_capEdgeBounds htight
  have hne := ne_nil_of_tight hgap
  have hle := insertIdx_le cards position
  have hinside := bounds_eq_gapAt cards position
  rw [insertIdx_eq_index] at hle hinside
  have hframed : run.Framed cards (position.index cards) :=
    packedRun_framed hne hle fun hpos hlt => by
      rw [← hinside hpos hlt]
      exact hgap
  refine ⟨hframed, ?_⟩
  rw [placeCard_eq, tryPlace, if_neg (not_lt.mpr htight), rebalance_eq randomRange hne hle hframed]
  split
  · rename_i hempty
    exact ⟨rfl, (List.isEmpty_iff.mp hempty).symm⟩
  · exact ⟨rfl, rfl⟩

theorem placeCard_tight (randomRange : Int → Int) (hsorted : SortedDesc cards)
    (position : InsertPosition)
    (htight : (cappedBounds cards position).1.val - (cappedBounds cards position).2.val ≤ 1) :
    let run := packedRun cards (position.index cards)
    run.Around cards (position.index cards) ∧
      (placeCard randomRange cards position).priority = toI64 (run.target run.slot) ∧
      (placeCard randomRange cards position).shifted = run.shifted := by
  obtain ⟨hframed, hgives⟩ := placeCard_framed randomRange position htight
  exact ⟨hframed.around_of_sorted hsorted, hgives⟩

/-- A placement takes a priority in the gap, or that of the slot in the packed run. -/
theorem placeCard_cases (randomRange : Int → Int) (hsorted : SortedDesc cards) (position : InsertPosition) :
    (∃ priority, placeCard randomRange cards position = .simple priority ∧
      (boundsForPosition cards position).2.1.val < priority.val ∧
      priority.val < (boundsForPosition cards position).1.val) ∨
    ∃ run : PackedRun, run.Around cards (position.index cards) ∧
      (placeCard randomRange cards position).priority = toI64 (run.target run.slot) ∧
      (placeCard randomRange cards position).shifted = run.shifted := by
  by_cases hgap : 1 < (cappedBounds cards position).1.val - (cappedBounds cards position).2.val
  · obtain ⟨hlower, hupper⟩ := @computePriority_between randomRange _ _ hgap
    obtain ⟨hcappedLower, hcappedUpper⟩ := @capEdgeBounds_within (boundsForPosition cards position).1
      (boundsForPosition cards position).2.1
    rw [placeCard_eq, tryPlace, if_pos hgap]
    exact .inl ⟨_, rfl, hcappedLower.trans_lt hlower, hupper.trans_le hcappedUpper⟩
  · exact .inr ⟨_, placeCard_tight randomRange hsorted position (not_lt.mp hgap)⟩

/-- A list in which the placed card and the others are sorted is the placed list. -/
theorem applyPlacement_eq {card : Card} {placement : Placement} {index : Nat} {moved : List Card}
    (hmoved : moved = cards.map (Card.relocated placement.shifted)) {placed : Card}
    (hplaced : placed = { card with priority := placement.priority })
    (hsorted : SortedDesc (moved.take index ++ placed :: moved.drop index)) :
    applyPlacement cards card placement = moved.take index ++ placed :: moved.drop index := by
  refine byPriority_eq ?_ hsorted
  rw [← hmoved, ← hplaced]
  exact List.perm_middle.trans ((List.take_append_drop index _).symm ▸ List.Perm.refl _)

/-- The moved cards with the placed card between them are sorted. -/
theorem sortedDesc_placed (randomRange : Int → Int) (hsorted : SortedDesc cards)
    (hids : (cards.map Card.id).Nodup) (hlength : cards.length < 2 ^ 64 - 2) (card : Card)
    (position : InsertPosition)
    (hfits : ∀ run : PackedRun, run.Around cards (position.index cards) → run.Fits) :
    let placement := placeCard randomRange cards position
    let moved := cards.map (Card.relocated placement.shifted)
    SortedDesc (moved.take (position.index cards) ++ { card with priority := placement.priority } ::
      moved.drop (position.index cards)) := by
  intro placement moved
  rcases placeCard_cases randomRange hsorted position with
    ⟨priority, hplacement, hlower, hupper⟩ | ⟨run, haround, hpriority, hshifted⟩
  · have hself : moved = cards := by
      change cards.map (Card.relocated (placeCard randomRange cards position).shifted) = cards
      rw [hplacement]
      exact List.map_id cards
    have hpriority : placement.priority = priority := congrArg Placement.priority hplacement
    rw [hself, hpriority]
    exact hsorted.insert position hlower hupper
  · have hmoved : moved = cards.map (Card.relocated run.shifted) :=
      congrArg (fun shifted => cards.map (Card.relocated shifted)) hshifted
    have hval : placement.priority.val = run.target run.slot :=
      (congrArg Subtype.val hpriority).trans (haround.toI64_target hlength haround.slot_le)
    rw [hmoved]
    exact haround.spread hsorted hids (hfits run haround) hlength hval

/-- A placed card is where it was asked for, and the others are in their order. -/
theorem sorted_applyPlacement (randomRange : Int → Int) (hsorted : SortedDesc cards)
    (hids : (cards.map Card.id).Nodup) (hlength : cards.length < 2 ^ 64 - 2) (card : Card)
    (position : InsertPosition)
    (hfits : ∀ run : PackedRun, run.Around cards (position.index cards) → run.Fits) :
    let after := applyPlacement cards card (placeCard randomRange cards position)
    SortedDesc after ∧ after.map Card.id = (cards.map Card.id).take (position.index cards) ++
      card.id :: (cards.map Card.id).drop (position.index cards) := by
  intro after
  have hsortedAfter := sortedDesc_placed randomRange hsorted hids hlength card position hfits
  have hmovedIds : (cards.map (Card.relocated (placeCard randomRange cards position).shifted)).map
      Card.id = cards.map Card.id := List.map_map
  have hafter : after = _ := applyPlacement_eq rfl rfl hsortedAfter
  rw [hafter, List.map_append, List.map_cons, List.map_take, List.map_drop, hmovedIds]
  exact ⟨hsortedAfter, rfl⟩

theorem inside_applyPlacement (randomRange : Int → Int) (hordered : Ordered cards)
    (hlength : cards.length < 2 ^ 64 - 2) (card : Card) (position : InsertPosition) :
    ∀ other ∈ applyPlacement cards card (placeCard randomRange cards position),
      i64Min < other.priority.val ∧ other.priority.val < i64Max := by
  intro other hother
  have hmem := (List.orderBy_perm _ _).mem_iff.mp hother
  rcases placeCard_cases randomRange hordered.sorted position with
    ⟨priority, hplacement, hlower, hupper⟩ | ⟨run, haround, hpriority, hshifted⟩
  · have hself : cards.map (Card.relocated (placeCard randomRange cards position).shifted) =
        cards := by
      rw [hplacement]
      exact List.map_id cards
    rw [hself] at hmem
    rcases List.mem_cons.mp hmem with rfl | hmem
    · have hlowest := (boundsForPosition cards position).2.1.property
      have hhighest := (boundsForPosition cards position).1.property
      rw [hplacement]
      exact ⟨hlowest.1.trans_lt hlower, hupper.trans_le hhighest.2⟩
    · exact hordered.inside other hmem
  · rcases List.mem_cons.mp hmem with rfl | hmem
    · have hval := haround.toI64_target hlength haround.slot_le
      rw [hpriority, hval]
      exact haround.target_inside hordered hlength haround.slot_le
    · rw [hshifted] at hmem
      exact haround.relocated_inside hordered hlength other hmem

theorem applyPlacement_placeCard (randomRange : Int → Int) (hordered : Ordered cards)
    (hlength : cards.length < 2 ^ 64 - 2) {card : Card} (hnew : ∀ other ∈ cards, other.id ≠ card.id)
    (position : InsertPosition) :
    let after := applyPlacement cards card (placeCard randomRange cards position)
    Ordered after ∧ after.map Card.id = (cards.map Card.id).take (position.index cards) ++
      card.id :: (cards.map Card.id).drop (position.index cards) := by
  intro after
  obtain ⟨hsorted, hids⟩ := sorted_applyPlacement randomRange hordered.sorted hordered.ids hlength card
    position fun run haround => .inr (haround.fits hordered hlength)
  exact ⟨hordered.insert hnew hsorted hids
    (inside_applyPlacement randomRange hordered hlength card position), hids⟩

theorem Ordered.others (hordered : Ordered cards) (id : Uuid) : Ordered (otherCards cards id) where
  sorted := hordered.sorted.sublist (otherCards_sublist _ _)
  inside card hcard := hordered.inside card ((otherCards_sublist _ _).subset hcard)
  ids := hordered.ids.sublist ((otherCards_sublist _ _).map Card.id)

/-- On a sorted list the first card that is not above a priority comes after those that are. -/
theorem findIdx_eq_countP (hsorted : SortedDesc cards) (desired : Int) :
    cards.findIdx (fun card => card.priority.val ≤ desired) =
      cards.countP fun card => desired < card.priority.val := by
  induction cards with
  | nil => rfl
  | cons card rest ih =>
      obtain ⟨hbelow, hrest⟩ := List.pairwise_cons.mp hsorted
      rw [List.findIdx_cons]
      by_cases hle : card.priority.val ≤ desired
      · have hnone : (card :: rest).countP (fun card => desired < card.priority.val) = 0 := by
          refine List.countP_eq_zero.mpr fun other hother habove => ?_
          have habove := of_decide_eq_true habove
          rcases List.mem_cons.mp hother with rfl | hother
          · omega
          · have := hbelow other hother
            omega
        rw [hnone, decide_eq_true hle]
        rfl
      · have habove : decide (desired < card.priority.val) = true := decide_eq_true (not_le.mp hle)
        rw [List.countP_cons, if_pos habove, decide_eq_false hle]
        exact congrArg (· + 1) (ih hrest)

end

/-! ### Runs -/

/-- A call keeps the order and puts its card where it is asked to. -/
theorem Ordered.step {cards : List Card} (hordered : Ordered cards)
    (hlength : cards.length < 2 ^ 64 - 2) (step : OrderStep) :
    Ordered (orderStep cards step) ∧ step.Placed cards (orderStep cards step) := by
  have hothers : ∀ id, (otherCards cards id).length < 2 ^ 64 - 2 :=
    fun id => (otherCards_sublist cards id).length_le.trans_lt hlength
  have hnot : ∀ id, ∀ other ∈ otherCards cards id, other.id ≠ id :=
    fun id other hother => id_ne_of_mem_otherCards hother
  cases step with
  | place randomRange card position =>
      unfold orderStep OrderStep.Placed
      dsimp only
      split
      · rename_i hknown
        obtain ⟨other, hother, hid⟩ := List.any_eq_true.mp hknown
        exact ⟨hordered, fun hnew => absurd (of_decide_eq_true hid) (hnew other hother)⟩
      · rename_i hnew
        have hfresh : ∀ other ∈ cards, other.id ≠ card.id := fun other hother hid =>
          hnew (List.any_eq_true.mpr ⟨other, hother, decide_eq_true hid⟩)
        have hself : otherCards cards card.id = cards :=
          List.filter_eq_self.mpr fun other hother => decide_eq_true (hfresh other hother)
        obtain ⟨hafter, hids⟩ := applyPlacement_placeCard randomRange hordered hlength hfresh position
        refine ⟨hafter, fun _ => ?_⟩
        rw [PlacedAt, hself]
        exact hids
  | move randomRange cardId target =>
      unfold orderStep OrderStep.Placed
      dsimp only
      split
      · rename_i card hfind
        have hholds := List.find?_some hfind
        obtain rfl : card.id = cardId := of_decide_eq_true hholds
        obtain ⟨hafter, hids⟩ := applyPlacement_placeCard randomRange (hordered.others card.id)
          (hothers card.id) (hnot card.id) target
        exact ⟨hafter, fun _ => hids⟩
      · rename_i hnone
        refine ⟨hordered, fun ⟨card, hcard, hid⟩ => ?_⟩
        exact absurd (decide_eq_true hid) (List.find?_eq_none.mp hnone card hcard)
  | collide randomRange card desiredPriority =>
      have hordered' := hordered.others card.id
      obtain ⟨hafter, hids⟩ := applyPlacement_placeCard randomRange hordered' (hothers card.id)
        (hnot card.id) (.at ((otherCards cards card.id).findIdx fun other =>
          other.priority.val ≤ desiredPriority.val))
      have hindex : (InsertPosition.at ((otherCards cards card.id).findIdx fun other =>
          other.priority.val ≤ desiredPriority.val)).index (otherCards cards card.id) =
            (otherCards cards card.id).countP fun other => desiredPriority.val < other.priority.val := by
        rw [InsertPosition.index, min_eq_left List.findIdx_le_length]
        exact findIdx_eq_countP hordered'.sorted desiredPriority.val
      rw [hindex] at hids
      exact ⟨hafter, hids⟩

/-- From the empty list on, every placement, move and resolved collision keeps the priorities apart and
puts its card where it is asked to. -/
theorem order_run (steps : List OrderStep)
    (hcount : Run.Meets orderStep (fun cards _ => cards.length < 2 ^ 63) [] steps) :
    Run.Meets orderStep
      (fun cards step => Ordered (orderStep cards step) ∧ step.Placed cards (orderStep cards step))
      [] steps :=
  hcount.imp_of_invariant Ordered ⟨.nil, fun _ hnil => absurd hnil List.not_mem_nil, .nil⟩
    (fun _ step hordered hlength => (hordered.step (hlength.trans (by decide)) step).1)
    fun _ step hordered hlength => hordered.step (hlength.trans (by decide)) step

/-- Two cards at the top, then one between them, and the lowest moved to the top. -/
theorem order_run_sample :
    let steps := [
      .place (fun _ => 0) (sampleCard 1 ⟨0, by decide⟩) .top,
      .place (fun _ => 0) (sampleCard 2 ⟨0, by decide⟩) .top,
      .place (fun _ => 0) (sampleCard 3 ⟨0, by decide⟩) (.at 1),
      .move (fun _ => 0) 1 .top]
    Run.Meets orderStep
      (fun cards step => Ordered (orderStep cards step) ∧ step.Placed cards (orderStep cards step))
      [] steps :=
  order_run _ (by decide +kernel)

end BlazeList
