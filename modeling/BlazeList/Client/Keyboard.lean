import BlazeList.Client.Hidden
import BlazeList.Lib.Exchange

/-!
# Moves by key

A key moves the selected card by one place in the list on the screen, whatever order that is in. The
place is looked up in that list, and the gap and the packed run are read off it as if it were sorted by
priority. Where it is not, the move may do anything to the order of the cards.
-/

namespace BlazeList

/-- Shift+K and Shift+J. -/
inductive MoveKey where
  | up
  | down

def MoveKey.position (key : MoveKey) (filtered : List Card) (cardId : Uuid) : Option InsertPosition :=
  match filtered.findIdx? fun card => card.id = cardId with
  | none => none
  | some index =>
      match key with
      | .up => if index = 0 then none else some (.at (index - 1))
      | .down => if index ≥ filtered.length - 1 then none else some (.at (index + 1))

def moveCardUp (randomRange : Int → Int) (filtered : List Card) (cardId : Uuid) : Option Placement :=
  (MoveKey.up.position filtered cardId).map (moveCard randomRange filtered cardId)

def moveCardDown (randomRange : Int → Int) (filtered : List Card) (cardId : Uuid) : Option Placement :=
  (MoveKey.down.position filtered cardId).map (moveCard randomRange filtered cardId)

def MoveKey.placement (randomRange : Int → Int) (filtered : List Card) (cardId : Uuid) :
    MoveKey → Option Placement
  | .up => moveCardUp randomRange filtered cardId
  | .down => moveCardDown randomRange filtered cardId

/-! ### What a move may do -/

/-- The card and the next one in the order of the priorities have changed places, and all other pairs of
visible cards are in the order they were in. -/
structure Exchanged (shown : List Card) (card : Card) (after : Card → I64) : Prop where
  distinct : (shown.map after).Nodup
  swaps : ∃ next ∈ shown, next ≠ card ∧
    (∀ other ∈ shown, ¬ (min card.priority.val next.priority.val < other.priority.val ∧
      other.priority.val < max card.priority.val next.priority.val)) ∧
    ∀ a ∈ shown, ∀ b ∈ shown, (after a).val < (after b).val ↔
      if a = card ∧ b = next ∨ a = next ∧ b = card then b.priority.val < a.priority.val
      else a.priority.val < b.priority.val

instance (shown : List Card) (card : Card) (after : Card → I64) :
    Decidable (Exchanged shown card after) :=
  decidable_of_iff ((shown.map after).Nodup ∧ ∃ next ∈ shown, next ≠ card ∧ (∀ other ∈ shown, _) ∧
      ∀ a ∈ shown, ∀ b ∈ shown, _)
    ⟨fun ⟨hdistinct, hswaps⟩ => ⟨hdistinct, hswaps⟩, fun h => ⟨h.distinct, h.swaps⟩⟩

/-- No visible card has another priority, or the card has changed places with its neighbour. -/
def StaysOrSwaps (shown : List Card) (card : Card) (after : Card → I64) : Prop :=
  (∀ other ∈ shown, after other = other.priority) ∨ Exchanged shown card after

instance (shown : List Card) (card : Card) (after : Card → I64) :
    Decidable (StaysOrSwaps shown card after) := inferInstanceAs (Decidable (_ ∨ _))

/-! ### When it does no more -/

def Between (first second priority : Int) : Prop :=
  min first second ≤ priority ∧ priority ≤ max first second

instance (first second priority : Int) : Decidable (Between first second priority) :=
  inferInstanceAs (Decidable (_ ∧ _))

/-- The priority is free, and the card passes one card on the way to it. -/
def PassesOne (others : List Card) (card : Card) (priority : Int) : Prop :=
  (∀ other ∈ others, other.priority.val ≠ priority) ∧ ∃ passed ∈ others, ∀ other ∈ others,
    Between card.priority.val priority other.priority.val ↔ other = passed

namespace PackedRun

def InPlace (run : PackedRun) (card : Card) : Prop :=
  card.priority = toI64 (run.target run.slot) ∧ ∀ index < run.packed.length,
    priorityAt run.packed index = (toI64 (run.target (run.slotOf index))).val

/-- The card comes to lie on the other side of `other` when it takes its slot. -/
def Passes (run : PackedRun) (card other : Card) : Prop :=
  (other ∈ run.above ++ run.below ∧
    Between card.priority.val (run.target run.slot) other.priority.val) ∨
  ∃ index < run.packed.length, run.packed[index]? = some other ∧
    (card.priority.val < other.priority.val ↔ run.slot ≤ index)

instance (run : PackedRun) (card other : Card) : Decidable (run.Passes card other) :=
  inferInstanceAs (Decidable (_ ∧ _ ∨ ∃ index < _, _))

/-- The run is one of consecutive cards, no card around it is in the way of a card of the run or on the
slot of the card that is moved, and this one passes one card. -/
structure SpreadsPast (run : PackedRun) (card : Card) : Prop where
  dense : ∀ index, index + 1 < run.packed.length → gapAt run.packed index = 1
  clear : ∀ other ∈ run.above ++ run.below, ∀ index < run.packed.length,
    ¬ Between (priorityAt run.packed index) (run.target (run.slotOf index)) other.priority.val
  free : ∀ other ∈ run.above ++ run.below, other.priority.val ≠ run.target run.slot
  passes : ∃ passed ∈ run.cards, ∀ other ∈ run.cards, run.Passes card other ↔ other = passed

instance (run : PackedRun) (card : Card) : Decidable (run.SpreadsPast card) :=
  decidable_of_iff ((∀ index < run.packed.length, index + 1 < run.packed.length →
      gapAt run.packed index = 1) ∧ (∀ other ∈ run.above ++ run.below, ∀ index < run.packed.length, _) ∧
      (∀ other ∈ run.above ++ run.below, _) ∧ ∃ passed ∈ run.cards, ∀ other ∈ run.cards, _)
    ⟨fun ⟨hdense, hclear, hfree, hpasses⟩ => ⟨fun index hindex => hdense index (by omega) hindex, hclear,
      hfree, hpasses⟩, fun h => ⟨fun index _ => h.dense index, h.clear, h.free, h.passes⟩⟩

end PackedRun

def SwapsAt (others : List Card) (card : Card) (position : InsertPosition) : Prop :=
  let (upper, lower) := cappedBounds others position
  if 1 < upper.val - lower.val then
    ∀ priority : I64, InReach upper lower priority.val →
      priority = card.priority ∨ PassesOne others card priority.val
  else
    let run := packedRun others (position.index others)
    run.InPlace card ∨ run.SpreadsPast card

section

variable {shown : List Card} {card : Card} {after : Card → I64}

theorem mem_otherCards_iff (hids : (shown.map Card.id).Nodup) (hcard : card ∈ shown) {other : Card} :
    other ∈ otherCards shown card.id ↔ other ∈ shown ∧ other ≠ card := by
  rw [otherCards, List.mem_filter, decide_eq_true_eq]
  refine and_congr_right fun hother => not_congr ⟨fun hid => ?_, fun heq => heq ▸ rfl⟩
  exact List.inj_on_of_nodup_map hids hother hcard hid

theorem priority_ne (hpriorities : (shown.map Card.priority).Nodup) {a b : Card} (ha : a ∈ shown)
    (hb : b ∈ shown) (hne : a ≠ b) : a.priority.val ≠ b.priority.val := fun heq =>
  hne (List.inj_on_of_nodup_map hpriorities ha hb (Subtype.ext heq))

theorem exchanged_iff_exchange :
    Exchanged shown card after ↔ Exchange.Exchanged shown Card.priority after card :=
  ⟨fun h => ⟨h.distinct, h.swaps⟩, fun h => ⟨h.distinct, h.swaps⟩⟩

/-- The others keep their order, and the card passes one of them. -/
theorem exchanged_iff (hids : (shown.map Card.id).Nodup)
    (hpriorities : (shown.map Card.priority).Nodup) (hcard : card ∈ shown) :
    Exchanged shown card after ↔
      (∀ a ∈ otherCards shown card.id, ∀ b ∈ otherCards shown card.id,
        (after a).val < (after b).val ↔ a.priority.val < b.priority.val) ∧
      (∀ other ∈ otherCards shown card.id, (after other).val ≠ (after card).val) ∧
      ∃ passed ∈ otherCards shown card.id, ∀ other ∈ otherCards shown card.id,
        (card.priority.val < other.priority.val ↔ (after other).val < (after card).val) ↔
          other = passed := by
  have hothers : ∀ other, other ∈ otherCards shown card.id ↔ other ∈ shown ∧ other ≠ card :=
    fun _ => mem_otherCards_iff hids hcard
  rw [exchanged_iff_exchange, Exchange.exchanged_iff hpriorities hcard hothers]
  refine and_congr_right fun _ => and_congr_left fun _ => ?_
  exact forall₂_congr fun other _ => not_congr Subtype.ext_iff

/-- Nothing moves but the card. -/
theorem staysOrSwaps_simple_iff (hids : (shown.map Card.id).Nodup)
    (hpriorities : (shown.map Card.priority).Nodup) (hcard : card ∈ shown) {priority : I64}
    (hself : after card = priority)
    (hothers : ∀ other ∈ otherCards shown card.id, after other = other.priority) :
    StaysOrSwaps shown card after ↔
      priority = card.priority ∨ PassesOne (otherCards shown card.id) card priority.val := by
  have hstays : (∀ other ∈ shown, after other = other.priority) ↔ priority = card.priority := by
    constructor
    · exact fun h => hself.symm.trans (h card hcard)
    · intro heq other hother
      by_cases hotherCard : other = card
      · rw [hotherCard, hself, heq]
      · exact hothers other ((mem_otherCards_iff hids hcard).mpr ⟨hother, hotherCard⟩)
  refine or_congr hstays ((exchanged_iff hids hpriorities hcard).trans ?_)
  rw [hself]
  constructor
  · rintro ⟨-, hapart, passed, hpassed, hone⟩
    refine ⟨fun other hother heq => hapart other hother ((hothers other hother) ▸ heq), passed, hpassed,
      fun other hother => (Iff.trans ?_ (hone other hother))⟩
    have hfree := hapart other hother
    obtain ⟨hshown, hotherCard⟩ := (mem_otherCards_iff hids hcard).mp hother
    have hne := priority_ne hpriorities hshown hcard hotherCard
    rw [hothers other hother] at hfree ⊢
    unfold Between
    omega
  · rintro ⟨hfree, passed, hpassed, hone⟩
    refine ⟨fun a ha b hb => ?_, fun other hother => ?_, passed, hpassed,
      fun other hother => (Iff.trans ?_ (hone other hother))⟩
    · rw [hothers a ha, hothers b hb]
    · rw [hothers other hother]
      exact hfree other hother
    · have hotherFree := hfree other hother
      obtain ⟨hshown, hotherCard⟩ := (mem_otherCards_iff hids hcard).mp hother
      have hne := priority_ne hpriorities hshown hcard hotherCard
      rw [hothers other hother]
      unfold Between
      omega

/-! ### A run that is spread -/

namespace PackedRun

variable {run : PackedRun} {insertIdx : Nat}

theorem mem_cards_iff {other : Card} : other ∈ run.cards ↔
    other ∈ run.above ++ run.below ∨ ∃ index : Nat, run.packed[index]? = some other := by
  rw [PackedRun.cards, List.mem_append, List.mem_append, List.mem_append, ← List.mem_iff_getElem?]
  tauto

theorem not_packed_of_around (hids : (run.cards.map Card.id).Nodup) {other : Card}
    (h : other ∈ run.above ++ run.below) : other ∉ run.packed := by
  have hnodup := hids.of_map
  rw [PackedRun.cards, List.nodup_append', List.nodup_append'] at hnodup
  obtain ⟨⟨-, -, habove⟩, -, hbelow⟩ := hnodup
  intro hpacked
  rcases List.mem_append.mp h with hmem | hmem
  · exact habove hmem hpacked
  · exact hbelow (List.mem_append_right _ hpacked) hmem

theorem priorityAt_of_getElem? {index : Nat} {other : Card} (h : run.packed[index]? = some other) :
    priorityAt run.packed index = other.priority.val := by
  rw [priorityAt, h]
  rfl

theorem slotOf_lt_slotOf {i j : Nat} (h : i < j) : run.slotOf i < run.slotOf j := by
  rw [slotOf, slotOf]
  split <;> split <;> omega

theorem toI64_le {a b : Int} (h : a ≤ b) : (toI64 a).val ≤ (toI64 b).val := by
  simp only [toI64]
  omega

theorem relocated_around (hids : (run.cards.map Card.id).Nodup) {other : Card}
    (h : other ∈ run.above ++ run.below) : other.relocated run.shifted = other :=
  relocated_eq_self hids (mem_cards_iff.mpr (.inl h)) (not_packed_of_around hids h)

variable {others : List Card}

/-- The slots go down along the run, so the cards have to as well. -/
theorem Framed.dense_of_order (hframed : run.Framed others insertIdx) (hids : (others.map Card.id).Nodup)
    (hpriorities : (others.map Card.priority).Nodup)
    (horder : ∀ a ∈ others, ∀ b ∈ others,
      (a.relocated run.shifted).priority.val < (b.relocated run.shifted).priority.val ↔
        a.priority.val < b.priority.val) {index : Nat} (hindex : index + 1 < run.packed.length) :
    gapAt run.packed index = 1 := by
  have hcards : run.cards = others := hframed.cards_eq
  have hrunIds : (run.cards.map Card.id).Nodup := hcards ▸ hids
  have hupper : run.packed[index]? = some run.packed[index] := List.getElem?_eq_getElem (by omega)
  have hlower : run.packed[index + 1]? = some run.packed[index + 1] := List.getElem?_eq_getElem hindex
  have hupperMem : run.packed[index] ∈ others := hcards ▸ PackedRun.mem_cards hupper
  have hlowerMem : run.packed[index + 1] ∈ others := hcards ▸ PackedRun.mem_cards hlower
  have hpair := horder _ hupperMem _ hlowerMem
  rw [priority_relocated_packed hrunIds hupper, priority_relocated_packed hrunIds hlower] at hpair
  have hslots : run.target (run.slotOf (index + 1)) < run.target (run.slotOf index) :=
    target_lt (slotOf_lt_slotOf (Nat.lt_succ_self index))
  have hle := toI64_le hslots.le
  have hne : run.packed[index] ≠ run.packed[index + 1] := by
    intro heq
    have := (List.Nodup.getElem_inj_iff (hrunIds.of_map.sublist run.packed_sublist)).mp heq
    omega
  have hpriority := priority_ne hpriorities hupperMem hlowerMem hne
  have hclose := hframed.close index hindex
  rw [gapAt, priorityAt_of_getElem? hupper, priorityAt_of_getElem? hlower] at hclose ⊢
  omega

/-- A spread leaves the others in their order when it leaves their order around each card of the run. -/
theorem Framed.order_iff (hframed : run.Framed others insertIdx) (hids : (others.map Card.id).Nodup)
    (hpriorities : (others.map Card.priority).Nodup) (hlength : others.length < 2 ^ 64 - 2) :
    (∀ a ∈ others, ∀ b ∈ others,
      (a.relocated run.shifted).priority.val < (b.relocated run.shifted).priority.val ↔
        a.priority.val < b.priority.val) ↔
    (∀ index, index + 1 < run.packed.length → gapAt run.packed index = 1) ∧
      ∀ other ∈ run.above ++ run.below, ∀ index < run.packed.length,
        ¬ Between (priorityAt run.packed index) (run.target (run.slotOf index)) other.priority.val := by
  have hcards : run.cards = others := hframed.cards_eq
  have hrunIds : (run.cards.map Card.id).Nodup := hcards ▸ hids
  constructor
  · intro horder
    have hdense : ∀ index, index + 1 < run.packed.length → gapAt run.packed index = 1 :=
      fun _ hindex => hframed.dense_of_order hids hpriorities horder hindex
    refine ⟨hdense, fun other hother index hindex hbetween => ?_⟩
    have hget : run.packed[index]? = some run.packed[index] := List.getElem?_eq_getElem hindex
    have hpackedMem : run.packed[index] ∈ others := hcards ▸ PackedRun.mem_cards hget
    have hotherMem : other ∈ others := hcards ▸ mem_cards_iff.mpr (.inl hother)
    have hne : other ≠ run.packed[index] := fun heq =>
      not_packed_of_around hrunIds hother (heq ▸ List.getElem_mem hindex)
    have hpriority := priority_ne hpriorities hotherMem hpackedMem hne
    have hbelow := horder _ hotherMem _ hpackedMem
    have habove := horder _ hpackedMem _ hotherMem
    rw [relocated_around hrunIds hother,
      (hframed.around hdense).relocated_packed hids hlength hget] at hbelow habove
    rw [priorityAt_of_getElem? hget] at hbetween
    unfold Between at hbetween
    omega
  · rintro ⟨hdense, hclear⟩
    have haround := hframed.around hdense
    have hapart : ∀ other ∈ run.above ++ run.below, ∀ {index : Nat} {packed : Card},
        run.packed[index]? = some packed →
          (other.priority.val < (packed.relocated run.shifted).priority.val ↔
            other.priority.val < packed.priority.val) ∧
          ((packed.relocated run.shifted).priority.val < other.priority.val ↔
            packed.priority.val < other.priority.val) := by
      intro other hother index packed hget
      have hnot := hclear other hother index (lt_length hget)
      rw [priorityAt_of_getElem? hget] at hnot
      rw [haround.relocated_packed hids hlength hget]
      unfold Between at hnot
      omega
    intro a ha b hb
    rw [← hcards, mem_cards_iff] at ha hb
    rcases ha with ha | ⟨i, hi⟩
    · rw [relocated_around hrunIds ha]
      rcases hb with hb | ⟨j, hj⟩
      · rw [relocated_around hrunIds hb]
      · exact (hapart a ha hj).1
    · rcases hb with hb | ⟨j, hj⟩
      · rw [relocated_around hrunIds hb]
        exact (hapart b hb hi).2
      · -- both are in the run, where the slots are in the order of the cards
        rw [haround.relocated_packed hids hlength hi, haround.relocated_packed hids hlength hj,
          haround.priority_packed hi, haround.priority_packed hj]
        rcases lt_trichotomy i j with hlt | rfl | hgt
        · have := @target_lt run _ _ (@slotOf_lt_slotOf run _ _ hlt)
          omega
        · omega
        · have := @target_lt run _ _ (@slotOf_lt_slotOf run _ _ hgt)
          omega

/-- Which cards are passed by the card that takes its slot. -/
theorem Around.passes_card_iff (haround : run.Around others insertIdx)
    (hids : (others.map Card.id).Nodup) (hlength : others.length < 2 ^ 64 - 2) {other : Card}
    (hother : other ∈ others) (hne : other.priority.val ≠ card.priority.val)
    (hfree : (other.relocated run.shifted).priority.val ≠ run.target run.slot) :
    run.Passes card other ↔ (card.priority.val < other.priority.val ↔
      (other.relocated run.shifted).priority.val < run.target run.slot) := by
  have hcards : run.cards = others := haround.cards_eq
  have hrunIds : (run.cards.map Card.id).Nodup := hcards ▸ hids
  rw [← hcards, mem_cards_iff] at hother
  rcases hother with hmem | ⟨index, hget⟩
  · have hnot := not_packed_of_around hrunIds hmem
    rw [relocated_around hrunIds hmem] at hfree ⊢
    have hpasses : run.Passes card other ↔
        Between card.priority.val (run.target run.slot) other.priority.val := by
      refine ⟨fun h => ?_, fun h => .inl ⟨hmem, h⟩⟩
      rcases h with ⟨-, hbetween⟩ | ⟨index, -, hget, -⟩
      · exact hbetween
      · exact absurd (List.mem_of_getElem? hget) hnot
    rw [hpasses]
    unfold Between
    omega
  · have hpacked : run.packed.Nodup := hrunIds.of_map.sublist run.packed_sublist
    have hpasses : run.Passes card other ↔
        (card.priority.val < other.priority.val ↔ run.slot ≤ index) := by
      refine ⟨fun h => ?_, fun h => .inr ⟨index, lt_length hget, hget, h⟩⟩
      rcases h with ⟨hmem, -⟩ | ⟨j, -, hj, hside⟩
      · exact absurd (List.mem_of_getElem? hget) (not_packed_of_around hrunIds hmem)
      · obtain rfl : j = index := (List.getElem?_inj (lt_length hj) hpacked).mp (hj.trans hget.symm)
        exact hside
    rw [hpasses, haround.relocated_packed hids hlength hget]
    refine iff_congr Iff.rfl ⟨fun hle => target_lt ?_, fun hlt => ?_⟩
    · rw [slotOf, if_neg (by omega)]
      omega
    · by_contra hslot
      have := @target_lt run (run.slotOf index) run.slot (by rw [slotOf, if_pos (by omega)]; omega)
      omega

end PackedRun

section

variable {run : PackedRun} {insertIdx : Nat}

/-- Nothing moves when the slots are the places that the cards have. -/
theorem stays_iff_inPlace (hcards : run.cards = otherCards shown card.id) (hids : (shown.map Card.id).Nodup)
    (hcard : card ∈ shown) (hself : after card = toI64 (run.target run.slot))
    (hothers : ∀ other ∈ otherCards shown card.id,
      after other = (other.relocated run.shifted).priority) :
    (∀ other ∈ shown, after other = other.priority) ↔ run.InPlace card := by
  have hrunIds : (run.cards.map Card.id).Nodup :=
    hcards ▸ hids.sublist ((otherCards_sublist _ _).map Card.id)
  constructor
  · intro hstays
    refine ⟨(hstays card hcard).symm.trans hself, fun index hindex => ?_⟩
    have hget : run.packed[index]? = some run.packed[index] := List.getElem?_eq_getElem hindex
    have hmem : run.packed[index] ∈ otherCards shown card.id := hcards ▸ PackedRun.mem_cards hget
    have hsame := hstays _ ((mem_otherCards_iff hids hcard).mp hmem).1
    rw [hothers _ hmem, PackedRun.priority_relocated_packed hrunIds hget] at hsame
    rw [PackedRun.priorityAt_of_getElem? hget, hsame]
  · rintro ⟨hplace, hslots⟩ other hother
    by_cases hotherCard : other = card
    · rw [hotherCard, hself, hplace]
    · have hmem := (mem_otherCards_iff hids hcard).mpr ⟨hother, hotherCard⟩
      rw [hothers other hmem]
      rcases PackedRun.mem_cards_iff.mp (hcards ▸ hmem : other ∈ run.cards) with haround | ⟨index, hget⟩
      · rw [PackedRun.relocated_around hrunIds haround]
      · rw [PackedRun.priority_relocated_packed hrunIds hget]
        have hslot := hslots index (PackedRun.lt_length hget)
        rw [PackedRun.priorityAt_of_getElem? hget] at hslot
        exact Subtype.ext hslot.symm

/-- The slot of the card is free when no card around the run has it. -/
theorem PackedRun.Around.free_iff (haround : run.Around (otherCards shown card.id) insertIdx)
    (hids : ((otherCards shown card.id).map Card.id).Nodup)
    (hlength : (otherCards shown card.id).length < 2 ^ 64 - 2) :
    (∀ other ∈ otherCards shown card.id,
      (other.relocated run.shifted).priority.val ≠ run.target run.slot) ↔
    ∀ other ∈ run.above ++ run.below, other.priority.val ≠ run.target run.slot := by
  have hcards : run.cards = otherCards shown card.id := haround.cards_eq
  have hrunIds : (run.cards.map Card.id).Nodup := hcards ▸ hids
  constructor
  · intro hapart other hother
    have hmem : other ∈ otherCards shown card.id := hcards ▸ PackedRun.mem_cards_iff.mpr (.inl hother)
    have hfree := hapart other hmem
    rwa [PackedRun.relocated_around hrunIds hother] at hfree
  · intro hfree other hother
    rcases PackedRun.mem_cards_iff.mp (hcards ▸ hother : other ∈ run.cards) with hmem | ⟨index, hget⟩
    · rw [PackedRun.relocated_around hrunIds hmem]
      exact hfree other hmem
    · rw [haround.relocated_packed hids hlength hget]
      exact fun heq => run.slotOf_ne_slot index (run.target_injective heq)

/-- The others go to their slots, and the card to its own. -/
theorem staysOrSwaps_spread_iff (hframed : run.Framed (otherCards shown card.id) insertIdx)
    (hids : (shown.map Card.id).Nodup) (hpriorities : (shown.map Card.priority).Nodup)
    (hlength : (otherCards shown card.id).length < 2 ^ 64 - 2) (hcard : card ∈ shown)
    (hself : after card = toI64 (run.target run.slot))
    (hothers : ∀ other ∈ otherCards shown card.id,
      after other = (other.relocated run.shifted).priority) :
    StaysOrSwaps shown card after ↔ run.InPlace card ∨ run.SpreadsPast card := by
  have hcards : run.cards = otherCards shown card.id := hframed.cards_eq
  have hotherIds : ((otherCards shown card.id).map Card.id).Nodup :=
    hids.sublist ((otherCards_sublist _ _).map Card.id)
  have hotherPriorities : ((otherCards shown card.id).map Card.priority).Nodup :=
    hpriorities.sublist ((otherCards_sublist _ _).map Card.priority)
  refine or_congr (stays_iff_inPlace hcards hids hcard hself hothers)
    ((exchanged_iff hids hpriorities hcard).trans ?_)
  have horder : (∀ a ∈ otherCards shown card.id, ∀ b ∈ otherCards shown card.id,
      (after a).val < (after b).val ↔ a.priority.val < b.priority.val) ↔
      ∀ a ∈ otherCards shown card.id, ∀ b ∈ otherCards shown card.id,
        (a.relocated run.shifted).priority.val < (b.relocated run.shifted).priority.val ↔
          a.priority.val < b.priority.val := by
    refine forall₂_congr fun a ha => forall₂_congr fun b hb => ?_
    rw [hothers a ha, hothers b hb]
  have hapart : (∀ other ∈ otherCards shown card.id, (after other).val ≠ (after card).val) ↔
      ∀ other ∈ otherCards shown card.id,
        (other.relocated run.shifted).priority.val ≠ (after card).val :=
    forall₂_congr fun other hother => by rw [hothers other hother]
  rw [horder, hapart, hframed.order_iff hotherIds hotherPriorities hlength, hself]
  -- only among consecutive cards are the slots within the range of a priority
  have hpasses : ∀ (haround : run.Around (otherCards shown card.id) insertIdx),
      (∀ other ∈ otherCards shown card.id,
        (other.relocated run.shifted).priority.val ≠ run.target run.slot) →
      ∀ passed, (∀ other ∈ otherCards shown card.id, (card.priority.val < other.priority.val ↔
          (after other).val < run.target run.slot) ↔ other = passed) ↔
        ∀ other ∈ run.cards, run.Passes card other ↔ other = passed := by
    intro haround hfree passed
    rw [hcards]
    refine forall₂_congr fun other hother => ?_
    obtain ⟨hshown, hotherCard⟩ := (mem_otherCards_iff hids hcard).mp hother
    rw [haround.passes_card_iff hotherIds hlength hother
      (priority_ne hpriorities hshown hcard hotherCard) (hfree other hother), hothers other hother]
  constructor
  · rintro ⟨⟨hdense, hclear⟩, hfree, passed, hpassed, hone⟩
    have haround := hframed.around hdense
    rw [haround.toI64_target hlength haround.slot_le] at hfree hone
    exact ⟨hdense, hclear, (haround.free_iff hotherIds hlength).mp hfree, passed, hcards ▸ hpassed,
      (hpasses haround hfree passed).mp hone⟩
  · rintro ⟨hdense, hclear, hfree, passed, hpassed, hone⟩
    have haround := hframed.around hdense
    have hapart := (haround.free_iff hotherIds hlength).mpr hfree
    rw [haround.toI64_target hlength haround.slot_le]
    exact ⟨⟨hdense, hclear⟩, hapart, passed, hcards ▸ hpassed, (hpasses haround hapart passed).mpr hone⟩

end

/-! ### A move by key -/

theorem swapsAt_tight_iff {others : List Card} {position : InsertPosition}
    (htight : (cappedBounds others position).1.val - (cappedBounds others position).2.val ≤ 1) :
    SwapsAt others card position ↔
      (packedRun others (position.index others)).InPlace card ∨
        (packedRun others (position.index others)).SpreadsPast card := by
  unfold SwapsAt
  dsimp only
  rw [if_neg (not_lt.mpr htight)]

/-- A move to a place of the list on the screen. -/
theorem move_staysOrSwaps_iff (hids : (shown.map Card.id).Nodup)
    (hpriorities : (shown.map Card.priority).Nodup) (hlength : shown.length < 2 ^ 64 - 2)
    (hcard : card ∈ shown) (position : InsertPosition) :
    (∀ randomRange, Draws randomRange →
      StaysOrSwaps shown card ((moveCard randomRange shown card.id position).newPriority card.id)) ↔
    SwapsAt (otherCards shown card.id) card position := by
  unfold SwapsAt
  dsimp only
  split
  · rename_i hgap
    have hplacement : ∀ randomRange, moveCard randomRange shown card.id position =
        .simple (computePriority randomRange (cappedBounds (otherCards shown card.id) position).1
          (cappedBounds (otherCards shown card.id) position).2) := by
      intro randomRange
      change placeCard randomRange (otherCards shown card.id) position = _
      rw [placeCard_eq, tryPlace, if_pos hgap]
    have hdrawn : ∀ randomRange, StaysOrSwaps shown card
        ((moveCard randomRange shown card.id position).newPriority card.id) ↔ _ := fun randomRange =>
      staysOrSwaps_simple_iff hids hpriorities hcard (Placement.newPriority_self _ card)
        fun other hother => by
          rw [Placement.newPriority_of_other _ hother, hplacement]
          rfl
    constructor
    · intro hmoves priority hreach
      obtain ⟨randomRange, hdraws, hvalue⟩ := exists_draw hgap hreach
      have hmove := (hdrawn randomRange).mp (hmoves randomRange hdraws)
      have hpriority : (moveCard randomRange shown card.id position).priority = priority := by
        rw [hplacement]
        exact Subtype.ext hvalue
      rwa [hpriority] at hmove
    · intro hpasses randomRange hdraws
      refine (hdrawn randomRange).mpr (hpasses _ ?_)
      rw [hplacement]
      exact inReach_computePriority hdraws hgap
  · rename_i htight
    have hmove : ∀ randomRange, StaysOrSwaps shown card
        ((moveCard randomRange shown card.id position).newPriority card.id) ↔
          (packedRun (otherCards shown card.id) (position.index (otherCards shown card.id))).InPlace card ∨
          (packedRun (otherCards shown card.id)
            (position.index (otherCards shown card.id))).SpreadsPast card := by
      intro randomRange
      obtain ⟨hframed, hpriority, hshifted⟩ := placeCard_framed randomRange position (not_lt.mp htight)
      refine staysOrSwaps_spread_iff hframed hids hpriorities
        ((otherCards_sublist _ _).length_le.trans_lt hlength) hcard
        ((Placement.newPriority_self _ card).trans hpriority) ?_
      intro other hother
      rw [Placement.newPriority_of_other _ hother]
      exact congrArg (fun shifted => (other.relocated shifted).priority) hshifted
    exact ⟨fun hmoves => (hmove _).mp (hmoves _ draws_zero),
      fun hswaps randomRange _ => (hmove randomRange).mpr hswaps⟩

theorem MoveKey.position_of_hidden {shown : List Card} {cardId : Uuid} (key : MoveKey)
    (h : ∀ card ∈ shown, card.id ≠ cardId) : key.position shown cardId = none := by
  have hnone : shown.findIdx? (fun card => card.id = cardId) = none :=
    List.findIdx?_eq_none_iff.mpr fun card hcard => decide_eq_false (h card hcard)
  rw [MoveKey.position, hnone]

theorem MoveKey.placement_eq (key : MoveKey) (randomRange : Int → Int) (shown : List Card)
    (cardId : Uuid) : key.placement randomRange shown cardId =
      (key.position shown cardId).map (moveCard randomRange shown cardId) := by
  cases key <;> rfl

/-- **A key moves the card past its neighbour or not at all**, whatever is drawn for the jitter, exactly
when the others around the place, in the order of the list on the screen, are as `SwapsAt` says. -/
theorem keyMove_iff {toLowercase : String → String} {filters : Filters} {order : SortOrder}
    {allTags : List Tag} {today : Int} {cards : List Card} (hids : (cards.map Card.id).Nodup)
    (hpriorities : (cards.map Card.priority).Nodup) (hlength : cards.length < 2 ^ 63)
    (hshows : filters.Shows toLowercase order allTags today cards shown) (hcard : card ∈ cards)
    (key : MoveKey) :
    (∀ randomRange, Draws randomRange → ∀ placement ∈ key.placement randomRange shown card.id,
      StaysOrSwaps shown card (placement.newPriority card.id)) ↔
    ∀ position ∈ key.position shown card.id, SwapsAt (otherCards shown card.id) card position := by
  by_cases hshown : card ∈ shown
  · have hmove := move_staysOrSwaps_iff (hshows.nodup_map Card.id hids)
      (hshows.nodup_map Card.priority hpriorities)
      (hshows.subperm.length_le.trans_lt (hlength.trans (by decide))) hshown
    constructor
    · intro hmoves position hposition
      refine (hmove position).mp fun randomRange hdraws => hmoves randomRange hdraws _ ?_
      rw [MoveKey.placement_eq]
      exact Option.mem_map_of_mem _ hposition
    · intro hswaps randomRange hdraws placement hplacement
      rw [MoveKey.placement_eq] at hplacement
      obtain ⟨position, hposition, rfl⟩ := Option.mem_map.mp hplacement
      exact (hmove position).mpr (hswaps position hposition) randomRange hdraws
  · have hnone : key.position shown card.id = none := key.position_of_hidden fun other hother hid =>
      hshown (List.inj_on_of_nodup_map hids (hshows.mem hother) hcard hid ▸ hother)
    refine iff_of_true (fun randomRange _ placement hplacement => ?_) fun position hposition => ?_
    · rw [MoveKey.placement_eq, hnone] at hplacement
      cases hplacement
    · rw [hnone] at hposition
      cases hposition

end

/-! ### The default order -/

section

variable {shown : List Card} {card : Card}

theorem otherCards_append {above below : List Card}
    (hids : ((above ++ card :: below).map Card.id).Nodup) :
    otherCards (above ++ card :: below) card.id = above ++ below := by
  rw [List.map_append, List.map_cons, List.nodup_middle, List.nodup_cons, ← List.map_append] at hids
  have hothers : ∀ other ∈ above ++ below, decide (other.id ≠ card.id) = true := fun other hother =>
    decide_eq_true fun hid => hids.1 (List.mem_map.mpr ⟨other, hother, hid⟩)
  rw [otherCards, List.filter_append, List.filter_cons_of_neg (by simp), ← List.filter_append]
  exact List.filter_eq_self.mpr hothers

/-- The place above the card is above its neighbour. -/
theorem MoveKey.passes_up {front below : List Card} {next : Card}
    (hids : (((front ++ [next]) ++ card :: below).map Card.id).Nodup)
    (hupper : ∀ other ∈ front ++ [next], card.priority.val < other.priority.val)
    (hlower : ∀ other ∈ below, other.priority.val < card.priority.val) :
    (∀ other ∈ front, ¬ card.priority.val < other.priority.val ↔ other = next) ∧
      ∀ other ∈ next :: below, card.priority.val < other.priority.val ↔ other = next := by
  have hnext : card.priority.val < next.priority.val := hupper next (by simp)
  constructor
  · intro other hother
    apply iff_of_false (not_not.mpr (hupper other (List.mem_append_left _ hother)))
    rintro rfl
    have hnodup := (List.nodup_append'.mp hids.of_map).1
    exact (List.nodup_append'.mp hnodup).2.2 hother (List.mem_singleton_self _)
  · intro other hother
    rcases List.mem_cons.mp hother with rfl | hmem
    · exact iff_of_true hnext rfl
    · apply iff_of_false (not_lt.mpr (hlower other hmem).le)
      rintro rfl
      exact lt_asymm hnext (hlower other hmem)

/-- The place below the card is below its neighbour. -/
theorem MoveKey.passes_down {above back : List Card} {next : Card}
    (hids : ((above ++ card :: next :: back).map Card.id).Nodup)
    (hupper : ∀ other ∈ above, card.priority.val < other.priority.val)
    (hlower : ∀ other ∈ next :: back, other.priority.val < card.priority.val) :
    (∀ other ∈ above ++ [next], ¬ card.priority.val < other.priority.val ↔ other = next) ∧
      ∀ other ∈ back, card.priority.val < other.priority.val ↔ other = next := by
  have hnext : next.priority.val < card.priority.val := hlower next (by simp)
  constructor
  · intro other hother
    rcases List.mem_append.mp hother with hmem | hmem
    · apply iff_of_false (not_not.mpr (hupper other hmem))
      rintro rfl
      exact lt_asymm hnext (hupper other hmem)
    · obtain rfl := List.mem_singleton.mp hmem
      exact iff_of_true (not_lt.mpr hnext.le) rfl
  · intro other hother
    apply iff_of_false (not_lt.mpr (hlower other (List.mem_cons_of_mem _ hother)).le)
    rintro rfl
    have hnodup := (List.nodup_append'.mp hids.of_map).2.1
    exact (List.nodup_cons.mp (List.nodup_cons.mp hnodup).2).1 hother

/-- In a sorted list the place asked for is on the other side of the neighbour, and of no other card. -/
theorem MoveKey.passes_neighbour (hsorted : SortedDesc shown) (hids : (shown.map Card.id).Nodup)
    (hcard : card ∈ shown) {key : MoveKey} {position : InsertPosition}
    (hposition : position ∈ key.position shown card.id) :
    ∃ passed ∈ otherCards shown card.id,
      (∀ other ∈ (otherCards shown card.id).take (position.index (otherCards shown card.id)),
        ¬ card.priority.val < other.priority.val ↔ other = passed) ∧
      ∀ other ∈ (otherCards shown card.id).drop (position.index (otherCards shown card.id)),
        card.priority.val < other.priority.val ↔ other = passed := by
  obtain ⟨index, hfind⟩ : ∃ index, shown.findIdx? (fun other => other.id = card.id) = some index :=
    Option.isSome_iff_exists.mp (List.findIdx?_isSome.trans
      (List.any_eq_true.mpr ⟨card, hcard, decide_eq_true rfl⟩))
  rw [Option.mem_def, MoveKey.position, hfind] at hposition
  obtain ⟨hindex, hid, -⟩ := List.findIdx?_eq_some_iff_getElem.mp hfind
  have hself : shown[index] = card :=
    List.inj_on_of_nodup_map hids (List.getElem_mem hindex) hcard (of_decide_eq_true hid)
  obtain ⟨above, below, hlength, rfl⟩ : ∃ above below, above.length = index ∧
      shown = above ++ card :: below := by
    refine ⟨shown.take index, shown.drop (index + 1), List.length_take_of_le hindex.le, ?_⟩
    rw [← hself, ← List.drop_eq_getElem_cons hindex, List.take_append_drop]
  rw [otherCards_append hids]
  obtain ⟨-, hbelow, hfront⟩ := List.pairwise_append.mp hsorted
  have hlower := (List.pairwise_cons.mp hbelow).1
  have hupper : ∀ other ∈ above, card.priority.val < other.priority.val := fun other hother =>
    hfront other hother card List.mem_cons_self
  cases key with
  | up =>
      dsimp only at hposition
      split at hposition
      · cases hposition
      · obtain rfl := Option.some.inj hposition
        obtain ⟨front, next, rfl⟩ : ∃ front next, above = front ++ [next] :=
          (List.eq_nil_or_concat' above).resolve_left fun hnil => by
            rw [hnil, List.length_nil] at hlength
            omega
        rw [List.length_append, List.length_singleton] at hlength
        have hplace : (InsertPosition.at (index - 1)).index ((front ++ [next]) ++ below) =
            front.length := by
          simp only [InsertPosition.index, List.length_append, List.length_singleton]
          omega
        rw [hplace, List.append_assoc, List.take_left, List.drop_left]
        exact ⟨next, by simp, MoveKey.passes_up hids hupper hlower⟩
  | down =>
      dsimp only at hposition
      split at hposition
      · cases hposition
      · rename_i hlast
        obtain rfl := Option.some.inj hposition
        rw [List.length_append, List.length_cons] at hlast
        obtain ⟨next, back, rfl⟩ : ∃ next back, below = next :: back :=
          List.exists_cons_of_length_pos (by omega)
        have hplace : (InsertPosition.at (index + 1)).index (above ++ next :: back) =
            (above ++ [next]).length := by
          simp only [InsertPosition.index, List.length_append, List.length_cons, List.length_nil]
          omega
        have hparts : above ++ next :: back = (above ++ [next]) ++ back := by
          rw [List.append_assoc, List.singleton_append]
        rw [hplace, hparts, List.take_left, List.drop_left]
        exact ⟨next, by simp, MoveKey.passes_down hids hupper hlower⟩

/-- In a sorted result the cards above the place are above the one that is put there, and those below it
are below. -/
theorem lt_of_sortedDesc_placed {others : List Card} {placement : Placement} {index : Nat}
    (hafter : SortedDesc ((others.map (Card.relocated placement.shifted)).take index ++
      { card with priority := placement.priority } ::
        (others.map (Card.relocated placement.shifted)).drop index)) :
    (∀ other ∈ others.take index,
      placement.priority.val < (other.relocated placement.shifted).priority.val) ∧
    (∀ other ∈ others.drop index,
      (other.relocated placement.shifted).priority.val < placement.priority.val) ∧
    SortedDesc (others.map (Card.relocated placement.shifted)) := by
  obtain ⟨-, hbelow, habove⟩ := List.pairwise_append.mp hafter
  refine ⟨fun other hother => ?_, fun other hother => ?_, ?_⟩
  · refine habove _ ?_ _ List.mem_cons_self
    rw [← List.map_take]
    exact List.mem_map.mpr ⟨other, hother, rfl⟩
  · apply (List.pairwise_cons.mp hbelow).1 _
    rw [← List.map_drop]
    exact List.mem_map.mpr ⟨other, hother, rfl⟩
  · have hsub := (List.sublist_cons_self { card with priority := placement.priority }
      ((others.map (Card.relocated placement.shifted)).drop index)).append_left
        ((others.map (Card.relocated placement.shifted)).take index)
    rw [List.take_append_drop] at hsub
    exact hafter.sublist hsub

/-- A move by key that leaves the visible cards sorted is an exchange with the neighbour. -/
theorem MoveKey.exchanged_of_sortedDesc (hsorted : SortedDesc shown) (hids : (shown.map Card.id).Nodup)
    (hcard : card ∈ shown) {key : MoveKey} {position : InsertPosition}
    (hposition : position ∈ key.position shown card.id) {placement : Placement}
    (hafter : SortedDesc (((otherCards shown card.id).map (Card.relocated placement.shifted)).take
      (position.index (otherCards shown card.id)) ++ { card with priority := placement.priority } ::
        ((otherCards shown card.id).map (Card.relocated placement.shifted)).drop
          (position.index (otherCards shown card.id)))) :
    Exchanged shown card (placement.newPriority card.id) := by
  obtain ⟨hupper, hlower, hmoved⟩ := lt_of_sortedDesc_placed hafter
  obtain ⟨passed, hpassed, htake, hdrop⟩ := key.passes_neighbour hsorted hids hcard hposition
  have hotherSorted : SortedDesc (otherCards shown card.id) :=
    hsorted.sublist (otherCards_sublist _ _)
  have hparts : ∀ other ∈ otherCards shown card.id,
      other ∈ (otherCards shown card.id).take (position.index (otherCards shown card.id)) ∨
        other ∈ (otherCards shown card.id).drop (position.index (otherCards shown card.id)) := by
    intro other hother
    rw [← List.mem_append, List.take_append_drop]
    exact hother
  refine (exchanged_iff hids hsorted.nodup_priorities hcard).mpr ⟨fun a ha b hb => ?_,
    fun other hother => ?_, passed, hpassed, fun other hother => ?_⟩
  · have hrelocated : (otherCards shown card.id).Pairwise fun a b =>
        (b.relocated placement.shifted).priority.val < (a.relocated placement.shifted).priority.val :=
      List.pairwise_map.mp hmoved
    rw [placement.newPriority_of_other ha, placement.newPriority_of_other hb]
    exact List.lt_iff_lt_of_pairwise hrelocated hotherSorted ha hb
  · rw [placement.newPriority_self, placement.newPriority_of_other hother]
    rcases hparts other hother with hmem | hmem
    · exact (hupper other hmem).ne'
    · exact (hlower other hmem).ne
  · rw [placement.newPriority_self, placement.newPriority_of_other hother]
    rcases hparts other hother with hmem | hmem
    · rw [← htake other hmem]
      have := hupper other hmem
      omega
    · rw [← hdrop other hmem]
      have := hlower other hmem
      omega

/-- In the default order a key does no more than it should unless the other cards crowd the top. -/
theorem MoveKey.swapsAt_iff (hsorted : SortedDesc shown) (hids : (shown.map Card.id).Nodup)
    (hlength : shown.length < 2 ^ 64 - 2) (hcard : card ∈ shown) {key : MoveKey}
    {position : InsertPosition} (hposition : position ∈ key.position shown card.id) :
    SwapsAt (otherCards shown card.id) card position ↔
      ¬ CrowdedTop (otherCards shown card.id) (position.index (otherCards shown card.id)) := by
  have hpriorities := hsorted.nodup_priorities
  have hotherSorted : SortedDesc (otherCards shown card.id) :=
    hsorted.sublist (otherCards_sublist _ _)
  have hotherIds : ((otherCards shown card.id).map Card.id).Nodup :=
    hids.sublist ((otherCards_sublist _ _).map Card.id)
  have hotherLength : (otherCards shown card.id).length < 2 ^ 64 - 2 :=
    (otherCards_sublist _ _).length_le.trans_lt hlength
  rw [← move_staysOrSwaps_iff hids hpriorities hlength hcard position]
  constructor
  · intro hmoves hcrowded
    have hdistinct : (shown.map ((moveCard (fun _ => 0) shown card.id position).newPriority
        card.id)).Nodup := by
      rcases hmoves _ draws_zero with hstays | hswaps
      · rwa [List.map_congr_left hstays]
      · exact hswaps.distinct
    have hmapped : ((otherCards shown card.id).map (Card.relocated (moveCard (fun _ => 0) shown card.id
        position).shifted)).map Card.priority = (otherCards shown card.id).map
          ((moveCard (fun _ => 0) shown card.id position).newPriority card.id) := by
      rw [List.map_map]
      exact (List.map_congr_left fun other hother => Placement.newPriority_of_other _ hother).symm
    apply hcrowded.not_nodup hotherSorted hotherIds hotherLength (fun _ => 0)
    exact hmapped ▸ hdistinct.sublist ((otherCards_sublist _ _).map _)
  · intro hroom randomRange _
    refine .inr (MoveKey.exchanged_of_sortedDesc hsorted hids hcard hposition ?_)
    exact sortedDesc_placed randomRange hotherSorted hotherIds hotherLength card position
      fun run haround => haround.fits_iff.mpr hroom

end

/-! ### Samples -/

/-- The lowest of three consecutive cards is moved up. -/
theorem keyMove_iff_wide :
    ∃ placement, moveCardUp (fun _ => 0) wideCards 1 = some placement ∧
      StaysOrSwaps wideCards (sampleCard 1 ⟨1, by decide⟩) (placement.newPriority 1) := by
  have hcard : sampleCard 1 ⟨1, by decide⟩ ∈ wideCards := by decide +kernel
  have hshows : defaultFilters.Shows String.toLower .priority [] 0 wideCards wideCards := by
    decide +kernel
  have hposition : MoveKey.up.position wideCards 1 = some (.at 1) := by decide +kernel
  have htight : (cappedBounds (otherCards wideCards 1) (.at 1)).1.val -
      (cappedBounds (otherCards wideCards 1) (.at 1)).2.val ≤ 1 := by decide +kernel
  have hswaps := keyMove_iff (by decide +kernel) (by decide +kernel) (by decide) hshows hcard .up
  refine ⟨_, congrArg (Option.map (moveCard (fun _ => 0) wideCards 1)) hposition, ?_⟩
  refine hswaps.mpr (fun position hmem => ?_) (fun _ => 0) draws_zero _
    (congrArg (Option.map (moveCard (fun _ => 0) wideCards 1)) hposition)
  obtain rfl : InsertPosition.at 1 = position := Option.some.inj (hposition.symm.trans hmem)
  exact (swapsAt_tight_iff htight).mpr (.inr (by decide +kernel))

/-- In the reverse order the highest card is the last one of the list, and goes up between the other two.
The lowest one is then the highest, although it was not moved. -/
theorem not_keyMove_reverse :
    defaultFilters.Shows String.toLower .priorityReverse [] 0 wideCards wideCards.reverse ∧
      (wideCards.map Card.priority).Nodup ∧
      ∃ placement ∈ moveCardUp (fun _ => 0) wideCards.reverse 3,
        (applyPlacement (otherCards wideCards 3) (sampleCard 3 ⟨3, by decide⟩) placement).map Card.id =
          [1, 3, 2] ∧
        ¬ StaysOrSwaps wideCards.reverse (sampleCard 3 ⟨3, by decide⟩) (placement.newPriority 3) := by
  decide +kernel

end BlazeList
