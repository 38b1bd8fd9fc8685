import BlazeList.Protocol.Entity
import Mathlib.Algebra.Order.Group.Int

/-!
# Priority placement

Cards are ordered by priority, highest first. A new place is taken in the gap between two neighbours.
When there is no gap, the packed range around the place is spread over the free space around it.
-/

namespace BlazeList

/-! ### Integers -/

def i64MinValue : I64 := ⟨i64Min, by decide⟩

def i64MaxValue : I64 := ⟨i64Max, by decide⟩

/-- `clamp(i64::MIN, i64::MAX) as i64`. -/
def toI64 (value : Int) : I64 :=
  ⟨max i64Min (min value i64Max), by
    simp only [i64Min, i64Max]
    omega⟩

theorem toI64_val {value : Int} (hmin : i64Min ≤ value) (hmax : value ≤ i64Max) :
    (toI64 value).val = value := by
  simp only [toI64]
  omega

/-! ### Placement -/

def jitterDivisor : Int := 16

/-- Midpoint and jitter. `randomRange n` is the number drawn from `0..n`. -/
def computePriority (randomRange : Int → Int) (upper lower : I64) : I64 :=
  let gap := upper.val - lower.val
  let midpoint := lower.val + gap.tdiv 2
  if gap ≤ 2 then
    toI64 midpoint
  else
    let jitterRange := max (gap.tdiv jitterDivisor) 1
    let jitter := randomRange (jitterRange * 2 + 1) - jitterRange
    toI64 (min (max (midpoint + jitter) (lower.val + 1)) (upper.val - 1))

inductive InsertPosition where
  | top
  | bottom
  | at (index : Nat)
  deriving DecidableEq

inductive Placement where
  | simple (priority : I64)
  | rebalanced (priority : I64) (shifted : List (Uuid × I64))
  deriving DecidableEq

def maxEdgeGap : Int := 65536

/-- Only a bound that is a virtual extreme is capped. -/
def capEdgeBounds (upper lower : I64) : I64 × I64 :=
  if upper.val - lower.val ≤ maxEdgeGap then
    (upper, lower)
  else
    (if upper = i64MaxValue ∧ lower ≠ i64MinValue then toI64 (lower.val + maxEdgeGap) else upper,
      if lower = i64MinValue ∧ upper ≠ i64MaxValue then toI64 (upper.val - maxEdgeGap) else lower)

def boundsForPosition (cards : List Card) : InsertPosition → I64 × I64 × Nat
  | .top => (i64MaxValue, (cards.head?.map Card.priority).getD i64MinValue, 0)
  | .bottom => ((cards.getLast?.map Card.priority).getD i64MaxValue, i64MinValue, cards.length)
  | .at index =>
      let index := min index cards.length
      (if index = 0 then i64MaxValue else (cards[index - 1]?.map Card.priority).getD i64MaxValue,
        (cards[index]?.map Card.priority).getD i64MinValue, index)

def priorityAt (cards : List Card) (index : Nat) : Int :=
  (cards[index]?.map fun card => card.priority.val).getD 0

def gapAt (cards : List Card) (index : Nat) : Int := priorityAt cards index - priorityAt cards (index + 1)

/-- The first loop: to the left while the gap is at most 1. -/
def expandLeft (cards : List Card) : Nat → Nat
  | 0 => 0
  | left + 1 => if gapAt cards left > 1 then left + 1 else expandLeft cards left

/-- The second loop, with the number of cards that are left to the right. -/
def expandRight (cards : List Card) : Nat → Nat → Nat
  | right, 0 => right
  | right, rest + 1 => if gapAt cards right > 1 then right else expandRight cards (right + 1) rest

structure Redistribution where
  slot : Nat
  newPriority : Option I64
  shifted : List (Uuid × I64)

def slotPriority (rangeUpper step : Int) (slot : Nat) : I64 := toI64 (rangeUpper - step * (slot + 1))

/-- The third loop: the new card takes its slot, and the card the one after. -/
def redistribute (rangeUpper step : Int) (newSlot : Nat) (state : Redistribution) (card : Card) :
    Redistribution :=
  let state :=
    if state.slot = newSlot ∧ state.newPriority = none then
      { state with
        newPriority := some (slotPriority rangeUpper step state.slot)
        slot := state.slot + 1 }
    else
      state
  let newPriority := slotPriority rangeUpper step state.slot
  { state with
    shifted :=
      if newPriority ≠ card.priority then state.shifted ++ [(card.id, newPriority)]
      else state.shifted
    slot := state.slot + 1 }

def rebalance (randomRange : Int → Int) (cards : List Card) (insertIdx : Nat) : Placement :=
  if cards.isEmpty then
    .simple (computePriority randomRange i64MaxValue i64MinValue)
  else
    let left := expandLeft cards (insertIdx - 1)
    let start := if insertIdx < cards.length then insertIdx else cards.length - 1
    let right := expandRight cards start (cards.length - 1 - start)
    let rangeUpper := if left = 0 then i64Max else priorityAt cards (left - 1)
    let rangeLower := if right ≥ cards.length - 1 then i64Min else priorityAt cards (right + 1)
    let rangeCount := right - left + 1
    let totalSlots := rangeCount + 1
    let space := rangeUpper - rangeLower
    let step := max (space.tdiv (totalSlots + 1)) 1
    let final := ((cards.drop left).take rangeCount).foldl
      (redistribute rangeUpper step (insertIdx - left)) ⟨0, none, []⟩
    let priority := final.newPriority.getD (slotPriority rangeUpper step final.slot)
    if final.shifted.isEmpty then .simple priority else .rebalanced priority final.shifted

def tryPlace (randomRange : Int → Int) (cards : List Card) (upper lower : I64) (insertIdx : Nat) :
    Placement :=
  if upper.val - lower.val > 1 then
    .simple (computePriority randomRange upper lower)
  else
    rebalance randomRange cards insertIdx

/-- `cards` are sorted by priority, the highest first. -/
def placeCard (randomRange : Int → Int) (cards : List Card) (position : InsertPosition) : Placement :=
  let (upper, lower, insertIdx) := boundsForPosition cards position
  let (upper, lower) := capEdgeBounds upper lower
  tryPlace randomRange cards upper lower insertIdx

def moveCard (randomRange : Int → Int) (cards : List Card) (cardId : Uuid) (target : InsertPosition) :
    Placement :=
  let others := cards.filter fun card => card.id ≠ cardId
  let (upper, lower, insertIdx) := boundsForPosition others target
  let (upper, lower) := capEdgeBounds upper lower
  tryPlace randomRange others upper lower insertIdx

def resolveCollision (randomRange : Int → Int) (cards : List Card) (desiredPriority : I64) :
    Placement :=
  placeCard randomRange cards
    (.at (cards.findIdx fun card => card.priority.val ≤ desiredPriority.val))

/-- New versions of the shifted cards. There are none when a card is at the last count. -/
def buildShiftedVersions [Blake3] (shifted : List (Uuid × I64)) (allCards : List Card)
    (now : DateTime) : Option (List Card) :=
  (shifted.filterMap fun (id, priority) =>
    (allCards.find? fun card => card.id = id).map fun card => (card, priority)).mapM
    fun (card, priority) =>
      card.next card.content priority card.tags card.blazed now card.dueDate

end BlazeList
