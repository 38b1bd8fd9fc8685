import BlazeList.Client.Priority
import Mathlib.Data.List.Basic
import Mathlib.Tactic.Linarith

/-!
# The packed run

Where a rebalance happens: a run of cards with consecutive priorities, the new card's slot in it, and the
free space up to the neighbours of the run. The cards and the new one are spread over this space evenly,
whatever the loops that find it do on the way.
-/

namespace BlazeList

def SortedDesc (cards : List Card) : Prop :=
  cards.Pairwise fun a b => b.priority.val < a.priority.val

/-! ### The loops -/

section Loops

variable {cards : List Card}

theorem expandLeft_spec (cards : List Card) (start : Nat) :
    expandLeft cards start ≤ start ∧
      (∀ i, expandLeft cards start ≤ i → i < start → gapAt cards i ≤ 1) ∧
      (0 < expandLeft cards start → 1 < gapAt cards (expandLeft cards start - 1)) := by
  induction start with
  | zero => exact ⟨le_rfl, fun i _ hi => absurd hi (Nat.not_lt_zero i), fun h => absurd h (Nat.lt_irrefl 0)⟩
  | succ left ih =>
      rw [expandLeft]
      split
      · rename_i hgap
        exact ⟨le_rfl, fun i hle hlt => absurd hlt (Nat.not_lt.mpr hle), fun _ => hgap⟩
      · rename_i hgap
        obtain ⟨hle, hpacked, hedge⟩ := ih
        refine ⟨hle.trans (Nat.le_succ left), fun i hi hlt => ?_, hedge⟩
        rcases Nat.lt_succ_iff_lt_or_eq.mp hlt with hlt | rfl
        · exact hpacked i hi hlt
        · exact not_lt.mp hgap

theorem expandRight_spec (cards : List Card) (start rest : Nat) :
    start ≤ expandRight cards start rest ∧ expandRight cards start rest ≤ start + rest ∧
      (∀ i, start ≤ i → i < expandRight cards start rest → gapAt cards i ≤ 1) ∧
      (expandRight cards start rest < start + rest →
        1 < gapAt cards (expandRight cards start rest)) := by
  induction rest generalizing start with
  | zero =>
      exact ⟨le_rfl, le_rfl, fun i hle hlt => absurd hlt (Nat.not_lt.mpr hle),
        fun h => absurd h (Nat.lt_irrefl start)⟩
  | succ rest ih =>
      rw [expandRight]
      split
      · rename_i hgap
        exact ⟨le_rfl, Nat.le_add_right _ _, fun i hle hlt => absurd hlt (Nat.not_lt.mpr hle),
          fun _ => hgap⟩
      · rename_i hgap
        obtain ⟨hstart, hle, hpacked, hedge⟩ := ih (start + 1)
        refine ⟨by omega, by omega, fun i hi hlt => ?_, fun h => hedge (by omega)⟩
        by_cases heq : i = start
        · exact heq ▸ not_lt.mp hgap
        · exact hpacked i (by omega) hlt

theorem priorityAt_getElem {index : Nat} (h : index < cards.length) :
    priorityAt cards index = cards[index].priority.val := by
  simp [priorityAt, h]

theorem SortedDesc.one_le_gapAt (hsorted : SortedDesc cards) {index : Nat}
    (h : index + 1 < cards.length) : 1 ≤ gapAt cards index := by
  have hlt := List.pairwise_iff_getElem.mp hsorted index (index + 1) (by omega) h (by omega)
  rw [gapAt, priorityAt_getElem h, priorityAt_getElem (by omega)]
  omega

end Loops

/-! ### The run -/

/-- Cards around a place: those above the run, the run, those below it, and the slot of the place. -/
structure PackedRun where
  above : List Card
  packed : List Card
  below : List Card
  slot : Nat

namespace PackedRun

variable (run : PackedRun)

def cards : List Card := run.above ++ run.packed ++ run.below

theorem packed_sublist : run.packed.Sublist run.cards :=
  (List.sublist_append_right _ _).trans (List.sublist_append_left _ _)

def upper : Int := (run.above.getLast?.map fun card => card.priority.val).getD i64Max

def lower : Int := (run.below.head?.map fun card => card.priority.val).getD i64Min

def step : Int := max ((run.upper - run.lower).tdiv (run.packed.length + 2)) 1

/-- The slot of a card of the run: the slots from the new card's on move down by one. -/
def slotOf (index : Nat) : Nat := if index < run.slot then index else index + 1

def target (slot : Nat) : Int := run.upper - run.step * (slot + 1)

def shifted : List (Uuid × I64) :=
  run.packed.zipIdx.filterMap fun (card, index) =>
    if toI64 (run.target (run.slotOf index)) ≠ card.priority then
      some (card.id, toI64 (run.target (run.slotOf index)))
    else
      none

/-- `run` is the packed run of `cards` around the place `insertIdx`. -/
structure Around (cards : List Card) (insertIdx : Nat) : Prop where
  cards_eq : run.cards = cards
  insertIdx_eq : run.above.length + run.slot = insertIdx
  nonempty : 0 < run.packed.length
  dense : ∀ i, i + 1 < run.packed.length → gapAt run.packed i = 1
  above_gap : run.above ≠ [] → priorityAt run.packed 0 + 1 < run.upper
  below_gap : run.below ≠ [] → run.lower + 1 < priorityAt run.packed (run.packed.length - 1)
  slot_pos : run.above ≠ [] → 0 < run.slot
  slot_lt : run.below ≠ [] → run.slot < run.packed.length
  slot_le : run.slot ≤ run.packed.length

/-- The bounds that the loops find in any list: within the run no gap is wider than 1. -/
structure Framed (cards : List Card) (insertIdx : Nat) : Prop where
  cards_eq : run.cards = cards
  insertIdx_eq : run.above.length + run.slot = insertIdx
  nonempty : 0 < run.packed.length
  close : ∀ i, i + 1 < run.packed.length → gapAt run.packed i ≤ 1
  above_gap : run.above ≠ [] → priorityAt run.packed 0 + 1 < run.upper
  below_gap : run.below ≠ [] → run.lower + 1 < priorityAt run.packed (run.packed.length - 1)
  slot_pos : run.above ≠ [] → 0 < run.slot
  slot_lt : run.below ≠ [] → run.slot < run.packed.length
  slot_le : run.slot ≤ run.packed.length

variable {run} in
theorem Around.framed {cards : List Card} {insertIdx : Nat} (h : run.Around cards insertIdx) :
    run.Framed cards insertIdx :=
  ⟨h.cards_eq, h.insertIdx_eq, h.nonempty, fun i hi => (h.dense i hi).le, h.above_gap, h.below_gap,
    h.slot_pos, h.slot_lt, h.slot_le⟩

variable {run} in
theorem Framed.around {cards : List Card} {insertIdx : Nat} (h : run.Framed cards insertIdx)
    (hdense : ∀ i, i + 1 < run.packed.length → gapAt run.packed i = 1) : run.Around cards insertIdx :=
  ⟨h.cards_eq, h.insertIdx_eq, h.nonempty, hdense, h.above_gap, h.below_gap, h.slot_pos, h.slot_lt,
    h.slot_le⟩

variable {run} in
/-- In a sorted list the cards of the run have consecutive priorities. -/
theorem Framed.around_of_sorted {cards : List Card} {insertIdx : Nat} (h : run.Framed cards insertIdx)
    (hsorted : SortedDesc cards) : run.Around cards insertIdx := by
  have hpacked : SortedDesc run.packed := by
    rw [← h.cards_eq] at hsorted
    exact hsorted.sublist run.packed_sublist
  exact h.around fun i hi => le_antisymm (h.close i hi) (hpacked.one_le_gapAt hi)

end PackedRun

/-! ### The redistribution -/

/-- The card at `index` of the run, once the cards before it are done. -/
theorem redistribute_eq (rangeUpper step : Int) (newSlot index : Nat) (card : Card)
    (shifted : List (Uuid × I64)) :
    redistribute rangeUpper step newSlot
        ⟨if index ≤ newSlot then index else index + 1,
          if index ≤ newSlot then none else some (slotPriority rangeUpper step newSlot), shifted⟩
        card =
      ⟨if index + 1 ≤ newSlot then index + 1 else index + 1 + 1,
        if index + 1 ≤ newSlot then none else some (slotPriority rangeUpper step newSlot),
        if slotPriority rangeUpper step (if index < newSlot then index else index + 1) ≠
            card.priority then
          shifted ++ [(card.id,
            slotPriority rangeUpper step (if index < newSlot then index else index + 1))]
        else
          shifted⟩ := by
  rcases lt_trichotomy index newSlot with hlt | rfl | hgt
  · have hle : index ≤ newSlot := hlt.le
    have hne : index ≠ newSlot := hlt.ne
    have hsucc : index + 1 ≤ newSlot := hlt
    simp [redistribute, hlt, hle, hne, hsucc]
  · simp [redistribute]
  · have hle : ¬ index ≤ newSlot := not_le.mpr hgt
    have hlt : ¬ index < newSlot := not_lt.mpr hgt.le
    have hsucc : ¬ index + 1 ≤ newSlot := by omega
    simp [redistribute, hle, hlt, hsucc]

theorem foldl_redistribute (rangeUpper step : Int) (newSlot : Nat) (cards : List Card) (index : Nat)
    (shifted : List (Uuid × I64)) :
    cards.foldl (redistribute rangeUpper step newSlot)
        ⟨if index ≤ newSlot then index else index + 1,
          if index ≤ newSlot then none else some (slotPriority rangeUpper step newSlot), shifted⟩ =
      ⟨if index + cards.length ≤ newSlot then index + cards.length else index + cards.length + 1,
        if index + cards.length ≤ newSlot then none
        else some (slotPriority rangeUpper step newSlot),
        shifted ++ (cards.zipIdx index).filterMap fun (card, i) =>
          if slotPriority rangeUpper step (if i < newSlot then i else i + 1) ≠ card.priority then
            some (card.id, slotPriority rangeUpper step (if i < newSlot then i else i + 1))
          else
            none⟩ := by
  induction cards generalizing index shifted with
  | nil => simp
  | cons card rest ih =>
      have hlength : index + (card :: rest).length = index + 1 + rest.length := by
        rw [List.length_cons]
        omega
      rw [List.foldl_cons, redistribute_eq, ih, hlength, List.zipIdx_cons, List.filterMap_cons]
      by_cases hsame : slotPriority rangeUpper step (if index < newSlot then index else index + 1) =
          card.priority
      · simp only [hsame, ne_eq, not_true_eq_false, if_false]
      · simp only [hsame, ne_eq, not_false_eq_true, if_true, List.append_assoc,
          List.singleton_append]

/-! ### Finding the run -/

variable {cards : List Card}

theorem gapAt_drop_take {left count index : Nat} (h : index + 1 < count) :
    gapAt ((cards.drop left).take count) index = gapAt cards (left + index) := by
  have hget : ∀ i, i < count → ((cards.drop left).take count)[i]? = cards[left + i]? := by
    intro i hi
    rw [List.getElem?_take_of_lt hi, List.getElem?_drop]
  simp only [gapAt, priorityAt, hget index (by omega), hget (index + 1) h, Nat.add_assoc]

theorem priorityAt_drop_take {left count index : Nat} (h : index < count) :
    priorityAt ((cards.drop left).take count) index = priorityAt cards (left + index) := by
  rw [priorityAt, priorityAt, List.getElem?_take_of_lt h, List.getElem?_drop]

def runOf (cards : List Card) (insertIdx left right : Nat) : PackedRun where
  above := cards.take left
  packed := (cards.drop left).take (right - left + 1)
  below := cards.drop (right + 1)
  slot := insertIdx - left

theorem runOf_upper (insertIdx right : Nat) {left : Nat} (h : left ≤ cards.length) :
    (runOf cards insertIdx left right).upper =
      if left = 0 then i64Max else priorityAt cards (left - 1) := by
  simp only [PackedRun.upper, runOf, List.getLast?_take]
  split
  · rfl
  · rename_i hpos
    rw [List.getElem?_eq_getElem (by omega), Option.some_or, priorityAt_getElem (by omega)]
    rfl

theorem runOf_lower (insertIdx left right : Nat) :
    (runOf cards insertIdx left right).lower =
      if right ≥ cards.length - 1 then i64Min else priorityAt cards (right + 1) := by
  simp only [PackedRun.lower, runOf, List.head?_drop]
  split
  · rw [List.getElem?_eq_none (by omega)]
    rfl
  · rw [List.getElem?_eq_getElem (by omega), priorityAt_getElem (by omega)]
    rfl

/-- The bounds the first two loops find make a run. -/
theorem runOf_framed {insertIdx left right : Nat}
    (hleft : left ≤ insertIdx) (hleftRight : left ≤ right) (hright : right < cards.length)
    (hinsert : insertIdx ≤ right + 1) (hbelow : right + 1 < cards.length → insertIdx ≤ right)
    (habove : 0 < left → left < insertIdx)
    (hgaps : ∀ i, left ≤ i → i < right → gapAt cards i ≤ 1)
    (hleftEdge : 0 < left → 1 < gapAt cards (left - 1))
    (hrightEdge : right + 1 < cards.length → 1 < gapAt cards right) :
    (runOf cards insertIdx left right).Framed cards insertIdx := by
  have hcount : (runOf cards insertIdx left right).packed.length = right - left + 1 := by
    simp only [runOf, List.length_take, List.length_drop]
    omega
  refine ⟨?_, ?_, ?_, fun i hi => ?_, fun hne => ?_, fun hne => ?_, fun hne => ?_, fun hne => ?_, ?_⟩
  · have hdrop : cards.drop (right + 1) = (cards.drop left).drop (right - left + 1) := by
      rw [List.drop_drop]
      congr 1
      omega
    rw [PackedRun.cards, runOf, hdrop, List.append_assoc, List.take_append_drop,
      List.take_append_drop]
  · simp only [runOf, List.length_take]
    omega
  · omega
  · rw [hcount] at hi
    rw [runOf, gapAt_drop_take hi]
    exact hgaps (left + i) (by omega) (by omega)
  · have hpos : 0 < left := by
      by_contra hzero
      obtain rfl : left = 0 := by omega
      exact hne rfl
    have hedge := hleftEdge hpos
    rw [gapAt, Nat.sub_add_cancel hpos] at hedge
    rw [runOf_upper insertIdx right (by omega), if_neg (by omega), runOf,
      priorityAt_drop_take (by omega), Nat.add_zero]
    omega
  · have hlt : right + 1 < cards.length := by
      by_contra hge
      exact hne (List.drop_eq_nil_of_le (by omega))
    have hedge := hrightEdge hlt
    rw [gapAt] at hedge
    rw [runOf_lower, if_neg (by omega), hcount, runOf, priorityAt_drop_take (by omega)]
    have hlast : left + (right - left + 1 - 1) = right := by omega
    rw [hlast]
    omega
  · have hpos : 0 < left := by
      by_contra hzero
      obtain rfl : left = 0 := by omega
      exact hne rfl
    have hlt := habove hpos
    simp only [runOf]
    omega
  · have hlt : right + 1 < cards.length := by
      by_contra hge
      exact hne (List.drop_eq_nil_of_le (by omega))
    have hle := hbelow hlt
    rw [hcount]
    simp only [runOf]
    omega
  · rw [hcount]
    simp only [runOf]
    omega

def packedRun (cards : List Card) (insertIdx : Nat) : PackedRun :=
  let start := if insertIdx < cards.length then insertIdx else cards.length - 1
  runOf cards insertIdx (expandLeft cards (insertIdx - 1))
    (expandRight cards start (cards.length - 1 - start))

theorem packedRun_framed {insertIdx : Nat} (hne : cards ≠ []) (hle : insertIdx ≤ cards.length)
    (htight : 0 < insertIdx → insertIdx < cards.length → gapAt cards (insertIdx - 1) ≤ 1) :
    (packedRun cards insertIdx).Framed cards insertIdx := by
  have hlength : 0 < cards.length := List.length_pos_iff.mpr hne
  obtain ⟨start, hstart⟩ : ∃ start, start =
      if insertIdx < cards.length then insertIdx else cards.length - 1 := ⟨_, rfl⟩
  obtain ⟨hleftLe, hleftPacked, hleftEdge⟩ := expandLeft_spec cards (insertIdx - 1)
  obtain ⟨hstartLe, hrightLe, hrightPacked, hrightEdge⟩ :=
    expandRight_spec cards start (cards.length - 1 - start)
  have hstartBounds : insertIdx - 1 ≤ start ∧ start < cards.length ∧ insertIdx ≤ start + 1 ∧
      (insertIdx < cards.length → start = insertIdx) := by
    split at hstart <;> omega
  rw [packedRun, ← hstart]
  refine runOf_framed (by omega) (by omega) (by omega) (by omega) (by omega) (by omega)
    (fun i hi hlt => ?_) hleftEdge fun h => hrightEdge (by omega)
  by_cases hbefore : i < insertIdx - 1
  · exact hleftPacked i hi hbefore
  · by_cases hafter : start ≤ i
    · exact hrightPacked i hafter hlt
    · -- the place lies between this card and the next one
      obtain rfl : i = insertIdx - 1 := by omega
      exact htight (by omega) (by omega)

theorem packedRun_around (hsorted : SortedDesc cards) {insertIdx : Nat} (hne : cards ≠ [])
    (hle : insertIdx ≤ cards.length)
    (htight : 0 < insertIdx → insertIdx < cards.length → gapAt cards (insertIdx - 1) ≤ 1) :
    (packedRun cards insertIdx).Around cards insertIdx :=
  (packedRun_framed hne hle htight).around_of_sorted hsorted

/-- The third loop spreads the packed run. -/
theorem rebalance_eq (randomRange : Int → Int) {insertIdx : Nat} (hne : cards ≠ [])
    (hle : insertIdx ≤ cards.length)
    (hframed : (packedRun cards insertIdx).Framed cards insertIdx) :
    rebalance randomRange cards insertIdx =
      if (packedRun cards insertIdx).shifted.isEmpty then
        .simple (toI64 ((packedRun cards insertIdx).target (packedRun cards insertIdx).slot))
      else
        .rebalanced (toI64 ((packedRun cards insertIdx).target (packedRun cards insertIdx).slot))
          (packedRun cards insertIdx).shifted := by
  have hlength : 0 < cards.length := List.length_pos_iff.mpr hne
  obtain ⟨start, hstart⟩ : ∃ start, start =
      if insertIdx < cards.length then insertIdx else cards.length - 1 := ⟨_, rfl⟩
  obtain ⟨left, hleft⟩ : ∃ left, left = expandLeft cards (insertIdx - 1) := ⟨_, rfl⟩
  obtain ⟨right, hright⟩ : ∃ right, right = expandRight cards start (cards.length - 1 - start) :=
    ⟨_, rfl⟩
  have hrunOf : packedRun cards insertIdx = runOf cards insertIdx left right := by
    rw [packedRun, ← hstart, ← hleft, ← hright]
  have hbounds : left ≤ cards.length ∧ left ≤ right ∧ right < cards.length := by
    have hleftLe := (expandLeft_spec cards (insertIdx - 1)).1
    obtain ⟨hstartLe, hrightLe, -, -⟩ := expandRight_spec cards start (cards.length - 1 - start)
    rw [← hleft] at hleftLe
    rw [← hright] at hstartLe hrightLe
    split at hstart <;> omega
  have hcount : (runOf cards insertIdx left right).packed.length = right - left + 1 := by
    simp only [runOf, List.length_take, List.length_drop]
    omega
  have hupper : (runOf cards insertIdx left right).upper = _ :=
    runOf_upper insertIdx right hbounds.1
  have hlower : (runOf cards insertIdx left right).lower = _ := runOf_lower insertIdx left right
  obtain ⟨run, hrun⟩ : ∃ run, run = packedRun cards insertIdx := ⟨_, rfl⟩
  rw [← hrunOf, ← hrun] at hupper hlower hcount
  rw [← hrun] at hframed ⊢
  rw [hrunOf] at hrun
  have hpacked : (cards.drop left).take (right - left + 1) = run.packed := by rw [hrun, runOf]
  have hslot : insertIdx - left = run.slot := by rw [hrun, runOf]
  have hstep : max ((run.upper - run.lower).tdiv (((right - left + 1 + 1 : Nat) : Int) + 1)) 1 =
      run.step := by
    rw [PackedRun.step, hcount]
    congr 2
  have hslots := foldl_redistribute run.upper run.step run.slot run.packed 0 []
  simp only [Nat.zero_le, if_true, Nat.zero_add, List.nil_append] at hslots
  have hempty : cards.isEmpty = false := by simp [hne]
  unfold rebalance
  rw [hempty]
  simp only [Bool.false_eq_true, if_false]
  rw [← hleft, ← hstart, ← hright, ← hupper, ← hlower, hstep, hpacked, hslot, hslots]
  have hpriority : (if run.packed.length ≤ run.slot then none
      else some (slotPriority run.upper run.step run.slot)).getD
        (slotPriority run.upper run.step (if run.packed.length ≤ run.slot then run.packed.length
          else run.packed.length + 1)) = toI64 (run.target run.slot) := by
    split
    · have hlast : run.packed.length = run.slot := le_antisymm ‹_› hframed.slot_le
      rw [Option.getD_none, hlast]
      rfl
    · rfl
  rw [hpriority]
  rfl

end BlazeList
