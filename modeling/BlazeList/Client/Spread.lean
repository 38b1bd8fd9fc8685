import BlazeList.Client.PackedRun
import Mathlib.Tactic.Ring

/-!
# The spread priorities

Where the slots of a packed run lie: strictly inside the space around the run, but for one layout at the
top of the range, where the lowest slot falls on the card below. Whether the cards can move to their
slots one by one is a matter of how far apart the slots are.
-/

namespace BlazeList.PackedRun

variable (run : PackedRun)

def top : Int := priorityAt run.packed 0

def landing (slot : Nat) : Int := run.step * (slot + 1) - (run.upper - run.top)

/-- The space holds one card more than the run. -/
def Fits : Prop := run.below = [] ∨ (run.packed.length : Int) + 2 ≤ run.upper - run.lower

/-- Each card of the run finds its slot free once the cards before it have moved. `held` is the priority
that the new card has so far. -/
def ClearInOrder (held : Option I64) : Prop :=
  run.Fits ∧ (∀ j < run.packed.length, ∀ i < j, run.landing (run.slotOf i) ≠ j) ∧
    ∀ i < run.packed.length, held.map Subtype.val ≠ some (run.target (run.slotOf i))

/-- No card of the run lies on the slot of another or of the new card. -/
def ClearInAnyOrder : Prop :=
  run.Fits ∧ (∀ j < run.packed.length, run.landing run.slot ≠ j) ∧
    ∀ j < run.packed.length, ∀ i < run.packed.length, i ≠ j → run.landing (run.slotOf i) ≠ j

instance : Decidable run.Fits := inferInstanceAs (Decidable (_ ∨ _))

instance (held : Option I64) : Decidable (run.ClearInOrder held) :=
  inferInstanceAs (Decidable (_ ∧ _ ∧ _))

instance : Decidable run.ClearInAnyOrder := inferInstanceAs (Decidable (_ ∧ _ ∧ _))

/-! ### Slots -/

theorem one_le_step : 1 ≤ run.step := le_max_right _ _

theorem target_eq (slot : Nat) : run.target slot = run.top - run.landing slot := by
  rw [target, landing]
  ring

theorem target_injective {a b : Nat} (h : run.target a = run.target b) : a = b := by
  have hstep : run.step ≠ 0 := by
    have := run.one_le_step
    omega
  have hmul : run.step * ((a : Int) + 1) = run.step * ((b : Int) + 1) := by
    rw [target, target] at h
    omega
  have hsucc := mul_left_cancel₀ hstep hmul
  omega

theorem slotOf_ne_slot (index : Nat) : run.slotOf index ≠ run.slot := by
  rw [slotOf]
  split <;> omega

theorem slotOf_injective {i j : Nat} (h : run.slotOf i = run.slotOf j) : i = j := by
  rw [slotOf, slotOf] at h
  split at h <;> split at h <;> omega

theorem slotOf_le {index : Nat} (h : index < run.packed.length) :
    run.slotOf index ≤ run.packed.length := by
  rw [slotOf]
  split <;> omega

theorem bounds_inRange : i64Min ≤ run.lower ∧ run.upper ≤ i64Max := by
  constructor
  · rw [lower]
    cases run.below.head? with
    | none => exact le_rfl
    | some card => exact card.priority.property.1
  · rw [upper]
    cases run.above.getLast? with
    | none => exact le_rfl
    | some card => exact card.priority.property.2

/-! ### The space -/

section Around

variable {run} {cards : List Card} {insertIdx : Nat}

theorem Around.priorityAt_packed (haround : run.Around cards insertIdx) {index : Nat}
    (h : index < run.packed.length) : priorityAt run.packed index = run.top - index := by
  induction index with
  | zero => simp [top]
  | succ index ih =>
      have hgap := haround.dense index h
      rw [gapAt, ih (by omega)] at hgap
      push_cast
      omega

theorem Around.top_le_upper (haround : run.Around cards insertIdx) :
    run.top ≤ run.upper ∧ (run.above ≠ [] → run.top + 2 ≤ run.upper) := by
  by_cases habove : run.above = []
  · refine ⟨?_, fun hne => absurd habove hne⟩
    have hmax : run.upper = i64Max := by simp [upper, habove]
    have hpos := haround.nonempty
    rw [hmax, top, priorityAt_getElem hpos]
    exact run.packed[0].priority.property.2
  · have hgap := haround.above_gap habove
    rw [← top] at hgap
    exact ⟨by omega, fun _ => by omega⟩

theorem Around.lower_le_bottom (haround : run.Around cards insertIdx) :
    run.lower + run.packed.length ≤ run.top + 1 ∧
      (run.below ≠ [] → run.lower + run.packed.length + 1 ≤ run.top) := by
  have hpos := haround.nonempty
  have hlast : run.packed.length - 1 < run.packed.length := by omega
  have hbottom := haround.priorityAt_packed hlast
  by_cases hbelow : run.below = []
  · refine ⟨?_, fun hne => absurd hbelow hne⟩
    have hmin : run.lower = i64Min := by simp [lower, hbelow]
    have hle : i64Min ≤ priorityAt run.packed (run.packed.length - 1) := by
      rw [priorityAt_getElem (by omega)]
      exact (run.packed[run.packed.length - 1]).priority.property.1
    omega
  · have hgap := haround.below_gap hbelow
    exact ⟨by omega, fun _ => by omega⟩

/-- A list in memory is shorter than the range of the integers. -/
theorem Around.room (haround : run.Around cards insertIdx) (hlength : cards.length < 2 ^ 64 - 2) :
    (run.packed.length : Int) + 1 ≤ run.upper - run.lower := by
  obtain ⟨hupper, habove⟩ := haround.top_le_upper
  obtain ⟨hlower, hbelow⟩ := haround.lower_le_bottom
  by_cases hnoAbove : run.above = []
  · by_cases hnoBelow : run.below = []
    · have hpacked : run.packed.length ≤ cards.length := by
        rw [← haround.cards_eq, PackedRun.cards]
        simp only [List.length_append]
        omega
      simp only [upper, lower, hnoAbove, hnoBelow, List.getLast?_nil, List.head?_nil, Option.map_none,
        Option.getD_none, i64Max, i64Min]
      omega
    · have := hbelow hnoBelow
      omega
  · have := habove hnoAbove
    omega

/-- The slots are at least a step apart from the lower neighbour when the space fits the cards. -/
theorem Around.step_mul_le (haround : run.Around cards insertIdx) (hlength : cards.length < 2 ^ 64 - 2) :
    run.step * (run.packed.length + 1) ≤ run.upper - run.lower ∧
      ((run.packed.length : Int) + 2 ≤ run.upper - run.lower →
        run.step * (run.packed.length + 1) < run.upper - run.lower) := by
  have hroom := haround.room hlength
  have hpos := run.one_le_step
  obtain ⟨space, hspace⟩ : ∃ space, space = run.upper - run.lower := ⟨_, rfl⟩
  obtain ⟨count, hcount⟩ : ∃ count : Int, count = run.packed.length := ⟨_, rfl⟩
  have hstep : run.step = max (space / (count + 2)) 1 := by
    rw [step, ← hspace, ← hcount, Int.tdiv_eq_ediv_of_nonneg (by omega)]
  rw [← hspace, ← hcount] at hroom ⊢
  by_cases hfits : count + 2 ≤ space
  · have hdiv : 1 ≤ space / (count + 2) := by
      rw [Int.le_ediv_iff_mul_le (by omega)]
      omega
    have hmul : space / (count + 2) * (count + 2) ≤ space := Int.ediv_mul_le space (by omega)
    rw [hstep, max_eq_left hdiv]
    have hlt : space / (count + 2) * (count + 1) < space := by
      calc space / (count + 2) * (count + 1)
          = space / (count + 2) * (count + 2) - space / (count + 2) := by ring
        _ < space := by omega
    exact ⟨hlt.le, fun _ => hlt⟩
  · have hdiv : space / (count + 2) = 0 := Int.ediv_eq_zero_of_lt (by omega) (by omega)
    rw [hstep, hdiv, max_eq_right (by omega : (0 : Int) ≤ 1), one_mul]
    exact ⟨hroom, fun h => absurd h hfits⟩

theorem Around.target_bounds (haround : run.Around cards insertIdx) (hlength : cards.length < 2 ^ 64 - 2)
    {slot : Nat} (hslot : slot ≤ run.packed.length) :
    run.lower ≤ run.target slot ∧ run.target slot < run.upper ∧
      ((run.packed.length : Int) + 2 ≤ run.upper - run.lower → run.lower < run.target slot) := by
  have hpos := run.one_le_step
  obtain ⟨hle, hlt⟩ := haround.step_mul_le hlength
  have hmono : run.step * ((slot : Int) + 1) ≤ run.step * (run.packed.length + 1) :=
    mul_le_mul_of_nonneg_left (by omega) (by omega)
  have hge : 1 ≤ run.step * ((slot : Int) + 1) := by
    calc (1 : Int) ≤ run.step * 1 := by omega
      _ ≤ run.step * ((slot : Int) + 1) := mul_le_mul_of_nonneg_left (by omega) (by omega)
  rw [target]
  exact ⟨by omega, by omega, fun h => by have := hlt h; omega⟩

/-- Without room to spare the lowest slot is where the lower neighbour lies. -/
theorem Around.target_last (haround : run.Around cards insertIdx) (hlength : cards.length < 2 ^ 64 - 2)
    (htight : run.upper - run.lower < (run.packed.length : Int) + 2) :
    run.target run.packed.length = run.lower := by
  have hroom := haround.room hlength
  have hdiv : (run.upper - run.lower).tdiv ((run.packed.length : Int) + 2) = 0 := by
    rw [Int.tdiv_eq_ediv_of_nonneg (by omega)]
    exact Int.ediv_eq_zero_of_lt (by omega) htight
  have hstep : run.step = 1 := by
    rw [step, hdiv]
    rfl
  rw [target, hstep]
  omega

theorem Around.toI64_target (haround : run.Around cards insertIdx) (hlength : cards.length < 2 ^ 64 - 2)
    {slot : Nat} (hslot : slot ≤ run.packed.length) :
    (toI64 (run.target slot)).val = run.target slot := by
  obtain ⟨hlower, hupper, -⟩ := haround.target_bounds hlength hslot
  obtain ⟨hmin, hmax⟩ := run.bounds_inRange
  exact toI64_val (by omega) (by omega)

/-! ### Who is in the way -/

theorem Around.upper_le (haround : run.Around cards insertIdx) (hsorted : SortedDesc cards) :
    ∀ card ∈ run.above, run.upper ≤ card.priority.val := by
  intro card hcard
  obtain ⟨last, hlast⟩ : ∃ last, run.above.getLast? = some last :=
    Option.ne_none_iff_exists'.mp fun h =>
      List.not_mem_nil (List.getLast?_eq_none_iff.mp h ▸ hcard)
  obtain ⟨front, hfront⟩ := List.getLast?_eq_some_iff.mp hlast
  have hupper : run.upper = last.priority.val := by
    rw [upper, hlast]
    rfl
  rw [← haround.cards_eq, PackedRun.cards, SortedDesc, List.append_assoc, hfront,
    List.append_assoc, List.pairwise_append] at hsorted
  rw [hupper]
  rw [hfront, List.mem_append, List.mem_singleton] at hcard
  rcases hcard with hcard | rfl
  · exact (hsorted.2.2 card hcard last (by simp)).le
  · exact le_rfl

theorem Around.le_lower (haround : run.Around cards insertIdx) (hsorted : SortedDesc cards) :
    ∀ card ∈ run.below, card.priority.val ≤ run.lower := by
  intro card hcard
  rw [← haround.cards_eq, PackedRun.cards, SortedDesc, List.pairwise_append] at hsorted
  cases hbelow : run.below with
  | nil => exact absurd (hbelow ▸ hcard) List.not_mem_nil
  | cons first rest =>
      have hlower : run.lower = first.priority.val := by
        rw [lower, hbelow]
        rfl
      rw [hbelow] at hcard hsorted
      rw [hlower]
      rcases List.mem_cons.mp hcard with rfl | hcard
      · exact le_rfl
      · exact ((List.pairwise_cons.mp hsorted.2.1).1 card hcard).le

/-- The cards with a priority in the space are those of the run; the lower neighbour lies at its edge. -/
theorem Around.holder (haround : run.Around cards insertIdx) (hsorted : SortedDesc cards) {card : Card}
    (hcard : card ∈ cards) (hlower : run.lower ≤ card.priority.val)
    (hupper : card.priority.val < run.upper) :
    (∃ index : Nat, run.packed[index]? = some card) ∨
      run.below ≠ [] ∧ card.priority.val = run.lower := by
  rw [← haround.cards_eq, PackedRun.cards, List.mem_append, List.mem_append] at hcard
  rcases hcard with (habove | hpacked) | hbelow
  · exact absurd (haround.upper_le hsorted card habove) (not_le.mpr hupper)
  · exact .inl (List.mem_iff_getElem?.mp hpacked)
  · exact .inr ⟨List.ne_nil_of_mem hbelow,
      le_antisymm (haround.le_lower hsorted card hbelow) hlower⟩

theorem Around.priority_packed (haround : run.Around cards insertIdx) {index : Nat} {card : Card}
    (h : run.packed[index]? = some card) : card.priority.val = run.top - index := by
  obtain ⟨hindex, heq⟩ := List.getElem?_eq_some_iff.mp h
  rw [← haround.priorityAt_packed hindex, priorityAt, h]
  rfl

/-- A slot lies on a card of the run when it lands on its index. -/
theorem Around.priority_eq_target_iff (haround : run.Around cards insertIdx) {index : Nat} {card : Card}
    (h : run.packed[index]? = some card) (slot : Nat) :
    card.priority.val = run.target slot ↔ run.landing slot = index := by
  rw [haround.priority_packed h, target_eq]
  omega

end Around

end BlazeList.PackedRun
