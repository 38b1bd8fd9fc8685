import BlazeList.Client.Filter
import BlazeList.Client.Tasks
import BlazeList.Lib.Run

/-!
# Due dates and blazing

A card that gets a due date is extinguished, and a card that is blazed loses its due date, each only if its
setting is on. Keys, the detail pane, swipes, their undo and the editor all make versions of a card, and the
last two from a copy of it that they took earlier.
-/

namespace BlazeList

/-! ### Days -/

def millisPerDay : Int := 86400000

def DateTime.ofDay (date millis : Int) : Option DateTime :=
  let timestampMillis := date * millisPerDay + millis
  if h : -8334601228800000 ≤ timestampMillis ∧ timestampMillis ≤ 8210266876799999 then
    some ⟨timestampMillis, h⟩
  else none

def midnightUtc (date : Int) : Option DateTime := DateTime.ofDay date 0

def noonUtc (date : Int) : Option DateTime := DateTime.ofDay date 43200000

/-! ### The settings -/

structure DueSettings where
  extinguishOnDueSet : Bool
  extinguishOnDueClear : Bool
  clearDueOnBlaze : Bool

/-- The blaze state after a change of the due date. A card is never blazed by it. -/
def DueSettings.blazedAfterDueChange (settings : DueSettings) (currentBlazed : Bool)
    (newDue : Option DateTime) : Bool :=
  if !currentBlazed then false
  else
    let onSet := settings.extinguishOnDueSet
    let extinguish := if newDue.isSome then onSet else onSet && settings.extinguishOnDueClear
    !extinguish

def DueSettings.dueAfterBlazeChange (settings : DueSettings) (currentDue : Option DateTime)
    (wasBlazed newBlazed : Bool) : Option DateTime :=
  if !wasBlazed && newBlazed && settings.clearDueOnBlaze then none else currentDue

/-! ### Swipes -/

inductive SwipeLeftMode where
  | levels
  | cycle
  deriving DecidableEq

structure SwipeSettings where
  mode : SwipeLeftMode
  thresholdRightCycle : Nat
  thresholdRightLevels : Nat
  thresholdLeftCycle : Nat
  thresholdLeftLevels : Nat
  zoneTodayWidth : Nat
  zoneTomorrowWidth : Nat
  zoneSoonWidth : Nat

def SwipeSettings.thresholdRight (swipe : SwipeSettings) : Nat :=
  match swipe.mode with
  | .levels => swipe.thresholdRightLevels
  | .cycle => swipe.thresholdRightCycle

def SwipeSettings.thresholdLeft (swipe : SwipeSettings) : Nat :=
  match swipe.mode with
  | .levels => swipe.thresholdLeftLevels
  | .cycle => swipe.thresholdLeftCycle

/-- The zone that a swipe ends in, `none` before the first one. -/
def levelsZone (offset : ℚ) (thresholdL todayW tomorrowW soonW : Nat) : Option Nat :=
  let adx := |offset|
  if adx < thresholdL then none
  else
    let z2 : ℚ := thresholdL + todayW
    let z3 := z2 + tomorrowW
    let z4 := z3 + soonW
    some (if adx < z2 then 1 else if adx < z3 then 2 else if adx < z4 then 3 else 4)

def SwipeSettings.dueDay (swipe : SwipeSettings) (offset : ℚ) (today : Int) (currentDate : Option Int) :
    Option Int :=
  match swipe.mode with
  | .levels =>
      match (levelsZone offset swipe.thresholdLeft swipe.zoneTodayWidth swipe.zoneTomorrowWidth
        swipe.zoneSoonWidth).getD 1 with
      | 1 => some today
      | 2 => some (today + 1)
      | 3 => some (today + 2)
      | _ => none
  | .cycle =>
      if currentDate = some today then some (today + 1)
      else if currentDate = some (today + 1) then some (today + 2)
      else if currentDate = some (today + 2) then none
      else some today

/-! ### Edits -/

inductive DueDateShortcut where
  | today
  | tomorrow
  | clear
  deriving DecidableEq

def DueDateShortcut.day (shortcut : DueDateShortcut) (today : Int) : Option Int :=
  match shortcut with
  | .today => some today
  | .tomorrow => some (today + 1)
  | .clear => none

/-- The cards of the client, the card that the last swipe can be undone to, and the card that the editor was
opened with. -/
structure DueState where
  cards : List Card
  toast : Option Card
  editing : Option Card
  settings : DueSettings

def DueState.start (cards : List Card) (settings : DueSettings) : DueState := ⟨cards, none, none, settings⟩

/-- What the user does with a card, and what a sync brings. A text that is saved is not blank, and its tags are
closed under implications and sorted. -/
inductive DueStep where
  | toggleBlaze (id : Uuid) (now : DateTime)
  | setDueDateShortcut (id : Uuid) (shortcut : DueDateShortcut) (now : DateTime)
  | setDueDate (id : Uuid) (newDue : Option DateTime) (now : DateTime)
  | swipe (id : Uuid) (offset : ℚ) (zones : SwipeSettings) (now : DateTime)
  | undoSwipe (now : DateTime)
  | dismissToast
  | openEditor (id : Uuid)
  | closeEditor
  | save (text : String) (sortedTags : List Uuid) (selectedDue : Option DateTime) (now : DateTime)
  | create (id : Uuid) (text : String) (priority : I64) (sortedTags : List Uuid)
      (selectedDue : Option DateTime) (now : DateTime)
  | changeSettings (settings : DueSettings)
  | receive (cards : List Card)

def DueState.card? (state : DueState) (id : Uuid) : Option Card := state.cards.find? fun card => card.id = id

def DueState.upsertCard (state : DueState) (card : Card) : DueState :=
  { state with cards := replaceCard state.cards card }

section Edits

variable [Blake3]

def Card.withDue (card : Card) (blazed : Bool) (dueDate : Option DateTime) (now : DateTime) : Option Card :=
  card.next card.content card.priority card.tags blazed now dueDate

def DueSettings.toggled (settings : DueSettings) (card : Card) (now : DateTime) : Option Card :=
  let newBlazed := !card.blazed
  card.withDue newBlazed (settings.dueAfterBlazeChange card.dueDate card.blazed newBlazed) now

def DueSettings.dated (settings : DueSettings) (card : Card) (newDue : Option DateTime) (now : DateTime) :
    Option Card :=
  card.withDue (settings.blazedAfterDueChange card.blazed newDue) newDue now

def dueOfDay (time : Int → Option DateTime) : Option Int → Option (Option DateTime)
  | none => some none
  | some day => (time day).map some

/-- Where the source panics the state is left as it is. -/
def dueStep (state : DueState) : DueStep → DueState
  | .toggleBlaze id now =>
      (do
        let card ← state.card? id
        let next ← state.settings.toggled card now
        return state.upsertCard next).getD state
  | .setDueDateShortcut id shortcut now =>
      (do
        let card ← state.card? id
        let newDue ← dueOfDay noonUtc (shortcut.day now.dateNaive)
        let next ← state.settings.dated card newDue now
        return state.upsertCard next).getD state
  | .setDueDate id newDue now =>
      (do
        let card ← state.card? id
        if card.dueDate = newDue then none
        else
          let next ← state.settings.dated card newDue now
          return state.upsertCard next).getD state
  | .swipe id offset zones now =>
      (do
        let card ← state.card? id
        if zones.thresholdRight < offset then
          let next ← state.settings.toggled card now
          return { state.upsertCard next with toast := some card }
        else if offset < - (zones.thresholdLeft : ℚ) then
          let newDue ← dueOfDay midnightUtc
            (zones.dueDay offset now.dateNaive (card.dueDate.map DateTime.dateNaive))
          let next ← state.settings.dated card newDue now
          return { state.upsertCard next with toast := some card }
        else none).getD state
  | .undoSwipe now =>
      (do
        let card ← state.toast
        let reverted ← card.withDue card.blazed card.dueDate now
        return { state.upsertCard reverted with toast := none }).getD state
  | .dismissToast => { state with toast := none }
  | .openEditor id => { state with editing := state.card? id }
  | .closeEditor => { state with editing := none }
  | .save text sortedTags selectedDue now =>
      (do
        let existing ← state.editing
        if text = existing.content ∧ sortedTags = existing.tags ∧ selectedDue = existing.dueDate then none
        else
          let newBlazed :=
            if selectedDue ≠ existing.dueDate then
              state.settings.blazedAfterDueChange existing.blazed selectedDue
            else existing.blazed
          let next ← existing.next text existing.priority sortedTags newBlazed now selectedDue
          return { state.upsertCard next with editing := some next }).getD state
  | .create id text priority sortedTags selectedDue now =>
      let card := Card.first id text priority sortedTags false now selectedDue
      { state.upsertCard card with editing := some card }
  | .changeSettings settings => { state with settings }
  | .receive cards => { state with cards }

/-! ### Blazed cards without a due date -/

omit [Blake3] in
def Card.Exclusive (card : Card) : Prop := ¬ (card.blazed = true ∧ card.dueDate.isSome = true)

omit [Blake3] in
def DueSettings.SpoilsBlaze (settings : DueSettings) (card : Card) : Prop :=
  card.blazed = false ∧ card.dueDate.isSome = true ∧ settings.clearDueOnBlaze = false

omit [Blake3] in
def DueSettings.SpoilsDate (settings : DueSettings) (card : Card) (newDue : Option DateTime) : Prop :=
  card.blazed = true ∧ newDue.isSome = true ∧ settings.extinguishOnDueSet = false

omit [Blake3] in
def Card.HasNext (card : Card) : Prop := card.count.val < 9223372036854775807

omit [Blake3] in
/-- A card with a date is blazed with its setting off, a blazed card is dated with the other one off, or a
card that is both comes from the server. -/
def DueStep.Spoils (state : DueState) : DueStep → Prop
  | .toggleBlaze id _ => ∃ card ∈ state.card? id, state.settings.SpoilsBlaze card ∧ card.HasNext
  | .setDueDateShortcut id shortcut now => ∃ card ∈ state.card? id,
      ∃ newDue ∈ dueOfDay noonUtc (shortcut.day now.dateNaive), state.settings.SpoilsDate card newDue ∧ card.HasNext
  | .setDueDate id newDue _ => ∃ card ∈ state.card? id, state.settings.SpoilsDate card newDue ∧ card.HasNext
  | .swipe id offset zones now => ∃ card ∈ state.card? id, card.HasNext ∧
      if zones.thresholdRight < offset then state.settings.SpoilsBlaze card
      else offset < - (zones.thresholdLeft : ℚ) ∧ ∃ newDue ∈ dueOfDay midnightUtc
        (zones.dueDay offset now.dateNaive (card.dueDate.map DateTime.dateNaive)),
          state.settings.SpoilsDate card newDue
  | .save _ _ selectedDue _ => ∃ existing ∈ state.editing, selectedDue ≠ existing.dueDate ∧
      state.settings.SpoilsDate existing selectedDue ∧ existing.HasNext
  | .receive cards => ∃ card ∈ cards, ¬ card.Exclusive
  | _ => False

omit [Blake3] in
/-- No card is blazed and due, and neither are the copies. -/
structure DueState.Tidy (state : DueState) : Prop where
  cards : ∀ card ∈ state.cards, card.Exclusive
  toast : ∀ card ∈ state.toast, card.Exclusive
  editing : ∀ card ∈ state.editing, card.Exclusive

section Tidy

variable {settings : DueSettings} {state : DueState} {card next : Card} {now : DateTime}

theorem exclusive_next {content : String} {priority : I64} {tags : List Uuid} {blazed : Bool}
    {dueDate : Option DateTime} (hnext : card.next content priority tags blazed now dueDate = some next) :
    next.Exclusive ↔ ¬ (blazed = true ∧ dueDate.isSome = true) := by
  obtain ⟨-, -, -, -, -, hblazed, -, -, hdue, -⟩ := Card.next_eq_some_iff.mp hnext
  rw [Card.Exclusive, hblazed, hdue]

omit [Blake3] in
theorem blazedAfterDueChange_eq_true {settings : DueSettings} {blazed : Bool} {newDue : Option DateTime}
    (hdue : newDue.isSome = true) : settings.blazedAfterDueChange blazed newDue = true ↔
      blazed = true ∧ settings.extinguishOnDueSet = false := by
  cases blazed <;> simp [DueSettings.blazedAfterDueChange, hdue]

/-- Blazing or extinguishing a card makes it both exactly if the setting does not clear the date. -/
theorem exclusive_toggled (hnext : settings.toggled card now = some next) :
    next.Exclusive ↔ ¬ settings.SpoilsBlaze card := by
  rw [exclusive_next hnext, DueSettings.SpoilsBlaze, DueSettings.dueAfterBlazeChange]
  cases card.blazed <;> cases settings.clearDueOnBlaze <;> simp

/-- Dating a card makes it both exactly if the setting does not extinguish it. -/
theorem exclusive_dated {newDue : Option DateTime} (hnext : settings.dated card newDue now = some next) :
    next.Exclusive ↔ ¬ settings.SpoilsDate card newDue := by
  rw [exclusive_next hnext, DueSettings.SpoilsDate, not_iff_not]
  constructor
  · rintro ⟨hblazed, hdue⟩
    obtain ⟨hcard, hset⟩ := (blazedAfterDueChange_eq_true hdue).mp hblazed
    exact ⟨hcard, hdue, hset⟩
  · rintro ⟨hcard, hdue, hset⟩
    exact ⟨(blazedAfterDueChange_eq_true hdue).mpr ⟨hcard, hset⟩, hdue⟩

omit [Blake3] in
theorem DueState.Tidy.upsertCard (h : state.Tidy) (hcard : card.Exclusive) : (state.upsertCard card).Tidy where
  cards other hother := by
    rcases mem_replaceCard.mp hother with ⟨hmem, -⟩ | rfl
    · exact h.cards other hmem
    · exact hcard
  toast := h.toast
  editing := h.editing

omit [Blake3] in
theorem DueState.Tidy.card? (h : state.Tidy) {id : Uuid} (hcard : state.card? id = some card) :
    card.Exclusive :=
  h.cards card (List.mem_of_find?_eq_some hcard)

omit [Blake3] in
theorem DueState.Tidy.getD {made : Option DueState} (h : state.Tidy) (hmade : ∀ after ∈ made, after.Tidy) :
    (made.getD state).Tidy := by
  cases made with
  | none => exact h
  | some after => exact hmade after rfl

theorem hasNext_of_next {content : String} {priority : I64} {tags : List Uuid} {blazed : Bool}
    {dueDate : Option DateTime} (hnext : card.next content priority tags blazed now dueDate = some next) :
    card.HasNext :=
  (Card.exists_next_iff card content priority tags blazed now dueDate).mp ⟨next, hnext⟩

omit [Blake3] in
theorem exclusive_of_mem_some (h : card.Exclusive) : ∀ copy ∈ some card, copy.Exclusive :=
  fun _ hcopy => Option.some.inj hcopy ▸ h

/-- A step that does not spoil a card keeps all of them and the copies tidy. -/
theorem DueState.Tidy.dueStep (h : state.Tidy) {step : DueStep} (hstep : ¬ step.Spoils state) :
    (dueStep state step).Tidy := by
  cases step with
  | toggleBlaze id now =>
      refine h.getD fun after hafter => ?_
      simp only [Option.bind_eq_bind, Option.mem_def, Option.bind_eq_some_iff, pure, Option.some.injEq] at hafter
      obtain ⟨card, hcard, next, hnext, rfl⟩ := hafter
      refine h.upsertCard ((exclusive_toggled hnext).mpr fun hspoils => hstep ?_)
      exact ⟨card, hcard, hspoils, hasNext_of_next hnext⟩
  | setDueDateShortcut id shortcut now =>
      refine h.getD fun after hafter => ?_
      simp only [Option.bind_eq_bind, Option.mem_def, Option.bind_eq_some_iff, pure, Option.some.injEq] at hafter
      obtain ⟨card, hcard, newDue, hdue, next, hnext, rfl⟩ := hafter
      refine h.upsertCard ((exclusive_dated hnext).mpr fun hspoils => hstep ?_)
      exact ⟨card, hcard, newDue, hdue, hspoils, hasNext_of_next hnext⟩
  | setDueDate id newDue now =>
      refine h.getD fun after hafter => ?_
      simp only [Option.bind_eq_bind, Option.mem_def, Option.bind_eq_some_iff, pure] at hafter
      obtain ⟨card, hcard, hafter⟩ := hafter
      split_ifs at hafter
      obtain ⟨next, hnext, hafter⟩ := Option.bind_eq_some_iff.mp hafter
      cases hafter
      refine h.upsertCard ((exclusive_dated hnext).mpr fun hspoils => hstep ?_)
      exact ⟨card, hcard, hspoils, hasNext_of_next hnext⟩
  | swipe id offset zones now =>
      refine h.getD fun after hafter => ?_
      simp only [Option.bind_eq_bind, Option.mem_def, Option.bind_eq_some_iff, pure] at hafter
      obtain ⟨card, hcard, hafter⟩ := hafter
      have hcopy : ∀ copy ∈ some card, copy.Exclusive := exclusive_of_mem_some (h.card? hcard)
      split_ifs at hafter with hright hleft
      · obtain ⟨next, hnext, hafter⟩ := Option.bind_eq_some_iff.mp hafter
        cases hafter
        have hnot : ¬ state.settings.SpoilsBlaze card := fun hspoils =>
          hstep ⟨card, hcard, hasNext_of_next hnext, by rwa [if_pos hright]⟩
        exact { h.upsertCard ((exclusive_toggled hnext).mpr hnot) with toast := hcopy }
      · obtain ⟨newDue, hdue, hafter⟩ := Option.bind_eq_some_iff.mp hafter
        obtain ⟨next, hnext, hafter⟩ := Option.bind_eq_some_iff.mp hafter
        cases hafter
        have hnot : ¬ state.settings.SpoilsDate card newDue := fun hspoils =>
          hstep ⟨card, hcard, hasNext_of_next hnext, by
            rw [if_neg hright]
            exact ⟨hleft, newDue, hdue, hspoils⟩⟩
        exact { h.upsertCard ((exclusive_dated hnext).mpr hnot) with toast := hcopy }
  | undoSwipe now =>
      refine h.getD fun after hafter => ?_
      simp only [Option.bind_eq_bind, Option.mem_def, Option.bind_eq_some_iff, pure, Option.some.injEq] at hafter
      obtain ⟨card, hcard, reverted, hreverted, rfl⟩ := hafter
      have hexclusive : reverted.Exclusive := (exclusive_next hreverted).mpr (h.toast card hcard)
      exact { h.upsertCard hexclusive with toast := fun _ hnone => absurd hnone (Option.not_mem_none _) }
  | dismissToast => exact { h with toast := fun _ hnone => absurd hnone (Option.not_mem_none _) }
  | openEditor id => exact { h with editing := fun _ hcard => h.card? hcard }
  | closeEditor => exact { h with editing := fun _ hnone => absurd hnone (Option.not_mem_none _) }
  | save text sortedTags selectedDue now =>
      refine h.getD fun after hafter => ?_
      simp only [Option.bind_eq_bind, Option.mem_def, Option.bind_eq_some_iff, pure] at hafter
      obtain ⟨existing, hexisting, hafter⟩ := hafter
      split_ifs at hafter with hsame hdue
      all_goals
        obtain ⟨next, hnext, hafter⟩ := Option.bind_eq_some_iff.mp hafter
        cases hafter
      · have hexclusive : next.Exclusive := by
          rw [exclusive_next hnext]
          rintro ⟨hblazed, hsome⟩
          obtain ⟨hcard, hset⟩ := (blazedAfterDueChange_eq_true hsome).mp hblazed
          exact hstep ⟨existing, hexisting, hdue, ⟨hcard, hsome, hset⟩, hasNext_of_next hnext⟩
        exact { h.upsertCard hexclusive with editing := exclusive_of_mem_some hexclusive }
      · have hexclusive : next.Exclusive := by
          rw [exclusive_next hnext, not_ne_iff.mp hdue]
          exact h.editing existing hexisting
        exact { h.upsertCard hexclusive with editing := exclusive_of_mem_some hexclusive }
  | create id text priority sortedTags selectedDue now =>
      have hexclusive : (Card.first id text priority sortedTags false now selectedDue).Exclusive :=
        fun hboth => absurd hboth.1 Bool.false_ne_true
      exact { h.upsertCard hexclusive with editing := exclusive_of_mem_some hexclusive }
  | changeSettings settings => exact ⟨h.cards, h.toast, h.editing⟩
  | receive cards =>
      refine ⟨fun card hcard => ?_, h.toast, h.editing⟩
      by_contra hboth
      exact hstep ⟨card, hcard, hboth⟩

theorem exists_toggled (hcount : card.HasNext) (settings : DueSettings) (now : DateTime) :
    ∃ next, settings.toggled card now = some next :=
  (Card.exists_next_iff card card.content card.priority card.tags _ now _).mpr hcount

theorem exists_dated (hcount : card.HasNext) (settings : DueSettings) (newDue : Option DateTime)
    (now : DateTime) : ∃ next, settings.dated card newDue now = some next :=
  (Card.exists_next_iff card card.content card.priority card.tags _ now _).mpr hcount

omit [Blake3] in
theorem mem_upsertCard (state : DueState) (card : Card) : card ∈ (state.upsertCard card).cards :=
  mem_replaceCard.mpr (.inr rfl)

/-- A step that spoils a card leaves one that is blazed and due. -/
theorem DueStep.Spoils.exists_card (htidy : state.Tidy) {step : DueStep} (hstep : step.Spoils state) :
    ∃ card ∈ (BlazeList.dueStep state step).cards, ¬ card.Exclusive := by
  cases step with
  | toggleBlaze id now =>
      obtain ⟨card, hcard, hspoils, hcount⟩ := hstep
      obtain ⟨next, hnext⟩ := exists_toggled hcount state.settings now
      have hafter : BlazeList.dueStep state (.toggleBlaze id now) = state.upsertCard next := by
        simp only [BlazeList.dueStep, Option.bind_eq_bind, Option.mem_def.mp hcard, Option.bind_some,
          hnext, pure, Option.getD_some]
      rw [hafter]
      exact ⟨next, mem_upsertCard state next, fun hexclusive => (exclusive_toggled hnext).mp hexclusive hspoils⟩
  | setDueDateShortcut id shortcut now =>
      obtain ⟨card, hcard, newDue, hdue, hspoils, hcount⟩ := hstep
      obtain ⟨next, hnext⟩ := exists_dated hcount state.settings newDue now
      have hafter : BlazeList.dueStep state (.setDueDateShortcut id shortcut now) = state.upsertCard next := by
        simp only [BlazeList.dueStep, Option.bind_eq_bind, Option.mem_def.mp hcard, Option.bind_some,
          Option.mem_def.mp hdue, hnext, pure, Option.getD_some]
      rw [hafter]
      exact ⟨next, mem_upsertCard state next, fun hexclusive => (exclusive_dated hnext).mp hexclusive hspoils⟩
  | setDueDate id newDue now =>
      obtain ⟨card, hcard, hspoils, hcount⟩ := hstep
      obtain ⟨next, hnext⟩ := exists_dated hcount state.settings newDue now
      have hdiffers : card.dueDate ≠ newDue := by
        rintro rfl
        exact htidy.card? hcard ⟨hspoils.1, hspoils.2.1⟩
      have hafter : BlazeList.dueStep state (.setDueDate id newDue now) = state.upsertCard next := by
        simp only [BlazeList.dueStep, Option.bind_eq_bind, Option.mem_def.mp hcard, Option.bind_some,
          if_neg hdiffers, hnext, pure, Option.getD_some]
      rw [hafter]
      exact ⟨next, mem_upsertCard state next, fun hexclusive => (exclusive_dated hnext).mp hexclusive hspoils⟩
  | swipe id offset zones now =>
      obtain ⟨card, hcard, hcount, hspoils⟩ := hstep
      split_ifs at hspoils with hright
      · obtain ⟨next, hnext⟩ := exists_toggled hcount state.settings now
        have hafter : BlazeList.dueStep state (.swipe id offset zones now) =
            { state.upsertCard next with toast := some card } := by
          simp only [BlazeList.dueStep, Option.bind_eq_bind, Option.mem_def.mp hcard, Option.bind_some,
            if_pos hright, hnext, pure, Option.getD_some]
        rw [hafter]
        exact ⟨next, mem_upsertCard state next, fun hexclusive => (exclusive_toggled hnext).mp hexclusive hspoils⟩
      · obtain ⟨hleft, newDue, hdue, hspoils⟩ := hspoils
        obtain ⟨next, hnext⟩ := exists_dated hcount state.settings newDue now
        have hafter : BlazeList.dueStep state (.swipe id offset zones now) =
            { state.upsertCard next with toast := some card } := by
          simp only [BlazeList.dueStep, Option.bind_eq_bind, Option.mem_def.mp hcard, Option.bind_some,
            if_neg hright, if_pos hleft, Option.mem_def.mp hdue, hnext, pure,
            Option.getD_some]
        rw [hafter]
        exact ⟨next, mem_upsertCard state next, fun hexclusive => (exclusive_dated hnext).mp hexclusive hspoils⟩
  | save text sortedTags selectedDue now =>
      obtain ⟨existing, hexisting, hdiffers, hspoils, hcount⟩ := hstep
      obtain ⟨next, hnext⟩ :=
        (Card.exists_next_iff existing text existing.priority sortedTags
          (state.settings.blazedAfterDueChange existing.blazed selectedDue) now selectedDue).mpr hcount
      have hchanged : ¬ (text = existing.content ∧ sortedTags = existing.tags ∧ selectedDue = existing.dueDate) :=
        fun hsame => hdiffers hsame.2.2
      have hafter : BlazeList.dueStep state (.save text sortedTags selectedDue now) =
          { state.upsertCard next with editing := some next } := by
        simp only [BlazeList.dueStep, Option.bind_eq_bind, Option.mem_def.mp hexisting, Option.bind_some,
          if_neg hchanged, if_pos hdiffers, hnext, pure, Option.getD_some]
      rw [hafter]
      refine ⟨next, mem_upsertCard state next, fun hexclusive => (exclusive_next hnext).mp hexclusive ?_⟩
      exact ⟨(blazedAfterDueChange_eq_true hspoils.2.1).mpr ⟨hspoils.1, hspoils.2.2⟩, hspoils.2.1⟩
  | receive cards => exact hstep
  | undoSwipe _ | dismissToast | openEditor _ | closeEditor | create _ _ _ _ _ _ | changeSettings _ =>
      exact hstep.elim

end Tidy

end Edits

end BlazeList
