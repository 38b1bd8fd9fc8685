import BlazeList.Client.Bursts

/-!
# The visible list

The list on the screen: the cards that pass the filters, in the order that is chosen. Moves are worked
out on this list alone.
-/

namespace BlazeList

inductive DueDateFilter where
  | all
  | overdue
  | today
  | todayAndUpcoming
  | upcomingTomorrow
  | todayAndTomorrow
  | upcomingWeek
  | upcomingTwoWeeks

inductive TagFilterMode where
  | or
  | and
  | nor
  | nand

inductive SortOrder where
  | priority
  | priorityReverse
  | modifiedAt
  | modifiedAtReverse
  | createdAt
  | createdAtReverse
  | title
  | titleReverse
  | dueDate
  | dueDateReverse
  deriving DecidableEq

structure Filters where
  linkedCards : List Uuid
  blaze : CardFilter
  searchQuery : String
  tagFilter : List Uuid
  tagFilterMode : TagFilterMode
  noTags : Bool
  searchTags : Bool
  dueDate : DueDateFilter
  includeOverdue : Bool

def DateTime.dateNaive (time : DateTime) : Int := time.timestampMillis / 86400000

/-! ### Filtering -/

def applyLinkedCardFilter (cards : List Card) (linkedIds : List Uuid) : List Card :=
  if linkedIds.isEmpty then cards else cards.filter fun card => card.id ∈ linkedIds

def applyBlazeFilter (cards : List Card) (filter : CardFilter) : List Card := cards.filter filter.admits

/-- `toLowercase` is that of the standard library. -/
def applySearchFilter (toLowercase : String → String) (cards : List Card) (query : String)
    (searchTags : Bool) (allTags : List Tag) : List Card :=
  if query.isEmpty then
    cards
  else
    let found (text : String) : Bool := (toLowercase query).toList <:+: (toLowercase text).toList
    cards.filter fun card => found card.content || searchTags && card.tags.any fun tagId =>
      (allTags.find? fun tag => tag.id = tagId).any fun tag => found tag.title

def TagFilterMode.keeps (mode : TagFilterMode) (selectedTags tags : List Uuid) : Bool :=
  match mode with
  | .or => tags.any fun tag => tag ∈ selectedTags
  | .and => selectedTags.all fun tag => tag ∈ tags
  | .nor => ! tags.any fun tag => tag ∈ selectedTags
  | .nand => ! selectedTags.all fun tag => tag ∈ tags

def applyTagFilter (cards : List Card) (selectedTags : List Uuid) (mode : TagFilterMode)
    (noTags : Bool) : List Card :=
  if selectedTags.isEmpty ∧ noTags = false then
    cards
  else
    cards.filter fun card =>
      if noTags ∧ card.tags.isEmpty then true
      else if selectedTags.isEmpty then false
      else mode.keeps selectedTags card.tags

/-- Each window of days is half-open, and the overdue days may be included in it. -/
def DueDateFilter.keeps (filter : DueDateFilter) (today : Int) (includeOverdue : Bool) (date : Int) :
    Prop :=
  let overdueOk := includeOverdue = true ∧ date < today
  match filter with
  | .all => True
  | .overdue => date < today
  | .today => date = today ∨ overdueOk
  | .todayAndUpcoming => today ≤ date ∨ overdueOk
  | .upcomingTomorrow => date = today + 1 ∨ overdueOk
  | .todayAndTomorrow => today ≤ date ∧ date < today + 2 ∨ overdueOk
  | .upcomingWeek => today ≤ date ∧ date < today + 7 ∨ overdueOk
  | .upcomingTwoWeeks => today ≤ date ∧ date < today + 14 ∨ overdueOk

instance (filter : DueDateFilter) (today : Int) (includeOverdue : Bool) (date : Int) :
    Decidable (filter.keeps today includeOverdue date) := by
  cases filter <;> unfold DueDateFilter.keeps <;> infer_instance

def applyDueDateFilter (cards : List Card) (filter : DueDateFilter) (today : Int)
    (includeOverdue : Bool) : List Card :=
  match filter with
  | .all => cards
  | filter => cards.filter fun card =>
      ∃ date ∈ card.dueDate, filter.keeps today includeOverdue date.dateNaive

def applyAllFilters (toLowercase : String → String) (cards : List Card) (filters : Filters)
    (allTags : List Tag) : List Card :=
  let cards := applyLinkedCardFilter cards filters.linkedCards
  let cards := applyBlazeFilter cards filters.blaze
  let cards := applySearchFilter toLowercase cards filters.searchQuery filters.searchTags allTags
  applyTagFilter cards filters.tagFilter filters.tagFilterMode filters.noTags

/-! ### Sorting -/

/-- Cards with a due date first, by date, and by priority where that is the same. -/
def dueBefore (datesInOrder : DateTime → DateTime → Prop) (a b : Card) : Prop :=
  match a.dueDate, b.dueDate with
  | some dueA, some dueB => datesInOrder dueA dueB ∧ (dueA = dueB → b.priority.val ≤ a.priority.val)
  | some _, none => True
  | none, some _ => False
  | none, none => b.priority.val ≤ a.priority.val

def SortOrder.Before (toLowercase : String → String) (order : SortOrder) (a b : Card) : Prop :=
  match order with
  | .priority => b.priority.val ≤ a.priority.val
  | .priorityReverse => a.priority.val ≤ b.priority.val
  | .modifiedAt => b.modifiedAt.timestampMillis ≤ a.modifiedAt.timestampMillis
  | .modifiedAtReverse => a.modifiedAt.timestampMillis ≤ b.modifiedAt.timestampMillis
  | .createdAt => b.createdAt.timestampMillis ≤ a.createdAt.timestampMillis
  | .createdAtReverse => a.createdAt.timestampMillis ≤ b.createdAt.timestampMillis
  | .title => ¬ toLowercase b.content < toLowercase a.content
  | .titleReverse => ¬ toLowercase a.content < toLowercase b.content
  | .dueDate => dueBefore (fun a b => a.timestampMillis ≤ b.timestampMillis) a b
  | .dueDateReverse => dueBefore (fun a b => b.timestampMillis ≤ a.timestampMillis) a b

instance (datesInOrder : DateTime → DateTime → Prop) [DecidableRel datesInOrder] (a b : Card) :
    Decidable (dueBefore datesInOrder a b) := by
  unfold dueBefore
  split <;> infer_instance

instance (toLowercase : String → String) (order : SortOrder) :
    DecidableRel (order.Before toLowercase) := by
  intro a b
  cases order <;> unfold SortOrder.Before <;> infer_instance

/-- `shown` is what `filtered_cards` may give: the sort is unstable, so that cards with the same key may
come in any order. -/
def Filters.Shows (toLowercase : String → String) (filters : Filters) (order : SortOrder)
    (allTags : List Tag) (today : Int) (cards shown : List Card) : Prop :=
  shown.Perm (applyDueDateFilter (applyAllFilters toLowercase cards filters allTags) filters.dueDate
    today filters.includeOverdue) ∧ shown.Pairwise (order.Before toLowercase)

instance (toLowercase : String → String) (filters : Filters) (order : SortOrder) (allTags : List Tag)
    (today : Int) (cards shown : List Card) :
    Decidable (filters.Shows toLowercase order allTags today cards shown) :=
  inferInstanceAs (Decidable (_ ∧ _))

/-! ### What is shown -/

section

variable {toLowercase : String → String} {filters : Filters} {order : SortOrder} {allTags : List Tag}
  {today : Int} {cards shown : List Card}

theorem applyAllFilters_sublist (cards : List Card) :
    (applyAllFilters toLowercase cards filters allTags).Sublist cards := by
  have hlinked : (applyLinkedCardFilter cards filters.linkedCards).Sublist cards := by
    unfold applyLinkedCardFilter
    split
    · exact List.Sublist.refl _
    · exact List.filter_sublist
  have hsearch : ∀ cards, (applySearchFilter toLowercase cards filters.searchQuery filters.searchTags
      allTags).Sublist cards := by
    intro cards
    unfold applySearchFilter
    split
    · exact List.Sublist.refl _
    · exact List.filter_sublist
  have htags : ∀ cards, (applyTagFilter cards filters.tagFilter filters.tagFilterMode
      filters.noTags).Sublist cards := by
    intro cards
    unfold applyTagFilter
    split
    · exact List.Sublist.refl _
    · exact List.filter_sublist
  exact (htags _).trans ((hsearch _).trans (List.filter_sublist.trans hlinked))

theorem Filters.Shows.subperm (h : filters.Shows toLowercase order allTags today cards shown) :
    shown.Subperm cards := by
  have hdue : (applyDueDateFilter (applyAllFilters toLowercase cards filters allTags) filters.dueDate
      today filters.includeOverdue).Sublist (applyAllFilters toLowercase cards filters allTags) := by
    unfold applyDueDateFilter
    split
    · exact List.Sublist.refl _
    · exact List.filter_sublist
  exact h.1.subperm.trans (hdue.trans (applyAllFilters_sublist cards)).subperm

theorem Filters.Shows.mem (h : filters.Shows toLowercase order allTags today cards shown) {card : Card}
    (hcard : card ∈ shown) : card ∈ cards := h.subperm.subset hcard

theorem Filters.Shows.nodup_map {β : Type} (h : filters.Shows toLowercase order allTags today cards shown)
    (key : Card → β) (hkeys : (cards.map key).Nodup) : (shown.map key).Nodup := by
  obtain ⟨part, hperm, hsub⟩ := h.subperm
  exact (hperm.map key).nodup_iff.mp (hkeys.sublist (hsub.map key))

/-- In the default order the visible cards are sorted as a move expects them to be. -/
theorem Filters.Shows.sortedDesc (h : filters.Shows toLowercase .priority allTags today cards shown)
    (hpriorities : (cards.map Card.priority).Nodup) : SortedDesc shown := by
  have hdistinct := List.pairwise_map.mp (h.nodup_map Card.priority hpriorities)
  refine (h.2.and hdistinct).imp fun ⟨hle, hne⟩ => ?_
  exact lt_of_le_of_ne hle fun heq => hne (Subtype.ext heq.symm)

end

/-! ### Samples -/

def defaultFilters : Filters := ⟨[], .extinguished, "", [], .or, false, false, .all, false⟩

end BlazeList
