import BlazeList.Client.Filter
import BlazeList.Client.Subscription

/-!
# What the client shows and what the server lists

The client filters and sorts its own cards, and the server has a query of its own that selects by blaze and
orders by priority. When the client has the contents of the server, the two agree: in the default order every
filter shows the part of the server's list that it keeps, in the order of that list.
-/

namespace BlazeList

/-! ### One predicate for all filters -/

section Filters

variable {toLowercase : String → String} {filters : Filters} {allTags : List Tag} {today : Int}

/-- A filter that is not in use is one that keeps everything. -/
theorem exists_filter_of_ite {α : Type} (condition : Prop) [Decidable condition] (keeps : α → Bool) :
    ∃ p : α → Bool, ∀ rows : List α, (if condition then rows else rows.filter keeps) = rows.filter p := by
  by_cases hcondition : condition
  · exact ⟨fun _ => true, fun rows => by rw [if_pos hcondition, List.filter_true]⟩
  · exact ⟨keeps, fun rows => by rw [if_neg hcondition]⟩

theorem exists_filter_linked (linkedIds : List Uuid) :
    ∃ p : Card → Bool, ∀ cards, applyLinkedCardFilter cards linkedIds = cards.filter p :=
  exists_filter_of_ite _ _

theorem exists_filter_search (toLowercase : String → String) (query : String) (searchTags : Bool)
    (allTags : List Tag) :
    ∃ p : Card → Bool, ∀ cards, applySearchFilter toLowercase cards query searchTags allTags = cards.filter p :=
  exists_filter_of_ite _ _

theorem exists_filter_tags (selectedTags : List Uuid) (mode : TagFilterMode) (noTags : Bool) :
    ∃ p : Card → Bool, ∀ cards, applyTagFilter cards selectedTags mode noTags = cards.filter p :=
  exists_filter_of_ite _ _

theorem exists_filter_dueDate (filter : DueDateFilter) (today : Int) (includeOverdue : Bool) :
    ∃ p : Card → Bool, ∀ cards, applyDueDateFilter cards filter today includeOverdue = cards.filter p := by
  cases filter with
  | all => exact ⟨fun _ => true, fun cards => (List.filter_true cards).symm⟩
  | _ => exact ⟨_, fun _ => rfl⟩

def Filters.apply (filters : Filters) (toLowercase : String → String) (allTags : List Tag) (today : Int)
    (cards : List Card) : List Card :=
  applyDueDateFilter (applyAllFilters toLowercase cards filters allTags) filters.dueDate today
    filters.includeOverdue

/-- The filters select by one predicate, and what it keeps is of the blaze state that is asked for. -/
theorem exists_filter_apply (filters : Filters) (toLowercase : String → String) (allTags : List Tag)
    (today : Int) :
    ∃ p : Card → Bool, (∀ card, p card = true → filters.blaze.admits card = true) ∧
      ∀ cards, filters.apply toLowercase allTags today cards = cards.filter p := by
  obtain ⟨linked, hlinked⟩ := exists_filter_linked filters.linkedCards
  obtain ⟨search, hsearch⟩ := exists_filter_search toLowercase filters.searchQuery filters.searchTags allTags
  obtain ⟨tags, htags⟩ := exists_filter_tags filters.tagFilter filters.tagFilterMode filters.noTags
  obtain ⟨due, hdue⟩ := exists_filter_dueDate filters.dueDate today filters.includeOverdue
  refine ⟨fun card => (((linked card && filters.blaze.admits card) && search card) && tags card) && due card,
    fun card hcard => ?_, fun cards => ?_⟩
  · simp only [Bool.and_eq_true] at hcard
    exact hcard.1.1.1.2
  · unfold Filters.apply applyAllFilters applyBlazeFilter
    dsimp only
    rw [hdue, htags, hsearch, hlinked, List.filter_filter, List.filter_filter, List.filter_filter,
      List.filter_filter]
    congr 1
    funext card
    simp only [Bool.and_comm, Bool.and_assoc, Bool.and_left_comm]

end Filters

/-! ### The server's list -/

section Listing

variable {store : Store}

/-- No two live cards have the same priority. -/
theorem eq_of_priority_eq {a b : Card} (ha : a ∈ store.cards.entities) (hb : b ∈ store.cards.entities)
    (h : a.priority = b.priority) : a = b := by
  obtain ⟨row, hrow, rfl⟩ := List.mem_map.mp ha
  obtain ⟨other, hother, rfl⟩ := List.mem_map.mp hb
  exact congrArg EntityRow.entity (Table.eq_of_conflict hrow hother (.inr h))

theorem priority_injective {filter : CardFilter} :
    ∀ a ∈ store.cards.entities.filter filter.admits, ∀ b ∈ store.cards.entities.filter filter.admits,
      - a.priority.val = - b.priority.val → a = b := by
  intro a ha b hb h
  exact eq_of_priority_eq (List.mem_filter.mp ha).1 (List.mem_filter.mp hb).1 (Subtype.ext (neg_inj.mp h))

variable [Blake3]

theorem listCards_eq (hreads : StoredAll ReadsBack store.cards) (filter : CardFilter) :
    listCards store filter none = .ok (byPriority (store.cards.entities.filter filter.admits)) := by
  apply fromRows_of_readsBack
  intro card hcard
  obtain ⟨row, hrow, rfl⟩ := List.mem_map.mp (List.mem_filter.mp (List.mem_orderBy.mp hcard)).1
  exact hreads.live row hrow

/-- With the cards of the server the client shows, in the default order, what its filters keep of the list
that the server gives. -/
theorem shows_iff_listCards (hreads : StoredAll ReadsBack store.cards) {cards : List Card}
    (hcards : cards.Perm store.cards.entities) (filters : Filters) (toLowercase : String → String)
    (allTags : List Tag) (today : Int) (shown : List Card) :
    filters.Shows toLowercase .priority allTags today cards shown ↔
      ∃ listed, listCards store filters.blaze none = .ok listed ∧
        shown = filters.apply toLowercase allTags today listed := by
  obtain ⟨p, hadmits, hp⟩ := exists_filter_apply filters toLowercase allTags today
  have hlisted : filters.apply toLowercase allTags today
      (byPriority (store.cards.entities.filter filters.blaze.admits)) =
        byPriority (store.cards.entities.filter p) := by
    have hboth : (store.cards.entities.filter filters.blaze.admits).filter p = store.cards.entities.filter p := by
      rw [List.filter_filter]
      apply List.filter_congr
      intro card _
      cases hkeeps : p card with
      | true => rw [hadmits card hkeeps, Bool.and_self]
      | false => rw [Bool.false_and]
    rw [hp, byPriority, List.filter_orderBy, hboth, byPriority]
    intro a ha b hb
    exact priority_injective a (List.mem_of_mem_filter ha) b (List.mem_of_mem_filter hb)
  have hkey : ∀ a ∈ store.cards.entities.filter p, ∀ b ∈ store.cards.entities.filter p,
      - a.priority.val = - b.priority.val → a = b := by
    intro a ha b hb h
    exact eq_of_priority_eq (List.mem_filter.mp ha).1 (List.mem_filter.mp hb).1 (Subtype.ext (neg_inj.mp h))
  have hperm : (filters.apply toLowercase allTags today cards).Perm (store.cards.entities.filter p) := by
    rw [hp]
    exact hcards.filter p
  constructor
  · rintro ⟨hshown, hsorted⟩
    refine ⟨_, listCards_eq hreads filters.blaze, ?_⟩
    rw [hlisted]
    apply List.eq_orderBy_of_perm hkey (hshown.trans hperm)
    exact hsorted.imp fun hle => neg_le_neg_iff.mpr hle
  · rintro ⟨listed, hlist, rfl⟩
    rw [listCards_eq hreads] at hlist
    cases hlist
    rw [hlisted]
    refine ⟨(List.orderBy_perm _ _).trans hperm.symm, ?_⟩
    exact (List.orderBy_pairwise _ _).imp fun hle => neg_le_neg_iff.mp hle

/-- The list of a subscribed client that waits for a notification, with nothing on its way and nothing lost. -/
theorem listed_run (steps : List SubscriptionStep)
    (hrun : BuiltRun (steps.filterMap SubscriptionStep.call?)) (filters : Filters)
    (toLowercase : String → String) (allTags : List Tag) (today : Int) (shown : List Card) :
    let world := Run.after subscriptionStep .new steps
    world.Quiet → world.missed = false →
      (filters.Shows toLowercase .priority allTags today world.state.cards shown ↔
        ∃ listed, listCards world.store filters.blaze none = .ok listed ∧
          shown = filters.apply toLowercase allTags today listed) := by
  intro world hquiet hmissed
  have hsound := sound_run steps hrun
  have hreads : ReadsBackInvariant world.store := (hrun.of_prefix hsound.inTurn.executed).readsBackInvariant
  have hcards := (hsound.upToDate_iff hquiet).mpr hmissed |>.cards
  exact shows_iff_listCards hreads.cards ((shows_iff_perm hreads.cards).mp hcards) filters toLowercase allTags
    today shown

end Listing

theorem listed_run_subscribed :
    let _ := polynomialBlake3
    let world := Run.after subscriptionStep .new subscribedSteps
    BuiltRun (subscribedSteps.filterMap SubscriptionStep.call?) ∧ world.Quiet ∧ world.missed = false ∧
      ∀ shown, defaultFilters.Shows id .priority [] 0 world.state.cards shown ↔
        ∃ listed, listCards world.store .extinguished none = .ok listed ∧
          shown = defaultFilters.apply id [] 0 listed :=
  ⟨builtRun_sample, quiet_subscribed, by decide +kernel,
    fun shown => @listed_run polynomialBlake3 subscribedSteps builtRun_sample defaultFilters id [] 0 shown
      quiet_subscribed (by decide +kernel)⟩

end BlazeList
