import BlazeList.Client.Screen

/-!
# The address describes the screen

Whoever shares the address, reloads it or comes back to it finds the view again. The entries of the history
are what the view was, so that going back undoes what was done.
-/

namespace BlazeList

open FormUrlEncoded (Bytes)

def ViewSignals.SameAddress (first second : ViewSignals) : Prop :=
  first.buildQueryString = second.buildQueryString

/-- Only the search, which the address leaves out, may differ. -/
def ViewSignals.SameButSearch (first second : ViewSignals) : Prop :=
  second = { first with filters := { first.filters with
    searchQuery := second.filters.searchQuery
    searchTags := second.filters.searchTags } }

theorem ViewSignals.SameAddress.sameButSearch {first second : ViewSignals} (h : first.SameAddress second) :
    first.SameButSearch second := by
  calc
    second = second.restoreFromQueryParams second.buildQueryString :=
      (restoreFromQueryParams_buildQueryString second second).symm
    _ = second.restoreFromQueryParams first.buildQueryString := by rw [h]
    _ = _ := restoreFromQueryParams_buildQueryString first second

namespace Screen

/-- What restoring from the address would bring is there. -/
def Described (screen : Screen) : Prop :=
  screen.view.restoreFromQueryParams screen.history.current = screen.view

/-- A step that keeps up with the address: the new view is visited, or there is none. -/
def Follows (before after : Screen) : Prop :=
  after.history = before.history.visit after.view.buildQueryString ∨
    after.history = before.history ∧ before.view.SameAddress after.view

variable {screen before after next : Screen}

/-! ### One step -/

theorem follows_refl : Follows screen screen := .inr ⟨rfl, rfl⟩

/-- Only what the address is not made of is different. -/
theorem Follows.congr (h : Follows before after) (hhistory : next.history = after.history)
    (hview : after.view.SameAddress next.view) : Follows before next := by
  rcases h with hvisit | ⟨hkept, hsame⟩
  · refine .inl ?_
    rw [hhistory, hvisit, hview]
  · exact .inr ⟨hhistory.trans hkept, hsame.trans hview⟩

theorem follows_syncQueryParams (h : next.history = before.history) : Follows before next.syncQueryParams := by
  refine .inl ?_
  rw [syncQueryParams, h]

theorem follows_getD {result : Option Screen} (h : ∀ after, result = some after → Follows screen after) :
    Follows screen (result.getD screen) := by
  cases result with
  | none => exact follows_refl
  | some after => exact h after rfl

theorem follows_of_ite {condition : Prop} [Decidable condition] (h : Follows screen next)
    (hresult : (if condition then some next else none) = some after) : Follows screen after := by
  split at hresult
  · exact Option.some.inj hresult ▸ h
  · cases hresult

theorem follows_setSelection {target : Option Uuid} {discard : Bool} (hhistory : next.history = screen.history)
    (h : next.setSelection target discard = some after) : Follows screen after := by
  unfold setSelection at h
  refine follows_of_ite (follows_syncQueryParams ?_) h
  exact hhistory

theorem follows_startNewCard {position : NewCardPosition} {discard : Bool}
    (h : screen.startNewCard position discard = some after) : Follows screen after := by
  unfold startNewCard at h
  refine follows_of_ite (follows_syncQueryParams ?_) h
  rfl

theorem follows_startNewTag {discard : Bool} (h : screen.startNewTag discard = some after) :
    Follows screen after := by
  unfold startNewTag at h
  refine follows_of_ite (follows_syncQueryParams ?_) h
  rfl

theorem follows_clearAllState {discard : Bool} (h : screen.clearAllState discard = some after) :
    Follows screen after := by
  unfold clearAllState at h
  refine follows_of_ite (follows_syncQueryParams ?_) h
  rfl

theorem follows_switchToPane {openSettings openShortcuts discard : Bool}
    (h : screen.switchToPane openSettings openShortcuts discard = some after) : Follows screen after := by
  obtain ⟨selected, hselected, rfl⟩ := Option.map_eq_some_iff.mp h
  exact (follows_setSelection rfl hselected).congr rfl rfl

theorem history_openEditor : screen.openEditor.history = screen.history := by
  unfold openEditor
  split <;> rfl

theorem view_openEditor : screen.openEditor.view = screen.view := by
  unfold openEditor
  split <;> rfl

theorem follows_openEditor : Follows screen screen.openEditor :=
  .inr ⟨history_openEditor, congrArg ViewSignals.buildQueryString view_openEditor.symm⟩

theorem follows_filterAction (action : FilterAction) : Follows screen (screen.filterAction action) := by
  cases action with
  | search text => exact .inr ⟨rfl, rfl⟩
  | _ => exact follows_syncQueryParams rfl

theorem follows_trySelect {target : Option Uuid} {discard : Bool} :
    Follows screen (screen.trySelect target discard) := by
  cases target with
  | none => exact follows_refl
  | some id => exact follows_getD fun after h => follows_setSelection rfl h

theorem follows_handleEscape (discard : Bool) : Follows screen (screen.handleEscape discard) := by
  unfold handleEscape
  split
  · apply follows_syncQueryParams
    unfold closeEditor
    split <;> rfl
  · split
    · split
      · exact follows_syncQueryParams rfl
      · exact follows_refl
    · split
      · exact .inr ⟨rfl, rfl⟩
      · split
        · exact .inr ⟨rfl, rfl⟩
        · split
          · exact follows_getD fun after h => follows_setSelection rfl h
          · split
            · exact follows_syncQueryParams rfl
            · split
              · exact follows_syncQueryParams rfl
              · exact follows_refl

theorem follows_shortcut (filtered : List Uuid) (discard : Bool) (shortcut : Shortcut) :
    Follows screen (screen.shortcut filtered discard shortcut) := by
  cases shortcut with
  | nextCard => exact follows_trySelect
  | prevCard => exact follows_trySelect
  | firstCard => exact follows_trySelect
  | lastCard => exact follows_trySelect
  | newCard position => exact follows_getD fun after h => follows_startNewCard h
  | newBelow =>
      simp only [Screen.shortcut]
      split
      · exact follows_getD fun after h => follows_startNewCard h
      · exact follows_refl
  | newAbove =>
      simp only [Screen.shortcut]
      split
      · exact follows_getD fun after h => follows_startNewCard h
      · exact follows_refl
  | newTag => exact follows_getD fun after h => follows_startNewTag h
  | edit => exact follows_openEditor
  | openMenu menu => exact .inr ⟨rfl, rfl⟩
  | openLinkedMenu =>
      simp only [Screen.shortcut]
      split
      · exact .inr ⟨rfl, rfl⟩
      · exact follows_refl
  | setExpanded expanded => exact .inr ⟨rfl, rfl⟩
  | toggleSidebar => exact .inr ⟨rfl, rfl⟩
  | elsewhere => exact follows_refl
  | setFilter filter => exact follows_syncQueryParams rfl
  | toggleNoTags => exact follows_syncQueryParams rfl
  | toggleOverdue => exact follows_syncQueryParams rfl
  | reset => exact follows_syncQueryParams rfl

theorem follows_handleDueDateFilterSubmenu {key : String}
    (h : screen.handleDueDateFilterSubmenu key = some after) : Follows screen after := by
  unfold handleDueDateFilterSubmenu at h
  split at h
  case h_10 =>
    split at h
    · exact Option.some.inj h ▸ follows_syncQueryParams rfl
    · cases h
  case h_11 => cases h
  all_goals exact Option.some.inj h ▸ follows_syncQueryParams rfl

theorem follows_handleTagFilterModeSubmenu {key : String}
    (h : screen.handleTagFilterModeSubmenu key = some after) : Follows screen after := by
  unfold handleTagFilterModeSubmenu at h
  split at h
  case h_5 => cases h
  all_goals exact Option.some.inj h ▸ follows_syncQueryParams rfl

theorem follows_handleSortSubmenu {key : String} (h : screen.handleSortSubmenu key = some after) :
    Follows screen after := by
  unfold handleSortSubmenu at h
  split at h
  case h_11 => cases h
  all_goals exact Option.some.inj h ▸ follows_syncQueryParams rfl

theorem follows_handleLinkedCardsSubmenu {content : Content} {key : String}
    (h : screen.handleLinkedCardsSubmenu content key = some after) : Follows screen after := by
  obtain ⟨cardId, -, h⟩ := Option.bind_eq_some_iff.mp h
  obtain ⟨card, -, h⟩ := Option.bind_eq_some_iff.mp h
  dsimp only at h
  split at h
  case h_6 => cases h
  all_goals exact Option.some.inj h ▸ follows_syncQueryParams rfl

theorem follows_submenuKey (content : Content) (menu : SubMenu) (key : String) :
    Follows screen (screen.submenuKey content menu key) := by
  have hmenu : ∀ after, screen.handleSubmenu content menu key = some after → Follows screen after := by
    intro after h
    cases menu with
    | dueDateFilter => exact follows_handleDueDateFilterSubmenu h
    | sort => exact follows_handleSortSubmenu h
    | linkedCards => exact follows_handleLinkedCardsSubmenu h
    | tagFilterMode => exact follows_handleTagFilterModeSubmenu h
  unfold submenuKey
  split
  · exact .inr ⟨rfl, rfl⟩
  · split
    · exact follows_refl
    · split
      · rename_i after h
        exact (hmenu after h).congr rfl rfl
      · exact follows_refl

theorem follows_handleKeydown (content : Content) (event : KeyboardEvent) (discard : Bool) :
    Follows screen (screen.handleKeydown content event discard) := by
  unfold handleKeydown
  dsimp only
  split
  · split
    · exact follows_refl
    · split
      · exact .inr ⟨rfl, rfl⟩
      · exact follows_handleEscape discard
  · split
    · split
      · exact .inr ⟨rfl, rfl⟩
      · exact follows_refl
    · split
      · exact follows_submenuKey content _ event.key
      · split
        · exact follows_trySelect
        · iterate 2
            split
            · exact follows_refl
          iterate 2
            split
            · split
              · exact .inr ⟨rfl, rfl⟩
              · exact follows_getD fun after h => follows_switchToPane h
          iterate 2
            split
            · exact follows_refl
          cases Shortcut.ofKey event.key with
          | none => exact follows_refl
          | some shortcut => exact follows_shortcut _ discard shortcut

/-! ### Every step -/

/-- The user goes through the history. -/
def Traverses : ScreenEvent → Prop
  | .back => True
  | .forward => True
  | _ => False

/-- A tag of the filter is deleted while there are unsaved changes, and the prompt is declined. -/
def Drifts (screen : Screen) : ScreenEvent → Prop
  | .tagDeleted id discard => id ∈ screen.view.filters.tagFilter ∧ screen.confirmDiscardChanges discard = false
  | _ => False

theorem confirmDiscardChanges_of_setSelection {target : Option Uuid} {discard : Bool}
    (h : screen.setSelection target discard = none) : screen.confirmDiscardChanges discard = false := by
  unfold setSelection at h
  split at h
  · cases h
  · rename_i hconfirm
    exact Bool.eq_false_iff.mpr hconfirm

theorem tagDeleted_of_declined {tagId : Uuid} {discard : Bool}
    (h : screen.confirmDiscardChanges discard = false) :
    screen.tagDeleted tagId discard = screen.setFilters fun filters =>
      { filters with tagFilter := filters.tagFilter.filter (· ≠ tagId) } := by
  have hdeclined (next : Screen) (hnext : next.hasUnsavedChanges = screen.hasUnsavedChanges) :
      next.setSelection none discard = none := by
    unfold setSelection confirmDiscardChanges
    rw [hnext]
    exact if_neg (Bool.eq_false_iff.mp h)
  rw [tagDeleted, hdeclined]
  · rfl
  · rfl

theorem follows_tagDeleted {tagId : Uuid} {discard : Bool}
    (h : ¬ screen.Drifts (.tagDeleted tagId discard)) : Follows screen (screen.tagDeleted tagId discard) := by
  by_cases hdeclined : screen.confirmDiscardChanges discard = false
  · rw [tagDeleted_of_declined hdeclined]
    have habsent : tagId ∉ screen.view.filters.tagFilter := fun hmem => h ⟨hmem, hdeclined⟩
    have hfilter : screen.view.filters.tagFilter.filter (· ≠ tagId) = screen.view.filters.tagFilter := by
      apply List.filter_eq_self.mpr
      intro id hid
      exact decide_eq_true fun heq => habsent (heq ▸ hid)
    refine .inr ⟨rfl, ?_⟩
    change screen.view.SameAddress { screen.view with filters := { screen.view.filters with
      tagFilter := screen.view.filters.tagFilter.filter (· ≠ tagId) } }
    rw [hfilter]
    rfl
  · unfold tagDeleted
    dsimp only
    generalize hnext : screen.setFilters _ = next
    have hhistory : next.history = screen.history := hnext ▸ rfl
    have hunsaved : next.hasUnsavedChanges = screen.hasUnsavedChanges := hnext ▸ rfl
    cases hselected : next.setSelection none discard with
    | none =>
        have hconfirm := confirmDiscardChanges_of_setSelection hselected
        rw [confirmDiscardChanges, hunsaved] at hconfirm
        exact absurd hconfirm hdeclined
    | some after => exact follows_setSelection hhistory hselected

theorem follows_step {event : ScreenEvent} (htraverse : ¬ Traverses event) (hdrift : ¬ screen.Drifts event) :
    Follows screen (screen.step event) := by
  cases event with
  | key content event discard => exact follows_handleKeydown content event discard
  | filter action => exact follows_filterAction action
  | select target discard => exact follows_getD fun after h => follows_setSelection rfl h
  | close discard =>
      apply follows_getD
      intro after h
      obtain ⟨selected, hselected, rfl⟩ := Option.map_eq_some_iff.mp h
      exact (follows_setSelection rfl hselected).congr rfl rfl
  | startNewCard position discard => exact follows_getD fun after h => follows_startNewCard h
  | startNewTag discard => exact follows_getD fun after h => follows_startNewTag h
  | openEditor => exact follows_openEditor
  | closeEditor discard =>
      apply follows_getD
      intro after h
      unfold closeEditor at h
      split at h
      · exact Option.some.inj h ▸ .inr ⟨rfl, rfl⟩
      · cases h
  | cancelNewCard discard =>
      simp only [step]
      split
      · exact .inr ⟨rfl, rfl⟩
      · exact follows_refl
  | cancelNewTag discard =>
      simp only [step]
      split
      · exact follows_syncQueryParams rfl
      · exact follows_refl
  | cardCreated id stay =>
      have hselected : Follows screen (screen.step (.tagCreated id)) := follows_syncQueryParams rfl
      simp only [step]
      split
      · exact hselected.congr history_openEditor (congrArg ViewSignals.buildQueryString view_openEditor.symm)
      · exact hselected.congr rfl rfl
  | tagCreated id => exact follows_syncQueryParams rfl
  | tagDeleted id discard => exact follows_tagDeleted hdrift
  | dirty unsaved => exact .inr ⟨rfl, rfl⟩
  | clearAll discard => exact follows_getD fun after h => follows_clearAllState h
  | switchToPane openSettings openShortcuts discard => exact follows_getD fun after h => follows_switchToPane h
  | closePanes settings shortcuts => exact .inr ⟨rfl, rfl⟩
  | closeSubmenu => exact .inr ⟨rfl, rfl⟩
  | back => exact absurd trivial htraverse
  | forward => exact absurd trivial htraverse

/-! ### Runs -/

theorem Described.of_follows (h : before.Described) (hfollows : Follows before after) : after.Described := by
  rcases hfollows with hvisit | ⟨hkept, hsame⟩
  · rw [Described, hvisit, Visits.current_visit]
    exact ViewSignals.restoreFromQueryParams_buildQueryString after.view after.view
  · rw [Described, hkept]
    calc
      after.view.restoreFromQueryParams before.history.current =
          { before.view.restoreFromQueryParams before.history.current with
            filters := { (before.view.restoreFromQueryParams before.history.current).filters with
              searchQuery := after.view.filters.searchQuery
              searchTags := after.view.filters.searchTags } } := rfl
      _ = { before.view with filters := { before.view.filters with
            searchQuery := after.view.filters.searchQuery
            searchTags := after.view.filters.searchTags } } := by rw [h]
      _ = after.view := hsame.sameButSearch.symm

theorem described_restoreFromQueryParams : screen.restoreFromQueryParams.Described := rfl

/-- A drift leaves a tag in the address that is not in the filter. -/
theorem not_described_of_drifts {event : ScreenEvent} (h : screen.Described) (hdrift : screen.Drifts event) :
    ¬ (screen.step event).Described := by
  cases event with
  | tagDeleted id discard =>
      obtain ⟨hmem, hdeclined⟩ := hdrift
      intro hafter
      rw [step, tagDeleted_of_declined hdeclined] at hafter
      have htags : (screen.view.restoreFromQueryParams screen.history.current).filters.tagFilter =
          screen.view.filters.tagFilter.filter (· ≠ id) := congrArg (fun view => view.filters.tagFilter) hafter
      rw [show screen.view.restoreFromQueryParams screen.history.current = screen.view from h] at htags
      rw [htags] at hmem
      exact absurd rfl (of_decide_eq_true (List.mem_filter.mp hmem).2)
  | _ => exact absurd hdrift id

theorem described_step {event : ScreenEvent} (h : screen.Described) (hdrift : ¬ screen.Drifts event) :
    (screen.step event).Described := by
  by_cases htraverse : Traverses event
  · cases event with
    | back => exact described_restoreFromQueryParams
    | forward => exact described_restoreFromQueryParams
    | _ => exact absurd htraverse id
  · exact h.of_follows (follows_step htraverse hdrift)

/-- The address asks for "no tags" in a mode that does not allow it. -/
def Refused (query : Bytes) : Prop :=
  parseNoTagsFromParams (FormUrlEncoded.parse query) = true ∧
    (parseTagModeFromParams (FormUrlEncoded.parse query)).allowsNoTags = false

instance (query : Bytes) : Decidable (Refused query) := inferInstanceAs (Decidable (_ ∧ _))

theorem described_new {searchTags : Bool} {settings : ScreenSettings} {narrow : Bool} {query : Bytes}
    (h : ¬ Refused query) : (new searchTags settings narrow query).Described := by
  have hrefused : (parseNoTagsFromParams (FormUrlEncoded.parse query) &&
      !(parseTagModeFromParams (FormUrlEncoded.parse query)).allowsNoTags) = false := by
    apply Bool.eq_false_iff.mpr
    intro hand
    obtain ⟨hnoTags, hmode⟩ := Bool.and_eq_true_iff.mp hand
    exact h ⟨hnoTags, by simpa using hmode⟩
  simp only [Described, new, initialView, hrefused]
  rfl

/-- In every run from an address the application does not put right, exactly the declined deletions of a tag
of the filter leave the address behind the screen. -/
theorem described_run_iff (searchTags : Bool) (settings : ScreenSettings) (narrow : Bool) (query : Bytes)
    (hquery : ¬ Refused query) (events : List ScreenEvent) :
    (∀ past future, events = past ++ future →
        (Run.after step (new searchTags settings narrow query) past).Described) ↔
      Run.Meets step (fun screen event => ¬ screen.Drifts event) (new searchTags settings narrow query) events :=
  Run.forall_prefix_iff (fun _ h => h) (fun _ _ h hdrift => described_step h hdrift)
    (fun _ _ h hdrift => not_described_of_drifts h hdrift) (described_new hquery)

def sampleQuery : Bytes := encodeText "f.due=today&f.no_tags=1"

def sampleSettings : ScreenSettings := ⟨true, true, false⟩

def sampleEvents : List ScreenEvent := [.filter (.setFilter .all), .select (some 1) false]

theorem described_run_iff_sample :
    (∀ past future, sampleEvents = past ++ future →
        (Run.after step (new false sampleSettings false sampleQuery) past).Described) ↔
      Run.Meets step (fun screen event => ¬ screen.Drifts event) (new false sampleSettings false sampleQuery)
        sampleEvents :=
  described_run_iff false sampleSettings false sampleQuery (by decide) sampleEvents

/-! ### Going back -/

theorem Described.run (h : screen.Described) {events : List ScreenEvent}
    (hevents : Run.Meets step (fun screen event => ¬ Traverses event ∧ ¬ screen.Drifts event) screen events) :
    (Run.after step screen events).Described :=
  hevents.invariant Described h fun _ _ hdescribed hevent => described_step hdescribed hevent.2

theorem Follows.stack (h : Follows before after) : before.history.stack <:+ after.history.stack := by
  rcases h with hvisit | ⟨hkept, -⟩
  · rw [hvisit]
    exact Visits.stack_suffix_visit
  · rw [hkept]

theorem stack_run {events : List ScreenEvent}
    (hevents : Run.Meets step (fun screen event => ¬ Traverses event ∧ ¬ screen.Drifts event) screen events) :
    screen.history.stack <:+ (Run.after step screen events).history.stack :=
  hevents.invariant (fun later => screen.history.stack <:+ later.history.stack) (List.suffix_refl _)
    fun _ _ hsuffix hevent => hsuffix.trans (follows_step hevent.1 hevent.2).stack

theorem history_iterate_back (n : Nat) (screen : Screen) :
    ((fun screen => step screen .back)^[n] screen).history = Visits.goBack^[n] screen.history := by
  induction n generalizing screen with
  | zero => rfl
  | succ n ih => rw [Function.iterate_succ_apply, Function.iterate_succ_apply, ih]; rfl

theorem history_iterate_forward (n : Nat) (screen : Screen) :
    ((fun screen => step screen .forward)^[n] screen).history = Visits.goForward^[n] screen.history := by
  induction n generalizing screen with
  | zero => rfl
  | succ n ih => rw [Function.iterate_succ_apply, Function.iterate_succ_apply, ih]; rfl

theorem described_iterate {event : ScreenEvent} (hevent : Traverses event) (h : screen.Described) (n : Nat) :
    ((fun screen => step screen event)^[n] screen).Described := by
  induction n generalizing screen with
  | zero => exact h
  | succ n ih =>
      rw [Function.iterate_succ_apply]
      apply ih
      cases event with
      | back => exact described_restoreFromQueryParams
      | forward => exact described_restoreFromQueryParams
      | _ => exact absurd hevent id

/-- Two screens with one address that describes both show the same. -/
theorem Described.sameAddress (hfirst : before.Described) (hsecond : after.Described)
    (hcurrent : before.history.current = after.history.current) : before.view.SameAddress after.view := by
  have hview : before.view.restoreFromQueryParams after.history.current = before.view := hcurrent ▸ hfirst
  calc
    before.view.buildQueryString =
        (before.view.restoreFromQueryParams after.history.current).buildQueryString := by rw [hview]
    _ = (after.view.restoreFromQueryParams after.history.current).buildQueryString := rfl
    _ = after.view.buildQueryString := by rw [hsecond]

/-- Whatever was done, a number of steps back brings the view back but for the search, and as many forward undo
them. -/
theorem exists_undo (h : screen.Described) {events : List ScreenEvent}
    (hevents : Run.Meets step (fun screen event => ¬ Traverses event ∧ ¬ screen.Drifts event) screen events) :
    ∃ n, screen.view.SameButSearch
        ((fun screen => step screen .back)^[n] (Run.after step screen events)).view ∧
      (Run.after step screen events).view.SameButSearch
        ((fun screen => step screen .forward)^[n]
          ((fun screen => step screen .back)^[n] (Run.after step screen events))).view := by
  have hlast := h.run hevents
  obtain ⟨above, habove⟩ := stack_run hevents
  generalize Run.after step screen events = last at hlast habove
  have hlength : above.length ≤ last.history.back.length := by
    have hcount := congrArg List.length habove
    simp only [Visits.stack, List.length_append, List.length_cons] at hcount
    omega
  have hback := described_iterate (show Traverses .back from trivial) hlast above.length
  have hforward := described_iterate (show Traverses .forward from trivial) hback above.length
  refine ⟨above.length, (h.sameAddress hback ?_).sameButSearch, (hlast.sameAddress hforward ?_).sameButSearch⟩
  · rw [history_iterate_back]
    exact (List.cons.inj (Visits.stack_iterate_goBack habove.symm)).1.symm
  · rw [history_iterate_forward, history_iterate_back, Visits.iterate_goForward_goBack hlength]

theorem exists_undo_select :
    ∃ n, (new false sampleSettings false sampleQuery).view.SameButSearch
        ((fun screen => step screen .back)^[n]
          (Run.after step (new false sampleSettings false sampleQuery)
            [.filter (.setFilter .all), .select (some 1) false])).view ∧
      (Run.after step (new false sampleSettings false sampleQuery)
          [.filter (.setFilter .all), .select (some 1) false]).view.SameButSearch
        ((fun screen => step screen .forward)^[n]
          ((fun screen => step screen .back)^[n]
            (Run.after step (new false sampleSettings false sampleQuery)
              [.filter (.setFilter .all), .select (some 1) false]))).view :=
  exists_undo (described_new (by decide)) ⟨⟨id, id⟩, ⟨id, id⟩, trivial⟩

end Screen

end BlazeList
