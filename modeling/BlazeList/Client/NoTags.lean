import BlazeList.Client.Address

/-!
# Untagged cards

"No tags" adds the untagged cards to those of a tag filter in OR mode; in the other modes it has no meaning,
and the handlers switch one of the two off. One of them does not: the row of the sidebar.
-/

namespace BlazeList

open FormUrlEncoded (Bytes)

/-- "No tags" is on in OR mode alone. -/
def ViewSignals.NoTagsAllowed (view : ViewSignals) : Prop :=
  view.filters.noTags = true → view.filters.tagFilterMode.allowsNoTags = true

namespace Screen

variable {screen after : Screen}

def Quiet (before after : Screen) : Prop :=
  after.view.filters.noTags = before.view.filters.noTags ∧
      after.view.filters.tagFilterMode = before.view.filters.tagFilterMode ∨
    after.view.filters.noTags = false ∨ after.view.filters.tagFilterMode.allowsNoTags = true

theorem Quiet.noTagsAllowed (hquiet : Quiet screen after) (h : screen.view.NoTagsAllowed) :
    after.view.NoTagsAllowed := by
  intro hnoTags
  rcases hquiet with ⟨hsame, hmode⟩ | hoff | hallowed
  · rw [hmode]
    exact h (hsame ▸ hnoTags)
  · exact absurd (hoff.symm.trans hnoTags) Bool.false_ne_true
  · exact hallowed

theorem quiet_of_view (h : after.view.filters = screen.view.filters) : Quiet screen after := by
  refine .inl ⟨?_, ?_⟩
  · rw [h]
  · rw [h]

theorem Quiet.congr {next : Screen} (h : Quiet screen after) (hview : next.view = after.view) :
    Quiet screen next := by
  unfold Quiet
  rw [hview]
  exact h

theorem quiet_getD {result : Option Screen} (h : ∀ after, result = some after → Quiet screen after) :
    Quiet screen (result.getD screen) := by
  cases result with
  | none => exact quiet_of_view rfl
  | some after => exact h after rfl

theorem quiet_of_ite {condition : Prop} [Decidable condition] {next : Screen} (h : Quiet screen next)
    (hresult : (if condition then some next else none) = some after) : Quiet screen after := by
  split at hresult
  · exact Option.some.inj hresult ▸ h
  · cases hresult

/-! ### One step -/

theorem quiet_setSelection {target : Option Uuid} {discard : Bool} {next : Screen} (hnext : Quiet screen next)
    (h : next.setSelection target discard = some after) : Quiet screen after := by
  unfold setSelection at h
  refine quiet_of_ite ?_ h
  exact hnext

theorem quiet_startNewCard {position : NewCardPosition} {discard : Bool}
    (h : screen.startNewCard position discard = some after) : Quiet screen after := by
  unfold startNewCard at h
  refine quiet_of_ite ?_ h
  exact .inl ⟨rfl, rfl⟩

theorem quiet_startNewTag {discard : Bool} (h : screen.startNewTag discard = some after) :
    Quiet screen after := by
  unfold startNewTag at h
  refine quiet_of_ite ?_ h
  exact .inl ⟨rfl, rfl⟩

theorem quiet_clearAllState {discard : Bool} (h : screen.clearAllState discard = some after) :
    Quiet screen after := by
  unfold clearAllState at h
  refine quiet_of_ite ?_ h
  exact .inr (.inl rfl)

theorem quiet_switchToPane {openSettings openShortcuts discard : Bool}
    (h : screen.switchToPane openSettings openShortcuts discard = some after) : Quiet screen after := by
  obtain ⟨selected, hselected, rfl⟩ := Option.map_eq_some_iff.mp h
  exact (quiet_setSelection (quiet_of_view rfl) hselected).congr rfl

theorem quiet_openEditor : Quiet screen screen.openEditor :=
  quiet_of_view (congrArg ViewSignals.filters view_openEditor)

/-- The flag stays where the mode allows it. -/
theorem quiet_of_and {next : Screen} {mode : TagFilterMode} (hmode : next.view.filters.tagFilterMode = mode)
    (hnoTags : next.view.filters.noTags = (screen.view.filters.noTags && mode.allowsNoTags)) :
    Quiet screen next := by
  cases hallowed : mode.allowsNoTags with
  | true => exact .inr (.inr (hmode ▸ hallowed))
  | false => exact .inr (.inl (by rw [hnoTags, hallowed, Bool.and_false]))

/-- The row of the sidebar switches "no tags" on in NOR or NAND mode. -/
def Slips (screen : Screen) : ScreenEvent → Prop
  | .filter .toggleNoTags => screen.view.filters.noTags = false ∧
      (screen.view.filters.tagFilterMode = .nor ∨ screen.view.filters.tagFilterMode = .nand)
  | _ => False

theorem quiet_filterAction {action : FilterAction} (h : ¬ screen.Slips (.filter action)) :
    Quiet screen (screen.filterAction action) := by
  cases action with
  | dueToday => exact .inr (.inl rfl)
  | cycleMode => exact quiet_of_and rfl rfl
  | clearAllTags => exact .inr (.inl rfl)
  | removeNoTags => exact .inr (.inl rfl)
  | toggleTag id => exact quiet_of_and rfl rfl
  | toggleNoTags =>
      cases hnoTags : screen.view.filters.noTags with
      | true =>
          refine .inr (.inl ?_)
          simp [filterAction, toggleNoTagsRow, setFilters, syncQueryParams, hnoTags]
      | false =>
          refine .inr (.inr ?_)
          cases hmode : screen.view.filters.tagFilterMode with
          | or => simp [filterAction, toggleNoTagsRow, setFilters, syncQueryParams, hnoTags, hmode,
              TagFilterMode.allowsNoTags]
          | and => simp [filterAction, toggleNoTagsRow, setFilters, syncQueryParams, hnoTags, hmode,
              TagFilterMode.allowsNoTags]
          | nor => exact absurd ⟨hnoTags, .inl hmode⟩ h
          | nand => exact absurd ⟨hnoTags, .inr hmode⟩ h
  | filterLinked ids => exact .inr (.inl rfl)
  | _ => exact .inl ⟨rfl, rfl⟩

theorem quiet_trySelect {target : Option Uuid} {discard : Bool} :
    Quiet screen (screen.trySelect target discard) := by
  cases target with
  | none => exact quiet_of_view rfl
  | some id => exact quiet_getD fun after h => quiet_setSelection (quiet_of_view rfl) h

theorem quiet_handleEscape (discard : Bool) : Quiet screen (screen.handleEscape discard) := by
  unfold handleEscape
  split
  · apply quiet_of_view
    unfold closeEditor
    split <;> rfl
  · split
    · split <;> exact quiet_of_view rfl
    · iterate 2
        split
        · exact quiet_of_view rfl
      split
      · exact quiet_getD fun after h => quiet_setSelection (quiet_of_view rfl) h
      · split
        · exact .inl ⟨rfl, rfl⟩
        · split
          · exact .inr (.inl rfl)
          · exact quiet_of_view rfl

theorem quiet_shortcut (filtered : List Uuid) (discard : Bool) (shortcut : Shortcut) :
    Quiet screen (screen.shortcut filtered discard shortcut) := by
  cases shortcut with
  | nextCard => exact quiet_trySelect
  | prevCard => exact quiet_trySelect
  | firstCard => exact quiet_trySelect
  | lastCard => exact quiet_trySelect
  | newCard position => exact quiet_getD fun after h => quiet_startNewCard h
  | newBelow =>
      simp only [Screen.shortcut]
      split
      · exact quiet_getD fun after h => quiet_startNewCard h
      · exact quiet_of_view rfl
  | newAbove =>
      simp only [Screen.shortcut]
      split
      · exact quiet_getD fun after h => quiet_startNewCard h
      · exact quiet_of_view rfl
  | newTag => exact quiet_getD fun after h => quiet_startNewTag h
  | edit => exact quiet_openEditor
  | openLinkedMenu =>
      simp only [Screen.shortcut]
      split <;> exact quiet_of_view rfl
  | toggleNoTags =>
      cases hnoTags : screen.view.filters.noTags with
      | true => exact .inr (.inl (by simp [Screen.shortcut, setFilters, syncQueryParams, hnoTags]))
      | false =>
          refine .inr (.inr ?_)
          simp [Screen.shortcut, setFilters, syncQueryParams, hnoTags, TagFilterMode.allowsNoTags]
  | reset => exact .inr (.inl rfl)
  | _ => exact .inl ⟨rfl, rfl⟩

theorem quiet_handleSubmenu {content : Content} {menu : SubMenu} {key : String}
    (h : screen.handleSubmenu content menu key = some after) : Quiet screen after := by
  cases menu with
  | dueDateFilter =>
      simp only [handleSubmenu, handleDueDateFilterSubmenu] at h
      split at h
      case h_10 =>
        split at h
        · exact Option.some.inj h ▸ .inr (.inl rfl)
        · cases h
      case h_11 => cases h
      all_goals exact Option.some.inj h ▸ .inl ⟨rfl, rfl⟩
  | sort =>
      simp only [handleSubmenu, handleSortSubmenu] at h
      split at h
      case h_11 => cases h
      all_goals exact Option.some.inj h ▸ .inl ⟨rfl, rfl⟩
  | linkedCards =>
      obtain ⟨cardId, -, h⟩ := Option.bind_eq_some_iff.mp h
      obtain ⟨card, -, h⟩ := Option.bind_eq_some_iff.mp h
      dsimp only at h
      split at h
      case h_5 => exact Option.some.inj h ▸ .inl ⟨rfl, rfl⟩
      case h_6 => cases h
      all_goals exact Option.some.inj h ▸ .inr (.inl rfl)
  | tagFilterMode =>
      simp only [handleSubmenu, handleTagFilterModeSubmenu] at h
      split at h
      case h_5 => cases h
      all_goals exact Option.some.inj h ▸ quiet_of_and rfl rfl

theorem quiet_submenuKey (content : Content) (menu : SubMenu) (key : String) :
    Quiet screen (screen.submenuKey content menu key) := by
  unfold submenuKey
  iterate 2
    split
    · exact quiet_of_view rfl
  split
  · rename_i after h
    exact (quiet_handleSubmenu h).congr rfl
  · exact quiet_of_view rfl

theorem quiet_handleKeydown (content : Content) (event : KeyboardEvent) (discard : Bool) :
    Quiet screen (screen.handleKeydown content event discard) := by
  unfold handleKeydown
  dsimp only
  split
  · iterate 2
      split
      · exact quiet_of_view rfl
    exact quiet_handleEscape discard
  · split
    · split <;> exact quiet_of_view rfl
    · split
      · exact quiet_submenuKey content _ event.key
      · split
        · exact quiet_trySelect
        · iterate 2
            split
            · exact quiet_of_view rfl
          iterate 2
            split
            · split
              · exact quiet_of_view rfl
              · exact quiet_getD fun after h => quiet_switchToPane h
          iterate 2
            split
            · exact quiet_of_view rfl
          cases Shortcut.ofKey event.key with
          | none => exact quiet_of_view rfl
          | some shortcut => exact quiet_shortcut _ discard shortcut

theorem quiet_step {event : ScreenEvent} (htraverse : ¬ Traverses event) (hslip : ¬ screen.Slips event) :
    Quiet screen (screen.step event) := by
  cases event with
  | key content event discard => exact quiet_handleKeydown content event discard
  | filter action => exact quiet_filterAction hslip
  | select target discard => exact quiet_getD fun after h => quiet_setSelection (quiet_of_view rfl) h
  | close discard =>
      apply quiet_getD
      intro after h
      obtain ⟨selected, hselected, rfl⟩ := Option.map_eq_some_iff.mp h
      exact (quiet_setSelection (quiet_of_view rfl) hselected).congr rfl
  | startNewCard position discard => exact quiet_getD fun after h => quiet_startNewCard h
  | startNewTag discard => exact quiet_getD fun after h => quiet_startNewTag h
  | openEditor => exact quiet_openEditor
  | closeEditor discard =>
      apply quiet_getD
      intro after h
      unfold closeEditor at h
      refine quiet_of_ite ?_ h
      exact quiet_of_view rfl
  | cancelNewCard discard =>
      simp only [step]
      split <;> exact quiet_of_view rfl
  | cancelNewTag discard =>
      simp only [step]
      split <;> exact quiet_of_view rfl
  | cardCreated id stay =>
      have hselected : Quiet screen (screen.step (.tagCreated id)) := quiet_of_view rfl
      simp only [step]
      split
      · exact hselected.congr view_openEditor
      · exact hselected.congr rfl
  | tagDeleted id discard =>
      simp only [step, tagDeleted]
      generalize hnext : screen.setFilters _ = next
      have hquiet : Quiet screen next := hnext ▸ .inl ⟨rfl, rfl⟩
      cases hselected : next.setSelection none discard with
      | none => exact hquiet
      | some after => exact quiet_setSelection hquiet hselected
  | clearAll discard => exact quiet_getD fun after h => quiet_clearAllState h
  | switchToPane openSettings openShortcuts discard => exact quiet_getD fun after h => quiet_switchToPane h
  | back => exact absurd trivial htraverse
  | forward => exact absurd trivial htraverse
  | _ => exact quiet_of_view rfl

theorem not_allowed_of_slips {event : ScreenEvent} (h : screen.Slips event) :
    ¬ (screen.step event).view.NoTagsAllowed := by
  cases event with
  | filter action =>
      cases action with
      | toggleNoTags =>
          obtain ⟨hnoTags, hmode⟩ := h
          intro hallowed
          rcases hmode with hmode | hmode
          · simp [step, filterAction, toggleNoTagsRow, setFilters, syncQueryParams, ViewSignals.NoTagsAllowed,
              hnoTags, hmode, TagFilterMode.allowsNoTags] at hallowed
          · simp [step, filterAction, toggleNoTagsRow, setFilters, syncQueryParams, ViewSignals.NoTagsAllowed,
              hnoTags, hmode, TagFilterMode.allowsNoTags] at hallowed
      | _ => exact absurd h id
  | _ => exact absurd h id

/-! ### Runs -/

theorem refused_buildQueryString_iff {view : ViewSignals} :
    Refused view.buildQueryString ↔ ¬ view.NoTagsAllowed := by
  have hrestored := ViewSignals.restoreFromQueryParams_buildQueryString view view
  have hnoTags : parseNoTagsFromParams (FormUrlEncoded.parse view.buildQueryString) = view.filters.noTags :=
    congrArg (fun view => view.filters.noTags) hrestored
  have hmode : parseTagModeFromParams (FormUrlEncoded.parse view.buildQueryString) = view.filters.tagFilterMode :=
    congrArg (fun view => view.filters.tagFilterMode) hrestored
  rw [Refused, hnoTags, hmode, ViewSignals.NoTagsAllowed, Classical.not_imp, Bool.not_eq_true]

theorem noTagsAllowed_restore {view : ViewSignals} {query : Bytes} (h : ¬ Refused query) :
    (view.restoreFromQueryParams query).NoTagsAllowed := by
  intro hnoTags
  by_contra hmode
  exact h ⟨hnoTags, Bool.eq_false_iff.mpr hmode⟩

structure Allowed (screen : Screen) : Prop where
  view : screen.view.NoTagsAllowed
  entries : ∀ entry ∈ screen.history.entries, ¬ Refused entry

theorem mem_entries_step {event : ScreenEvent} (htraverse : ¬ Traverses event) {entry : Bytes}
    (h : entry ∈ (screen.step event).history.entries) :
    entry ∈ screen.history.entries ∨ entry = (screen.step event).view.buildQueryString := by
  by_cases hdrift : screen.Drifts event
  · cases event with
    | tagDeleted id discard =>
        rw [step, tagDeleted_of_declined hdrift.2] at h
        exact .inl h
    | _ => exact absurd hdrift id
  · rcases follows_step htraverse hdrift with hvisit | ⟨hkept, -⟩
    · rw [hvisit] at h
      exact Visits.mem_entries_visit h
    · rw [hkept] at h
      exact .inl h

theorem Allowed.step {event : ScreenEvent} (h : screen.Allowed) (hslip : ¬ screen.Slips event) :
    (screen.step event).Allowed := by
  by_cases htraverse : Traverses event
  · cases event with
    | back =>
        have hentries : ∀ entry ∈ screen.history.goBack.entries, ¬ Refused entry := by
          rw [Visits.entries_goBack]
          exact h.entries
        exact ⟨noTagsAllowed_restore (hentries _ Visits.current_mem_entries), hentries⟩
    | forward =>
        have hentries : ∀ entry ∈ screen.history.goForward.entries, ¬ Refused entry := by
          rw [Visits.entries_goForward]
          exact h.entries
        exact ⟨noTagsAllowed_restore (hentries _ Visits.current_mem_entries), hentries⟩
    | _ => exact absurd htraverse id
  · have hview := (quiet_step htraverse hslip).noTagsAllowed h.view
    refine ⟨hview, fun entry hentry => ?_⟩
    rcases mem_entries_step htraverse hentry with hbefore | rfl
    · exact h.entries entry hbefore
    · exact fun hrefused => refused_buildQueryString_iff.mp hrefused hview

theorem allowed_new {searchTags : Bool} {settings : ScreenSettings} {narrow : Bool} {query : Bytes}
    (h : ¬ Refused query) : (new searchTags settings narrow query).Allowed := by
  have hview : (new searchTags settings narrow query).view.NoTagsAllowed := by
    rw [← show _ = (new searchTags settings narrow query).view from described_new h]
    exact noTagsAllowed_restore h
  refine ⟨hview, fun entry hentry => ?_⟩
  rw [List.mem_singleton.mp (show entry ∈ [query] from hentry)]
  exact h

/-- In every run from an address the application does not put right, "no tags" is on in OR mode alone, unless
the row of the sidebar is clicked in NOR or NAND mode. -/
theorem noTagsAllowed_run_iff (searchTags : Bool) (settings : ScreenSettings) (narrow : Bool) (query : Bytes)
    (hquery : ¬ Refused query) (events : List ScreenEvent) :
    (∀ past future, events = past ++ future →
        (Run.after Screen.step (new searchTags settings narrow query) past).view.NoTagsAllowed) ↔
      Run.Meets Screen.step (fun screen event => ¬ screen.Slips event) (new searchTags settings narrow query)
        events := by
  have hgood (screen : Screen) (h : screen.Allowed) : screen.view.NoTagsAllowed := h.view
  have hkeeps (screen : Screen) (event : ScreenEvent) (h : screen.Allowed) (hslip : ¬ screen.Slips event) :
      (screen.step event).Allowed := h.step hslip
  exact Run.forall_prefix_iff hgood hkeeps (fun _ _ _ hslip => not_allowed_of_slips hslip) (allowed_new hquery)

theorem noTagsAllowed_run_iff_sample :
    (∀ past future, [ScreenEvent.filter .cycleMode, .filter .toggleNoTags] = past ++ future →
        (Run.after Screen.step (new false sampleSettings false sampleQuery) past).view.NoTagsAllowed) ↔
      Run.Meets Screen.step (fun screen event => ¬ screen.Slips event) (new false sampleSettings false sampleQuery)
        [.filter .cycleMode, .filter .toggleNoTags] :=
  noTagsAllowed_run_iff false sampleSettings false sampleQuery (by decide) _

end Screen

end BlazeList
