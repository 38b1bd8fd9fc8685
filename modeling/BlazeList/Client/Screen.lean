import BlazeList.Client.LinkCache
import BlazeList.Client.NewCard
import BlazeList.Client.QueryParams
import BlazeList.Client.TagDetail
import BlazeList.Lib.Visits

/-!
# The screen

What is selected, which pane and which sub-menu are open, what the filters are, and the entries of the
browser's history. The handlers of clicks and keys, and of going back and forward, are its steps.
-/

namespace BlazeList

open FormUrlEncoded (Bytes)

inductive SubMenu where
  | dueDateFilter
  | sort
  | linkedCards
  | tagFilterMode
  deriving DecidableEq

structure ScreenSettings where
  keyboardShortcutsEnabled : Bool
  showDueTodayButton : Bool
  recursiveLinks : Bool

structure Screen where
  view : ViewSignals
  history : Visits Bytes
  settings : ScreenSettings
  editing : Bool
  creatingNew : Bool
  creatingNewTag : Bool
  newCardPosition : NewCardPosition
  hasUnsavedChanges : Bool
  settingsOpen : Bool
  shortcutsOpen : Bool
  subMenu : Option SubMenu
  saveRequested : Bool
  detailExpanded : Bool
  sidebarVisible : Bool

namespace Screen

/-! ### The start -/

/-- `AppState::new`: an address that combines "no tags" with another mode than OR is put right. -/
def initialView (searchTags : Bool) (query : Bytes) : ViewSignals :=
  let params : UrlSearchParams := FormUrlEncoded.parse query
  let refused := parseNoTagsFromParams params && !(parseTagModeFromParams params).allowsNoTags
  { filters :=
      { linkedCards := parseLinkedCardsFromParams params
        blaze := parseFilterFromParams params
        searchQuery := ""
        tagFilter := if refused then [] else parseTagsFromParams params
        tagFilterMode := if refused then .or else parseTagModeFromParams params
        noTags := parseNoTagsFromParams params
        searchTags
        dueDate := parseDueDateFilterFromParams params
        includeOverdue := params.get "f.inc_overdue" = some "1" }
    sortOrder := parseSortFromParams params
    selectedCard := parseSelectedCardFromParams params }

/-- The viewport is narrow, so that the detail panel fills the screen and the sidebar is hidden. -/
def new (searchTags : Bool) (settings : ScreenSettings) (narrow : Bool) (query : Bytes) : Screen where
  view := initialView searchTags query
  history := .start query
  settings
  editing := false
  creatingNew := false
  creatingNewTag := false
  newCardPosition := .bottom
  hasUnsavedChanges := false
  settingsOpen := false
  shortcutsOpen := false
  subMenu := none
  saveRequested := false
  detailExpanded := narrow
  sidebarVisible := !narrow

/-! ### The address -/

/-- A new entry only where the address changes. -/
def syncQueryParams (screen : Screen) : Screen :=
  { screen with history := screen.history.visit screen.view.buildQueryString }

def restoreFromQueryParams (screen : Screen) : Screen :=
  { screen with
    view := screen.view.restoreFromQueryParams screen.history.current
    creatingNew := false
    creatingNewTag := false
    editing := false
    settingsOpen := false }

/-! ### Selecting and editing -/

/-- The answer to the prompt counts where there is something to lose. -/
def confirmDiscardChanges (screen : Screen) (discard : Bool) : Bool := !screen.hasUnsavedChanges || discard

def select (screen : Screen) (target : Option Uuid) : Screen :=
  { screen with view := { screen.view with selectedCard := target } }

/-- There is no result where the prompt is declined. -/
def setSelection (screen : Screen) (target : Option Uuid) (discard : Bool) : Option Screen :=
  if screen.confirmDiscardChanges discard then
    some (syncQueryParams { screen.select target with
      editing := false
      creatingNew := false
      creatingNewTag := false
      settingsOpen := false
      shortcutsOpen := false })
  else
    none

def startNewCard (screen : Screen) (position : NewCardPosition) (discard : Bool) : Option Screen :=
  if screen.confirmDiscardChanges discard then
    some (syncQueryParams { screen.select none with
      newCardPosition := position
      creatingNew := true
      editing := false
      creatingNewTag := false
      settingsOpen := false
      shortcutsOpen := false })
  else
    none

def startNewTag (screen : Screen) (discard : Bool) : Option Screen :=
  if screen.confirmDiscardChanges discard then
    some (syncQueryParams { screen.select none with
      creatingNewTag := true
      creatingNew := false
      editing := false
      settingsOpen := false
      shortcutsOpen := false })
  else
    none

def openEditor (screen : Screen) : Screen :=
  if screen.view.selectedCard.isNone then screen else { screen with editing := true }

def closeEditor (screen : Screen) (discard : Bool) : Option Screen :=
  if screen.confirmDiscardChanges discard then
    some { screen with editing := false, hasUnsavedChanges := false }
  else
    none

def finishCreationFlow (screen : Screen) : Screen := { screen with creatingNew := false, creatingNewTag := false }

def switchToPane (screen : Screen) (openSettings openShortcuts discard : Bool) : Option Screen :=
  (screen.setSelection none discard).map fun screen =>
    { screen with hasUnsavedChanges := false, settingsOpen := openSettings, shortcutsOpen := openShortcuts }

/-! ### Filters -/

def setFilters (screen : Screen) (change : Filters → Filters) : Screen :=
  { screen with view := { screen.view with filters := change screen.view.filters } }

def setSortOrder (screen : Screen) (order : SortOrder) : Screen :=
  { screen with view := { screen.view with sortOrder := order } }

def clearAllState (screen : Screen) (discard : Bool) : Option Screen :=
  if screen.confirmDiscardChanges discard then
    some (syncQueryParams
      { screen with
        view :=
          { filters := { screen.view.filters with
              blaze := .extinguished
              dueDate := .all
              includeOverdue := false
              tagFilter := []
              tagFilterMode := .or
              noTags := false
              searchQuery := ""
              linkedCards := [] }
            sortOrder := .priority
            selectedCard := none }
        creatingNew := false
        creatingNewTag := false
        editing := false
        hasUnsavedChanges := false
        settingsOpen := false
        shortcutsOpen := false })
  else
    none

def applyTodayQuickFilter (screen : Screen) : Screen :=
  syncQueryParams <| screen.setFilters fun filters => { filters with
    blaze := .extinguished
    dueDate := .today
    includeOverdue := true
    tagFilter := []
    tagFilterMode := .or
    noTags := false
    linkedCards := []
    searchQuery := "" }

/-- The mode of the tag filter stays. -/
def applyLinkedCardFilter (screen : Screen) (ids : List Uuid) : Screen :=
  syncQueryParams <| screen.setFilters fun filters => { filters with
    linkedCards := ids
    blaze := .all
    searchQuery := ""
    tagFilter := []
    noTags := false }

def resetFiltersAndSort (screen : Screen) : Screen :=
  (screen.setFilters fun filters => { filters with
    blaze := .extinguished
    dueDate := .all
    includeOverdue := false
    tagFilter := []
    tagFilterMode := .or
    noTags := false
    linkedCards := [] }).setSortOrder .priority

/-- A mode that does not allow it switches "no tags" off. -/
def setTagFilterMode (screen : Screen) (mode : TagFilterMode) : Screen :=
  syncQueryParams <| screen.setFilters fun filters => { filters with
    tagFilterMode := mode
    noTags := filters.noTags && mode.allowsNoTags }

def toggleIncludeOverdue (screen : Screen) : Screen :=
  syncQueryParams <| screen.setFilters fun filters => { filters with includeOverdue := !filters.includeOverdue }

end Screen

/-! ### The filter bar and the sidebar -/

inductive FilterAction where
  | setFilter (filter : CardFilter)
  | dueChange (value : String)
  | resetDue
  | dueToday
  | toggleOverdue
  | cycleMode
  | clearAllTags
  | removeNoTags
  | removeTag (id : Uuid)
  | clearLinks
  | removeLink (id : Uuid)
  | sortChange (value : String)
  | resetSort
  | search (text : String)
  | toggleTag (id : Uuid)
  | toggleNoTags
  | addTag (tags : List Tag) (id : Uuid)
  | filterLinked (ids : List Uuid)

namespace Screen

def toggleTagFilter (screen : Screen) (tagId : Uuid) : Screen :=
  syncQueryParams <| screen.setFilters fun filters => { filters with
    noTags := filters.noTags && filters.tagFilterMode.allowsNoTags
    tagFilter := if tagId ∈ filters.tagFilter then filters.tagFilter.filter (· ≠ tagId)
      else filters.tagFilter ++ [tagId] }

/-- The handler of the sidebar's "No tags" row: it looks for AND alone. -/
def toggleNoTagsRow (screen : Screen) : Screen :=
  syncQueryParams <| screen.setFilters fun filters =>
    let enabling := !filters.noTags
    if enabling ∧ filters.tagFilterMode = .and then
      { filters with noTags := enabling, tagFilter := [], tagFilterMode := .or }
    else
      { filters with noTags := enabling }

def filterAction (screen : Screen) : FilterAction → Screen
  | .setFilter filter => syncQueryParams <| screen.setFilters fun filters => { filters with blaze := filter }
  | .dueChange value =>
      let filter := DueDateFilter.fromUrlValue value
      syncQueryParams <| screen.setFilters fun filters => { filters with
        dueDate := filter
        includeOverdue := filters.includeOverdue && filter ≠ .all && filter ≠ .overdue }
  | .resetDue =>
      syncQueryParams <| screen.setFilters fun filters => { filters with dueDate := .all, includeOverdue := false }
  | .dueToday => screen.applyTodayQuickFilter
  | .toggleOverdue => screen.toggleIncludeOverdue
  | .cycleMode => screen.setTagFilterMode screen.view.filters.tagFilterMode.next
  | .clearAllTags =>
      syncQueryParams <| screen.setFilters fun filters => { filters with tagFilter := [], noTags := false }
  | .removeNoTags => syncQueryParams <| screen.setFilters fun filters => { filters with noTags := false }
  | .removeTag id =>
      syncQueryParams <| screen.setFilters fun filters =>
        { filters with tagFilter := filters.tagFilter.filter (· ≠ id) }
  | .clearLinks => syncQueryParams <| screen.setFilters fun filters => { filters with linkedCards := [] }
  | .removeLink id =>
      syncQueryParams <| screen.setFilters fun filters =>
        { filters with linkedCards := filters.linkedCards.filter (· ≠ id) }
  | .sortChange value => syncQueryParams (screen.setSortOrder (SortOrder.fromUrlValue value))
  | .resetSort => syncQueryParams (screen.setSortOrder .priority)
  | .search text => screen.setFilters fun filters => { filters with searchQuery := text }
  | .toggleTag id => screen.toggleTagFilter id
  | .toggleNoTags => screen.toggleNoTagsRow
  | .addTag tags id =>
      syncQueryParams <| screen.setFilters fun filters => { filters with
        tagFilter := pushMissing filters.tagFilter ((TagGraph.fromTags tags).closureOf [id]).toList }
  | .filterLinked ids => screen.applyLinkedCardFilter ids

end Screen

/-! ### Keys -/

/-- Where the focus is: in one of the two search inputs, in another input, or in none. -/
inductive Focus where
  | search
  | tagSearch
  | input
  | page
  deriving DecidableEq

structure KeyboardEvent where
  key : String
  ctrl : Bool
  alt : Bool
  metaKey : Bool
  focus : Focus

/-- What a handler reads: the cards, those the list shows in their order, and the link cache. -/
structure Content where
  cards : List Card
  filtered : List Card
  linkGraphCache : LinkGraphCache

namespace Screen

/-- A key that the menu does not know has no result. -/
def handleDueDateFilterSubmenu (screen : Screen) (key : String) : Option Screen :=
  let choose (filter : DueDateFilter) : Option Screen :=
    some (syncQueryParams (screen.setFilters fun filters => { filters with dueDate := filter }))
  match key with
  | "a" => choose .all
  | "o" => choose .overdue
  | "t" => choose .today
  | "u" => choose .todayAndUpcoming
  | "m" => choose .upcomingTomorrow
  | "T" => choose .todayAndTomorrow
  | "w" => choose .upcomingWeek
  | "2" => choose .upcomingTwoWeeks
  | "i" => some screen.toggleIncludeOverdue
  | "n" => if screen.settings.showDueTodayButton then some screen.applyTodayQuickFilter else none
  | _ => none

def handleTagFilterModeSubmenu (screen : Screen) (key : String) : Option Screen :=
  match key with
  | "o" => some (screen.setTagFilterMode .or)
  | "a" => some (screen.setTagFilterMode .and)
  | "n" => some (screen.setTagFilterMode .nor)
  | "N" => some (screen.setTagFilterMode .nand)
  | _ => none

def handleSortSubmenu (screen : Screen) (key : String) : Option Screen :=
  let choose (order : SortOrder) : Option Screen := some (syncQueryParams (screen.setSortOrder order))
  match key with
  | "p" => choose .priority
  | "P" => choose .priorityReverse
  | "m" => choose .modifiedAt
  | "M" => choose .modifiedAtReverse
  | "c" => choose .createdAt
  | "C" => choose .createdAtReverse
  | "t" => choose .title
  | "T" => choose .titleReverse
  | "d" => choose .dueDate
  | "D" => choose .dueDateReverse
  | _ => none

def handleLinkedCardsSubmenu (screen : Screen) (content : Content) (key : String) : Option Screen := do
  let cardId ← screen.view.selectedCard
  let card ← content.cards.find? fun card => card.id = cardId
  let forwardIds := extractCardLinks card.content cardId
  let backIds := extractBackLinks cardId content.cards
  let direct := forwardIds ++ backIds.filter (· ∉ forwardIds)
  match key with
  | "a" =>
      let expanded := ((content.linkGraphCache cardId).map Prod.snd).getD (expandLinkedCards cardId content.cards)
      let linked := if screen.settings.recursiveLinks then direct ++ expanded.filter (· ∉ direct) else direct
      some (screen.applyLinkedCardFilter (cardId :: linked))
  | "f" => some (screen.applyLinkedCardFilter (cardId :: forwardIds))
  | "b" => some (screen.applyLinkedCardFilter (cardId :: backIds))
  | "d" => some (screen.applyLinkedCardFilter (cardId :: direct))
  | "c" => some (syncQueryParams (screen.setFilters fun filters => { filters with linkedCards := [] }))
  | _ => none

def handleSubmenu (screen : Screen) (content : Content) (menu : SubMenu) (key : String) : Option Screen :=
  match menu with
  | .dueDateFilter => screen.handleDueDateFilterSubmenu key
  | .sort => screen.handleSortSubmenu key
  | .linkedCards => screen.handleLinkedCardsSubmenu content key
  | .tagFilterMode => screen.handleTagFilterModeSubmenu key

def hasFilters (screen : Screen) : Bool :=
  screen.view.filters.blaze ≠ .extinguished || screen.view.filters.dueDate ≠ .all ||
    screen.view.filters.includeOverdue || screen.view.filters.tagFilter ≠ [] || screen.view.filters.noTags ||
    screen.view.filters.linkedCards ≠ [] || !screen.view.sortOrder.isDefault

/-- One thing is closed at a time. The form of a new tag is not among them. -/
def handleEscape (screen : Screen) (discard : Bool) : Screen :=
  if screen.editing then
    ((screen.closeEditor discard).getD screen).syncQueryParams
  else if screen.creatingNew then
    if screen.confirmDiscardChanges discard then
      syncQueryParams { screen.finishCreationFlow with hasUnsavedChanges := false }
    else
      screen
  else if screen.settingsOpen then
    { screen with settingsOpen := false }
  else if screen.shortcutsOpen then
    { screen with shortcutsOpen := false }
  else if screen.view.selectedCard.isSome then
    (screen.setSelection none discard).getD screen
  else if screen.view.filters.searchQuery ≠ "" then
    syncQueryParams (screen.setFilters fun filters => { filters with searchQuery := "" })
  else if screen.hasFilters then
    screen.resetFiltersAndSort.syncQueryParams
  else
    screen

/-- The selection is kept at the end of the list. -/
def nextId (filtered : List Uuid) : Option Uuid → Option Uuid
  | none => filtered.head?
  | some id =>
      match filtered.idxOf? id with
      | some i => if h : i + 1 < filtered.length then some (filtered[i + 1]) else some id
      | none => filtered.head?

def prevId (filtered : List Uuid) : Option Uuid → Option Uuid
  | none => filtered.getLast?
  | some id =>
      match filtered.idxOf? id with
      | some 0 => some id
      | some (i + 1) => filtered[i]?
      | none => filtered.getLast?

def trySelect (screen : Screen) (target : Option Uuid) (discard : Bool) : Screen :=
  match target with
  | none => screen
  | some id => (screen.setSelection (some id) discard).getD screen

end Screen

/-- What the keys do outside the menus. Those that change a card, copy its id, move the focus or ask the
browser to go back leave the screen as it is. -/
inductive Shortcut where
  | nextCard
  | prevCard
  | firstCard
  | lastCard
  | newCard (position : NewCardPosition)
  | newBelow
  | newAbove
  | newTag
  | edit
  | setFilter (filter : CardFilter)
  | openMenu (menu : SubMenu)
  | openLinkedMenu
  | setExpanded (expanded : Bool)
  | toggleNoTags
  | toggleOverdue
  | toggleSidebar
  | reset
  | elsewhere

def Shortcut.ofKey : String → Option Shortcut
  | "j" => some .nextCard
  | "k" => some .prevCard
  | "g" => some .firstCard
  | "G" => some .lastCard
  | "n" => some (.newCard .bottom)
  | "N" => some (.newCard .top)
  | "o" => some .newBelow
  | "O" => some .newAbove
  | "Y" => some .newTag
  | "e" => some .edit
  | "B" => some .elsewhere
  | "y" => some .elsewhere
  | "a" => some (.setFilter .extinguished)
  | "A" => some (.setFilter .all)
  | "b" => some (.setFilter .blazed)
  | "d" => some (.openMenu .dueDateFilter)
  | "s" => some (.openMenu .sort)
  | "/" => some .elsewhere
  | "f" => some .elsewhere
  | "F" => some .elsewhere
  | "K" => some .elsewhere
  | "J" => some .elsewhere
  | "t" => some .elsewhere
  | "T" => some .elsewhere
  | "C" => some .elsewhere
  | "m" => some (.setExpanded false)
  | "M" => some (.setExpanded true)
  | "v" => some (.openMenu .tagFilterMode)
  | "V" => some .toggleNoTags
  | "i" => some .toggleOverdue
  | "l" => some .openLinkedMenu
  | "h" => some .elsewhere
  | "x" => some .toggleSidebar
  | "r" => some .reset
  | _ => none

namespace Screen

def shortcut (screen : Screen) (filtered : List Uuid) (discard : Bool) : Shortcut → Screen
  | .nextCard => screen.trySelect (nextId filtered screen.view.selectedCard) discard
  | .prevCard => screen.trySelect (prevId filtered screen.view.selectedCard) discard
  | .firstCard => screen.trySelect filtered.head? discard
  | .lastCard => screen.trySelect filtered.getLast? discard
  | .newCard position => (screen.startNewCard position discard).getD screen
  | .newBelow =>
      match screen.view.selectedCard with
      | some id => (screen.startNewCard (.below id) discard).getD screen
      | none => screen
  | .newAbove =>
      match screen.view.selectedCard with
      | some id => (screen.startNewCard (.above id) discard).getD screen
      | none => screen
  | .newTag => (screen.startNewTag discard).getD screen
  | .edit => screen.openEditor
  | .setFilter filter => syncQueryParams <| screen.setFilters fun filters => { filters with blaze := filter }
  | .openMenu menu => { screen with subMenu := some menu }
  | .openLinkedMenu => if screen.view.selectedCard.isSome then { screen with subMenu := some .linkedCards } else screen
  | .setExpanded expanded => { screen with detailExpanded := expanded }
  | .toggleNoTags =>
      syncQueryParams <| screen.setFilters fun filters =>
        if filters.noTags then { filters with noTags := false }
        else { filters with noTags := true, tagFilter := [], tagFilterMode := .or }
  | .toggleOverdue => screen.toggleIncludeOverdue
  | .toggleSidebar => { screen with sidebarVisible := !screen.sidebarVisible }
  | .reset =>
      syncQueryParams (screen.resetFiltersAndSort.setFilters fun filters => { filters with searchQuery := "" })
  | .elsewhere => screen

def closeSubmenu (screen : Screen) : Screen := { screen with subMenu := none }

def submenuKey (screen : Screen) (content : Content) (menu : SubMenu) (key : String) : Screen :=
  if key = "q" then
    screen.closeSubmenu
  else if key ∈ ["Shift", "Control", "Alt", "Meta", "CapsLock"] then
    screen
  else
    match screen.handleSubmenu content menu key with
    | some next => next.closeSubmenu
    | none => screen

def handleKeydown (screen : Screen) (content : Content) (event : KeyboardEvent) (discard : Bool) : Screen :=
  let filtered := content.filtered.map Card.id
  if event.key = "Escape" then
    if event.focus = .search ∨ event.focus = .tagSearch then screen
    else if screen.subMenu.isSome then screen.closeSubmenu
    else screen.handleEscape discard
  else if (event.ctrl ∨ event.metaKey) ∧ (event.key = "s" ∨ event.key = "S") then
    if screen.settings.keyboardShortcutsEnabled ∧ (screen.editing ∨ screen.creatingNew) then
      { screen with saveRequested := true }
    else
      screen
  else
    match screen.subMenu with
    | some menu => screen.submenuKey content menu event.key
    | none =>
        if event.key = "Enter" ∧ event.focus = .search then screen.trySelect filtered.head? discard
        else if event.focus ≠ .page then screen
        else if event.ctrl ∨ event.alt ∨ event.metaKey then screen
        else if event.key = "?" then
          if screen.shortcutsOpen then { screen with shortcutsOpen := false }
          else (screen.switchToPane false true discard).getD screen
        else if event.key = "," then
          if screen.settingsOpen then { screen with settingsOpen := false }
          else (screen.switchToPane true false discard).getD screen
        else if !screen.settings.keyboardShortcutsEnabled then screen
        else if screen.editing ∨ screen.creatingNew then screen
        else (Shortcut.ofKey event.key).elim screen (screen.shortcut filtered discard)

end Screen

/-! ### Steps -/

inductive ScreenEvent where
  | key (content : Content) (event : KeyboardEvent) (discard : Bool)
  | filter (action : FilterAction)
  | select (target : Option Uuid) (discard : Bool)
  | close (discard : Bool)
  | startNewCard (position : NewCardPosition) (discard : Bool)
  | startNewTag (discard : Bool)
  | openEditor
  | closeEditor (discard : Bool)
  | cancelNewCard (discard : Bool)
  | cancelNewTag (discard : Bool)
  | cardCreated (id : Uuid) (stay : Bool)
  | tagCreated (id : Uuid)
  | tagDeleted (id : Uuid) (discard : Bool)
  | dirty (unsaved : Bool)
  | clearAll (discard : Bool)
  | switchToPane (openSettings openShortcuts discard : Bool)
  | closePanes (settings shortcuts : Bool)
  | closeSubmenu
  | back
  | forward

namespace Screen

/-- A tag that is deleted goes out of the filter before the selection is cleared. -/
def tagDeleted (screen : Screen) (tagId : Uuid) (discard : Bool) : Screen :=
  let screen := screen.setFilters fun filters =>
    { filters with tagFilter := filters.tagFilter.filter (· ≠ tagId) }
  (screen.setSelection none discard).getD screen

def step (screen : Screen) : ScreenEvent → Screen
  | .key content event discard => screen.handleKeydown content event discard
  | .filter action => screen.filterAction action
  | .select target discard => (screen.setSelection target discard).getD screen
  | .close discard =>
      ((screen.setSelection none discard).map fun screen => { screen with hasUnsavedChanges := false }).getD screen
  | .startNewCard position discard => (screen.startNewCard position discard).getD screen
  | .startNewTag discard => (screen.startNewTag discard).getD screen
  | .openEditor => screen.openEditor
  | .closeEditor discard => (screen.closeEditor discard).getD screen
  | .cancelNewCard discard => if screen.confirmDiscardChanges discard then screen.finishCreationFlow else screen
  | .cancelNewTag discard =>
      if screen.confirmDiscardChanges discard then screen.finishCreationFlow.syncQueryParams else screen
  | .cardCreated id stay =>
      let screen := { screen with hasUnsavedChanges := false }
      let screen := (screen.setSelection (some id) false).getD screen
      if stay then screen.openEditor else screen.finishCreationFlow
  | .tagCreated id =>
      let screen := { screen with hasUnsavedChanges := false }
      (screen.setSelection (some id) false).getD screen
  | .tagDeleted id discard => screen.tagDeleted id discard
  | .dirty unsaved => { screen with hasUnsavedChanges := unsaved }
  | .clearAll discard => (screen.clearAllState discard).getD screen
  | .switchToPane openSettings openShortcuts discard =>
      (screen.switchToPane openSettings openShortcuts discard).getD screen
  | .closePanes settings shortcuts =>
      { screen with
        settingsOpen := screen.settingsOpen && !settings
        shortcutsOpen := screen.shortcutsOpen && !shortcuts }
  | .closeSubmenu => screen.closeSubmenu
  | .back => restoreFromQueryParams { screen with history := screen.history.goBack }
  | .forward => restoreFromQueryParams { screen with history := screen.history.goForward }

end Screen

end BlazeList
