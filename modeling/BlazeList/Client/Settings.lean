import BlazeList.Client.LocalStorage

/-!
# The settings of a device

The settings stay on the device, in the local storage. The app reads them when it starts, shows what it has read,
and writes what the user changes in the panel. The server may offer other defaults; they come in at some time
after the start, and apply to what the user has not chosen.
-/

namespace BlazeList

def blazelistKeyPrefix : String := "blazelist_"

inductive Setting where
  | showPreview
  | autoSync
  | autoSyncIntervalMs
  | priorityDebounceEnabled
  | priorityDebounceDelayMs
  | keyboardShortcuts
  | searchTags
  | uiScale
  | uiDensity
  | touchSwipe
  | swipeThresholdRightCycle
  | swipeThresholdRightLevels
  | swipeThresholdLeftCycle
  | swipeThresholdLeftLevels
  | swipeUndoTimeoutMs
  | swipeLeftMode
  | swipeLevelsZoneTodayWidth
  | swipeLevelsZoneTomorrowWidth
  | swipeLevelsZoneSoonWidth
  | clearTagSearch
  | defaultSidebarWidth
  | defaultDetailWidth
  | overrideSidebarWidth
  | overrideDetailWidth
  | showDueTodayButton
  | recursiveLinks
  | showListLinkCounts
  | showCardTime
  | extinguishOnDueSet
  | extinguishOnDueClear
  | clearDueOnBlaze
  | dragAndDropEnabled
  | dragAndDropMode
  deriving DecidableEq

inductive SettingValue where
  | bool (enabled : Bool)
  | u32 (n : UInt32)
  | text (text : String)
  deriving DecidableEq

/-- How a setting is stored, with its default. A number has what the panel makes of an entered number, a name has
the check of the loader and what the panel offers to choose from. -/
inductive SettingKind where
  | bool (default : Bool)
  | u32 (default : UInt32) (clamp : UInt32 → UInt32)
  | enum (isValid : String → Bool) (default : String) (options : List String)

def isValidSwipeLeftMode (text : String) : Bool := text == "levels" || text == "cycle"

def isValidDragAndDropMode (text : String) : Bool := text == "anywhere" || text == "handle"

def isValidUiDensity (text : String) : Bool := text == "compact" || text == "cozy"

def clampU32 (low high n : UInt32) : UInt32 := if n < low then low else if high < n then high else n

namespace Setting

/-- All settings, in the order in which their keys are cleared. -/
def all : List Setting :=
  [.showPreview, .autoSync, .autoSyncIntervalMs, .priorityDebounceEnabled, .priorityDebounceDelayMs,
    .keyboardShortcuts, .searchTags, .uiScale, .uiDensity, .touchSwipe, .swipeThresholdRightCycle,
    .swipeThresholdRightLevels, .swipeThresholdLeftCycle, .swipeThresholdLeftLevels, .swipeUndoTimeoutMs,
    .swipeLeftMode, .swipeLevelsZoneTodayWidth, .swipeLevelsZoneTomorrowWidth, .swipeLevelsZoneSoonWidth,
    .clearTagSearch, .defaultSidebarWidth, .defaultDetailWidth, .overrideSidebarWidth, .overrideDetailWidth,
    .showDueTodayButton, .recursiveLinks, .showListLinkCounts, .showCardTime, .extinguishOnDueSet,
    .extinguishOnDueClear, .clearDueOnBlaze, .dragAndDropEnabled, .dragAndDropMode]

def configKey : Setting → String
  | .showPreview => "show_preview"
  | .autoSync => "auto_sync"
  | .autoSyncIntervalMs => "auto_sync_interval_ms"
  | .priorityDebounceEnabled => "priority_debounce_enabled"
  | .priorityDebounceDelayMs => "priority_debounce_delay_ms"
  | .keyboardShortcuts => "keyboard_shortcuts"
  | .searchTags => "search_tags"
  | .uiScale => "ui_scale"
  | .uiDensity => "ui_density"
  | .touchSwipe => "touch_swipe"
  | .swipeThresholdRightCycle => "swipe_threshold_right_cycle"
  | .swipeThresholdRightLevels => "swipe_threshold_right_levels"
  | .swipeThresholdLeftCycle => "swipe_threshold_left_cycle"
  | .swipeThresholdLeftLevels => "swipe_threshold_left_levels"
  | .swipeUndoTimeoutMs => "swipe_undo_timeout_ms"
  | .swipeLeftMode => "swipe_left_mode"
  | .swipeLevelsZoneTodayWidth => "swipe_levels_zone_today_width"
  | .swipeLevelsZoneTomorrowWidth => "swipe_levels_zone_tomorrow_width"
  | .swipeLevelsZoneSoonWidth => "swipe_levels_zone_soon_width"
  | .clearTagSearch => "clear_tag_search"
  | .defaultSidebarWidth => "default_sidebar_width"
  | .defaultDetailWidth => "default_detail_width"
  | .overrideSidebarWidth => "override_sidebar_width"
  | .overrideDetailWidth => "override_detail_width"
  | .showDueTodayButton => "show_due_today_button"
  | .recursiveLinks => "recursive_links"
  | .showListLinkCounts => "show_list_link_counts"
  | .showCardTime => "show_card_time"
  | .extinguishOnDueSet => "extinguish_on_due_set"
  | .extinguishOnDueClear => "extinguish_on_due_clear"
  | .clearDueOnBlaze => "clear_due_on_blaze"
  | .dragAndDropEnabled => "drag_and_drop_enabled"
  | .dragAndDropMode => "drag_and_drop_mode"

def storageKey (s : Setting) : String := blazelistKeyPrefix ++ s.configKey

def kind : Setting → SettingKind
  | .showPreview => .bool false
  | .autoSync => .bool true
  | .autoSyncIntervalMs => .u32 10000 (clampU32 5000 300000)
  | .priorityDebounceEnabled => .bool true
  | .priorityDebounceDelayMs => .u32 3000 (clampU32 100 30000)
  | .keyboardShortcuts => .bool true
  | .searchTags => .bool true
  | .uiScale => .u32 100 (clampU32 50 300)
  | .uiDensity => .enum isValidUiDensity "compact" ["compact", "cozy"]
  | .touchSwipe => .bool false
  | .swipeThresholdRightCycle => .u32 135 (clampU32 40 150)
  | .swipeThresholdRightLevels => .u32 135 (clampU32 40 150)
  | .swipeThresholdLeftCycle => .u32 115 (clampU32 40 150)
  | .swipeThresholdLeftLevels => .u32 95 (clampU32 40 150)
  | .swipeUndoTimeoutMs => .u32 4000 (clampU32 500 30000)
  | .swipeLeftMode => .enum isValidSwipeLeftMode "levels" ["levels", "cycle"]
  | .swipeLevelsZoneTodayWidth => .u32 75 (clampU32 20 400)
  | .swipeLevelsZoneTomorrowWidth => .u32 60 (clampU32 20 400)
  | .swipeLevelsZoneSoonWidth => .u32 55 (clampU32 20 400)
  | .clearTagSearch => .bool true
  | .defaultSidebarWidth => .u32 180 (clampU32 80 400)
  | .defaultDetailWidth => .u32 0 fun n => if n = 0 then 0 else clampU32 280 1200 n
  | .overrideSidebarWidth => .bool false
  | .overrideDetailWidth => .bool false
  | .showDueTodayButton => .bool true
  | .recursiveLinks => .bool true
  | .showListLinkCounts => .bool true
  | .showCardTime => .bool false
  | .extinguishOnDueSet => .bool true
  | .extinguishOnDueClear => .bool true
  | .clearDueOnBlaze => .bool true
  | .dragAndDropEnabled => .bool false
  | .dragAndDropMode => .enum isValidDragAndDropMode "anywhere" ["anywhere", "handle"]

def default (s : Setting) : SettingValue :=
  match s.kind with
  | .bool default => .bool default
  | .u32 default _ => .u32 default
  | .enum _ default _ => .text default

/-- The width that is filled in when the user overrides it for the first time. -/
def overridden : Setting → Option Setting
  | .overrideSidebarWidth => some .defaultSidebarWidth
  | .overrideDetailWidth => some .defaultDetailWidth
  | _ => none

/-! ### Loading and saving -/

def has (s : Setting) (storage : LocalStorage) : Bool :=
  match s.kind with
  | .bool _ => (loadBool storage s.storageKey).isSome
  | .u32 _ _ => (loadU32 storage s.storageKey).isSome
  | .enum isValid _ _ => hasValidEnumString storage s.storageKey isValid

def load (s : Setting) (storage : LocalStorage) : SettingValue × LocalStorage :=
  match s.kind with
  | .bool default => (.bool ((loadBool storage s.storageKey).getD default), storage)
  | .u32 default _ => (.u32 ((loadU32 storage s.storageKey).getD default), storage)
  | .enum isValid default _ =>
      let loaded := loadEnumString storage s.storageKey isValid default
      (.text loaded.1, loaded.2)

def save (s : Setting) (storage : LocalStorage) : SettingValue → LocalStorage
  | .bool enabled => saveBool storage s.storageKey enabled
  | .u32 n => saveU32 storage s.storageKey n
  | .text text => saveString storage s.storageKey text

end Setting

def allSettingKeys : List String := Setting.all.map Setting.storageKey

def storageKeyCacheSchema : String := blazelistKeyPrefix ++ "cache_schema"

def nonSettingKeys : List String := [storageKeyCacheSchema]

def isKnownKey (key : String) : Bool := allSettingKeys.contains key || nonSettingKeys.contains key

def isAppKey (key : String) : Bool := blazelistKeyPrefix.toList.isPrefixOf key.toList

def keysToPrune (present : List String) : List String :=
  present.filter fun key => isAppKey key && !isKnownKey key

def runStartupMigrations (storage : LocalStorage) : LocalStorage :=
  (keysToPrune storage.keys).foldl LocalStorage.removeItem storage

def clearAllSettings (storage : LocalStorage) : LocalStorage :=
  allSettingKeys.foldl LocalStorage.removeItem storage

def saveCacheSchema (storage : LocalStorage) (stamp : String) : LocalStorage :=
  saveString storage storageKeyCacheSchema stamp

/-! ### The configuration of the server -/

/-- A value of the configuration. A number is what it gives as one of 32 bits. -/
inductive JsonValue where
  | bool (enabled : Bool)
  | number (n : UInt32)
  | string (text : String)
  | other
  deriving DecidableEq

abbrev JsonObject := String → Option JsonValue

def getBool (config : JsonObject) (key : String) : Option Bool :=
  match config key with
  | some (.bool enabled) => some enabled
  | _ => none

def getU32 (config : JsonObject) (key : String) : Option UInt32 :=
  match config key with
  | some (.number n) => some n
  | _ => none

def getString (config : JsonObject) (key : String) : Option String :=
  match config key with
  | some (.string text) => some text
  | _ => none

/-- What the configuration offers for a setting. Of the names only the drag and drop mode is checked. -/
def Setting.fromConfig (s : Setting) (config : JsonObject) : Option SettingValue :=
  match s.kind with
  | .bool _ => (getBool config s.configKey).map .bool
  | .u32 _ _ => (getU32 config s.configKey).map .u32
  | .enum isValid _ _ =>
      ((getString config s.configKey).filter fun text => s != .dragAndDropMode || isValid text).map .text

/-! ### The app -/

structure SettingsApp where
  storage : LocalStorage
  shown : Setting → SettingValue

namespace SettingsApp

def set (app : SettingsApp) (s : Setting) (value : SettingValue) : SettingsApp :=
  ⟨s.save app.storage value, Function.update app.shown s value⟩

def read (app : SettingsApp) (s : Setting) : SettingsApp :=
  ⟨(s.load app.storage).2, Function.update app.shown s (s.load app.storage).1⟩

/-- The app sweeps the storage, and reads every setting. -/
def start (storage : LocalStorage) : SettingsApp :=
  Setting.all.foldl read ⟨runStartupMigrations storage, Setting.default⟩

def offer (config : JsonObject) (app : SettingsApp) (s : Setting) : SettingsApp :=
  if s.has app.storage then app
  else match s.fromConfig config with
    | some value => { app with shown := Function.update app.shown s value }
    | none => app

def applyServerConfig (app : SettingsApp) (config : JsonObject) : SettingsApp :=
  Setting.all.foldl (offer config) app

/-- What a control of the panel makes of an input: it toggles a flag, and takes a number or an option. -/
def picked (s : Setting) (shown : SettingValue) (input : String) : Option SettingValue :=
  match s.kind, shown with
  | .bool _, .bool enabled => some (.bool !enabled)
  | .u32 _ clamp, _ => (parseU32 input).map fun n => .u32 (clamp n)
  | .enum isValid _ options, _ =>
      if options.contains input && (s != .dragAndDropMode || isValid input) then some (.text input) else none
  | .bool _, _ => none

/-- The user changes a setting. The width is what the pane of an overridden width has at that time. -/
def change (app : SettingsApp) (s : Setting) (input : String) (width : UInt32) : SettingsApp :=
  match picked s (app.shown s) input with
  | none => app
  | some value =>
      match s.overridden with
      | none => app.set s value
      | some pane =>
          if value = .bool true ∧ pane.has (app.set s value).storage = false then
            (app.set s value).set pane (.u32 width)
          else app.set s value

end SettingsApp

inductive SettingsAction where
  | reload
  | fetchConfig (config : Option JsonObject)
  | change (s : Setting) (input : String) (width : UInt32)
  | reset
  | saveCacheSchema (stamp : String)
  | otherApp (key : String) (value : Option String)

namespace SettingsApp

/-- Another app of the origin keeps to keys that are not those of this app. -/
def step (app : SettingsApp) : SettingsAction → SettingsApp
  | .reload => start app.storage
  | .fetchConfig none => app
  | .fetchConfig (some config) => app.applyServerConfig config
  | .change s input width => app.change s input width
  | .reset => start (clearAllSettings app.storage)
  | .saveCacheSchema stamp => { app with storage := BlazeList.saveCacheSchema app.storage stamp }
  | .otherApp key value =>
      if isAppKey key then app
      else match value with
        | some text => { app with storage := app.storage.setItem key text }
        | none => { app with storage := app.storage.removeItem key }

end SettingsApp

end BlazeList
