import BlazeList.Lib.Run
import BlazeList.Lib.Overlay
import BlazeList.Client.StoredSettings

/-!
# Preferences

What the settings are for: a setting has the value that the user has chosen, else the one that the server offers,
else its default. The app has no more than texts, in a storage that it shares with other apps, and every run of it
is a run of this.
-/

namespace BlazeList

/-- What the user has chosen, what the server offers since the last start, and what the storage has outside the
settings. -/
structure Preferences where
  chosen : Setting → Option SettingValue
  offered : Setting → Option SettingValue
  others : String → Option String

namespace Preferences

def shown (p : Preferences) (s : Setting) : SettingValue :=
  ((p.chosen s).or (p.offered s)).getD s.default

def choose (p : Preferences) (s : Setting) (value : SettingValue) : Preferences :=
  { p with chosen := Function.update p.chosen s (some value) }

def initial (items : List (String × String)) : Preferences where
  chosen := fun s => s.stored (some items)
  offered := fun _ => none
  others := swept (LocalStorage.getItem (some items))

def restart (p : Preferences) : Preferences :=
  { p with
    offered := fun _ => none
    others := swept p.others }

/-- A width that the user has not chosen is chosen with the switch that overrides it. -/
def change (p : Preferences) (s : Setting) (input : String) (width : UInt32) : Preferences :=
  match SettingsApp.picked s (p.shown s) input with
  | none => p
  | some value =>
      match s.overridden with
      | none => p.choose s value
      | some pane =>
          if value = .bool true ∧ (p.choose s value).chosen pane = none then
            (p.choose s value).choose pane (.u32 width)
          else p.choose s value

def step (p : Preferences) : SettingsAction → Preferences
  | .reload => p.restart
  | .fetchConfig none => p
  | .fetchConfig (some config) => { p with offered := fun s => (s.fromConfig config).or (p.offered s) }
  | .change s input width => p.change s input width
  | .reset => restart { p with chosen := fun _ => none }
  | .saveCacheSchema stamp => { p with others := Function.update p.others storageKeyCacheSchema (some stamp) }
  | .otherApp key value => if isAppKey key then p else { p with others := Function.update p.others key value }

end Preferences

/-! ### Refinement -/

/-- The app shows and stores what the preferences say. -/
structure Refines (app : SettingsApp) (p : Preferences) : Prop where
  isSome : app.storage.isSome
  shown : ∀ s, app.shown s = p.shown s
  chosen : ∀ s, s.stored app.storage = p.chosen s
  others : ∀ key ∉ allSettingKeys, app.storage.getItem key = p.others key

theorem isAppKey_storageKey (s : Setting) : isAppKey s.storageKey = true := by
  simp [isAppKey, Setting.storageKey, List.isPrefixOf_iff_prefix]

theorem storageKeyCacheSchema_not_mem : storageKeyCacheSchema ∉ allSettingKeys := by decide +kernel

namespace Refines

variable {app : SettingsApp} {p : Preferences} {s : Setting} {value : SettingValue} {storage : LocalStorage}

theorem start (hsome : storage.isSome) (hchosen : ∀ s, s.stored storage = p.chosen s)
    (hothers : ∀ key ∉ allSettingKeys, storage.getItem key = p.others key) :
    Refines (SettingsApp.start storage) p.restart where
  isSome := (SettingsApp.isSome_start storage).trans hsome
  shown := fun s => by
    rw [SettingsApp.shown_start, hchosen]
    exact congrArg (Option.getD · s.default) Option.or_none.symm
  chosen := fun s => by
    rw [(SettingsApp.storage_start storage).stored, stored_runStartupMigrations, hchosen]
    rfl
  others := fun key hkey => by
    rw [SettingsApp.getItem_start storage hkey]
    change swept storage.getItem key = swept p.others key
    rw [swept, swept, hothers key hkey]

theorem initial (items : List (String × String)) :
    Refines (SettingsApp.start (some items)) (Preferences.initial items) := by
  have hstart : Refines (SettingsApp.start (some items))
      (Preferences.restart
        ⟨fun s => s.stored (some items), fun _ => none, LocalStorage.getItem (some items)⟩) :=
    start rfl (fun _ => rfl) fun _ _ => rfl
  exact hstart

theorem set (h : Refines app p) (hfits : s.Fits value) : Refines (app.set s value) (p.choose s value) where
  isSome := Setting.isSome_save.trans h.isSome
  shown := fun t => by
    have hother := h.shown t
    by_cases hts : t = s
    · subst hts
      simp [SettingsApp.set, Preferences.choose, Preferences.shown]
    · rw [Preferences.shown] at hother
      simpa [SettingsApp.set, Preferences.choose, Preferences.shown, hts] using hother
  chosen := fun t => by
    by_cases hts : t = s
    · subst hts
      change _ = Function.update p.chosen t (some value) t
      rw [Function.update_self]
      exact Setting.stored_save h.isSome hfits
    · have hsave : t.stored (s.save app.storage value) = t.stored app.storage := by
        refine Setting.stored_congr (Setting.getItem_save_of_ne h.isSome ?_)
        rw [Ne, Setting.storageKey_inj]
        exact Ne.symm hts
      change _ = Function.update p.chosen s (some value) t
      rw [Function.update_of_ne hts, ← h.chosen t]
      exact hsave
  others := fun key hkey => by
    have hne : s.storageKey ≠ key := fun heq => hkey (Setting.mem_allSettingKeys.mpr ⟨s, heq⟩)
    exact (Setting.getItem_save_of_ne h.isSome hne).trans (h.others key hkey)

theorem has_eq (h : Refines app p) (s : Setting) : s.has app.storage = (p.chosen s).isSome := by
  rw [Setting.has_eq, h.chosen]

theorem change (h : Refines app p) (s : Setting) (input : String) (width : UInt32) :
    Refines (app.change s input width) (p.change s input width) := by
  unfold SettingsApp.change Preferences.change
  rw [h.shown]
  cases hpicked : SettingsApp.picked s (p.shown s) input with
  | none => exact h
  | some value =>
      have hset : Refines (app.set s value) (p.choose s value) := h.set (SettingsApp.fits_of_picked hpicked)
      cases hpane : s.overridden with
      | none => exact hset
      | some pane =>
          have hunset : pane.has (app.set s value).storage = false ↔ (p.choose s value).chosen pane = none := by
            rw [hset.has_eq, Option.isSome_eq_false_iff, Option.isNone_iff_eq_none]
          simp only [hunset]
          split
          · exact hset.set (Setting.fits_overridden hpane)
          · exact hset

theorem applyServerConfig (h : Refines app p) (config : JsonObject) :
    Refines (app.applyServerConfig config)
      { p with offered := fun s => (s.fromConfig config).or (p.offered s) } := by
  have hstorage := @SettingsApp.storage_applyServerConfig app config
  have hshown := @SettingsApp.shown_applyServerConfig app config
  generalize app.applyServerConfig config = served at hstorage hshown ⊢
  refine ⟨hstorage ▸ h.isSome, fun s => ?_, fun s => hstorage ▸ h.chosen s,
    fun key hkey => hstorage ▸ h.others key hkey⟩
  rw [hshown, h.has_eq, h.shown]
  unfold Preferences.shown
  cases p.chosen s with
  | none => cases hoffer : s.fromConfig config <;> simp [hoffer]
  | some value => simp

/-- What is written outside the settings changes none of them. -/
theorem write (h : Refines app p) {key : String} (hkey : key ∉ allSettingKeys) {content : Option String}
    (hsome : storage.isSome)
    (hitem : ∀ other, storage.getItem other = if key = other then content else app.storage.getItem other) :
    Refines { app with storage := storage } { p with others := Function.update p.others key content } where
  isSome := hsome
  shown := h.shown
  chosen := fun s => by
    refine (Setting.stored_congr ((hitem s.storageKey).trans (if_neg ?_))).trans (h.chosen s)
    rintro rfl
    exact hkey (Setting.mem_allSettingKeys.mpr ⟨s, rfl⟩)
  others := fun other hother => by
    change storage.getItem other = Function.update p.others key content other
    rw [hitem]
    by_cases heq : key = other
    · subst heq
      rw [if_pos rfl, Function.update_self]
    · rw [if_neg heq, h.others other hother, Function.update_of_ne (Ne.symm heq)]

theorem step (h : Refines app p) (action : SettingsAction) : Refines (app.step action) (p.step action) := by
  cases action with
  | reload => exact start h.isSome h.chosen h.others
  | fetchConfig config =>
      cases config with
      | none => exact h
      | some config => exact h.applyServerConfig config
  | change s input width => exact h.change s input width
  | reset =>
      refine start ?_ (fun s => stored_clearAllSettings s app.storage) fun key hkey => ?_
      · exact LocalStorage.isSome_foldl_removeItem.trans h.isSome
      · exact (getItem_clearAllSettings app.storage key).trans ((if_neg hkey).trans (h.others key hkey))
  | saveCacheSchema stamp =>
      exact h.write storageKeyCacheSchema_not_mem (LocalStorage.isSome_setItem.trans h.isSome)
        fun other => LocalStorage.getItem_setItem h.isSome
  | otherApp key value =>
      by_cases hforeign : isAppKey key = true
      · simpa only [SettingsApp.step, Preferences.step, if_pos hforeign] using h
      · have hkey : key ∉ allSettingKeys := by
          intro hmem
          obtain ⟨s, rfl⟩ := Setting.mem_allSettingKeys.mp hmem
          exact hforeign (isAppKey_storageKey s)
        simp only [SettingsApp.step, Preferences.step, if_neg hforeign]
        cases value with
        | none =>
            exact h.write hkey (LocalStorage.isSome_removeItem.trans h.isSome) fun other =>
              LocalStorage.getItem_removeItem
        | some text =>
            exact h.write hkey (LocalStorage.isSome_setItem.trans h.isSome) fun other =>
              LocalStorage.getItem_setItem h.isSome

theorem run (h : Refines app p) (actions : List SettingsAction) :
    Refines (Run.after SettingsApp.step app actions) (Run.after Preferences.step p actions) := by
  induction actions generalizing app p with
  | nil => exact h
  | cons action rest ih => exact ih (h.step action)

end Refines

/-- Whatever texts the app finds, after every run it shows what the user has chosen, else what the server offers,
else the default, and it stores what the user has chosen. -/
theorem settings_run (items : List (String × String)) (actions : List SettingsAction) :
    Refines (Run.after SettingsApp.step (SettingsApp.start (some items)) actions)
      (Run.after Preferences.step (Preferences.initial items) actions) :=
  (Refines.initial items).run actions

/-! ### The shared storage -/

/-- What an action is to leave outside the settings: the mark of the cache, and what other apps write. -/
def SettingsAction.outside : SettingsAction → List (String × Option String)
  | .saveCacheSchema stamp => [(storageKeyCacheSchema, some stamp)]
  | .otherApp key value => if isAppKey key then [] else [(key, value)]
  | .reload | .fetchConfig _ | .change _ _ _ | .reset => []

theorem swept_swept (contents : String → Option String) : swept (swept contents) = swept contents := by
  funext key
  unfold swept
  split <;> rfl

theorem swept_update (contents : String → Option String) {key : String} (content : Option String)
    (hkept : (isAppKey key && !isKnownKey key) = false) :
    swept (Function.update contents key content) = Function.update (swept contents) key content := by
  funext other
  by_cases hother : other = key
  · subst hother
    simp [swept, hkept]
  · simp [swept, hother]

theorem Preferences.others_change (p : Preferences) (s : Setting) (input : String) (width : UInt32) :
    (p.change s input width).others = p.others := by
  unfold change
  split
  · rfl
  · split
    · rfl
    · split <;> rfl

theorem Preferences.others_step {p : Preferences} {contents : String → Option String}
    (h : p.others = swept contents) (action : SettingsAction) :
    (p.step action).others = swept (Overlay.applyAll contents action.outside) := by
  cases action with
  | reload => exact (congrArg swept h).trans (swept_swept contents)
  | fetchConfig config => cases config <;> exact h
  | change s input width => exact (p.others_change s input width).trans h
  | reset => exact (congrArg swept h).trans (swept_swept contents)
  | saveCacheSchema stamp =>
      have hkept : (isAppKey storageKeyCacheSchema && !isKnownKey storageKeyCacheSchema) = false := by decide +kernel
      exact (congrArg (Function.update · _ _) h).trans (swept_update contents (some stamp) hkept).symm
  | otherApp key value =>
      by_cases hforeign : isAppKey key = true
      · simpa only [Preferences.step, SettingsAction.outside, if_pos hforeign, Overlay.applyAll_nil] using h
      · simp only [Preferences.step, SettingsAction.outside, if_neg hforeign]
        have hkept : (isAppKey key && !isKnownKey key) = false := by simp [hforeign]
        exact (congrArg (Function.update · _ _) h).trans (swept_update contents value hkept).symm

/-- Outside the settings the storage has, after every run, what was found there, overwritten by the other apps and
by the mark of the cache, and no key of the app that it does not know. -/
theorem sharedStorage_run (items : List (String × String)) (actions : List SettingsAction) {key : String}
    (hkey : key ∉ allSettingKeys) :
    (Run.after SettingsApp.step (SettingsApp.start (some items)) actions).storage.getItem key =
      swept (Overlay.applyAll (LocalStorage.getItem (some items)) (actions.flatMap SettingsAction.outside)) key := by
  have hothers : ∀ (p : Preferences) (contents : String → Option String), p.others = swept contents →
      (Run.after Preferences.step p actions).others =
        swept (Overlay.applyAll contents (actions.flatMap SettingsAction.outside)) := by
    induction actions with
    | nil => exact fun p contents h => h
    | cons action rest ih =>
        intro p contents h
        rw [List.flatMap_cons, Overlay.applyAll_append]
        exact ih (p.step action) _ (Preferences.others_step h action)
  have hrefines : Refines (Run.after SettingsApp.step (SettingsApp.start (some items)) actions)
      (Run.after Preferences.step (Preferences.initial items) actions) :=
    Refines.run (Refines.initial items) actions
  rw [hrefines.others key hkey, hothers (Preferences.initial items) _ rfl]

theorem sharedStorage_run_theme :
    "theme" ∉ allSettingKeys ∧
      (Run.after SettingsApp.step (SettingsApp.start (some [("theme", "light"), ("blazelist_ui_scale", "120")]))
        [.otherApp "theme" (some "dark"), .change .uiScale "110" 0, .reset]).storage.getItem "theme" =
          some "dark" := by
  have hkey : "theme" ∉ allSettingKeys := by decide +kernel
  refine ⟨hkey, (sharedStorage_run _ _ hkey).trans ?_⟩
  decide +kernel

/-! ### Names that the loaders accept -/

/-- The server offers a name that the loader would not accept, for a setting that the user has not chosen. -/
def SettingsApp.Misoffers (app : SettingsApp) : SettingsAction → Prop
  | .fetchConfig (some config) =>
      (∃ text, getString config "ui_density" = some text ∧ isValidUiDensity text = false ∧
        Setting.uiDensity.has app.storage = false) ∨
      ∃ text, getString config "swipe_left_mode" = some text ∧ isValidSwipeLeftMode text = false ∧
        Setting.swipeLeftMode.has app.storage = false
  | _ => False

namespace SettingsApp

variable {app : SettingsApp} {config : JsonObject}

def ShowsAccepted (app : SettingsApp) : Prop := ∀ s : Setting, s.Fits (app.shown s)

theorem showsAccepted_start (storage : LocalStorage) : (start storage).ShowsAccepted := by
  intro s
  rw [shown_start]
  cases hstored : s.stored storage with
  | none => exact s.fits_default
  | some value => exact Setting.fits_of_stored hstored

theorem ShowsAccepted.set (h : app.ShowsAccepted) {t : Setting} {value : SettingValue} (hvalue : t.Fits value) :
    (app.set t value).ShowsAccepted := by
  intro s
  by_cases hst : s = t
  · subst hst
    simpa [SettingsApp.set] using hvalue
  · simpa [SettingsApp.set, hst] using h s

theorem ShowsAccepted.change (h : app.ShowsAccepted) (s : Setting) (input : String) (width : UInt32) :
    (app.change s input width).ShowsAccepted := by
  unfold SettingsApp.change
  cases hpicked : picked s (app.shown s) input with
  | none => exact h
  | some value =>
      have hset := h.set (fits_of_picked hpicked)
      cases hpane : s.overridden with
      | none => exact hset
      | some pane =>
          simp only
          split
          · exact hset.set (Setting.fits_overridden hpane)
          · exact hset

theorem fits_of_fromConfig {s : Setting} {value : SettingValue} (h : s.fromConfig config = some value)
    (hdensity : s ≠ .uiDensity) (hmode : s ≠ .swipeLeftMode) : s.Fits value := by
  unfold Setting.fromConfig at h
  unfold Setting.Fits
  cases hkind : s.kind with
  | bool default =>
      rw [hkind] at h
      obtain ⟨enabled, -, rfl⟩ := Option.map_eq_some_iff.mp h
      trivial
  | u32 default clamp =>
      rw [hkind] at h
      obtain ⟨n, -, rfl⟩ := Option.map_eq_some_iff.mp h
      trivial
  | enum isValid default options =>
      rw [hkind] at h
      have hdrag : s = .dragAndDropMode := by cases s <;> simp_all [Setting.kind]
      subst hdrag
      obtain ⟨text, htext, rfl⟩ := Option.map_eq_some_iff.mp h
      exact (Option.filter_eq_some_iff.mp htext).2

theorem fromConfig_uiDensity :
    Setting.uiDensity.fromConfig config = (getString config "ui_density").map .text := by
  change ((getString config "ui_density").filter fun _ => true).map SettingValue.text = _
  cases getString config "ui_density" <;> rfl

theorem fromConfig_swipeLeftMode :
    Setting.swipeLeftMode.fromConfig config = (getString config "swipe_left_mode").map .text := by
  change ((getString config "swipe_left_mode").filter fun _ => true).map SettingValue.text = _
  cases getString config "swipe_left_mode" <;> rfl

theorem accepts_applyServerConfig_iff (h : app.ShowsAccepted) :
    (app.applyServerConfig config).ShowsAccepted ↔ ¬ app.Misoffers (.fetchConfig (some config)) := by
  have hshown := @shown_applyServerConfig app config
  generalize app.applyServerConfig config = served at hshown ⊢
  constructor
  · rintro hall (⟨text, htext, hinvalid, hhas⟩ | ⟨text, htext, hinvalid, hhas⟩)
    · have hfits := hall .uiDensity
      rw [hshown, if_pos hhas, fromConfig_uiDensity, htext] at hfits
      exact absurd (hinvalid.symm.trans hfits) (by decide)
    · have hfits := hall .swipeLeftMode
      rw [hshown, if_pos hhas, fromConfig_swipeLeftMode, htext] at hfits
      exact absurd (hinvalid.symm.trans hfits) (by decide)
  · intro hnot s
    rw [hshown]
    split
    · rename_i hhas
      cases hoffer : s.fromConfig config with
      | none => exact h s
      | some value =>
          by_cases hdensity : s = .uiDensity
          · subst hdensity
            rw [fromConfig_uiDensity] at hoffer
            obtain ⟨text, htext, rfl⟩ := Option.map_eq_some_iff.mp hoffer
            exact eq_true_of_ne_false fun hinvalid => hnot (Or.inl ⟨text, htext, hinvalid, hhas⟩)
          · by_cases hmode : s = .swipeLeftMode
            · subst hmode
              rw [fromConfig_swipeLeftMode] at hoffer
              obtain ⟨text, htext, rfl⟩ := Option.map_eq_some_iff.mp hoffer
              exact eq_true_of_ne_false fun hinvalid => hnot (Or.inr ⟨text, htext, hinvalid, hhas⟩)
            · exact fits_of_fromConfig hoffer hdensity hmode
    · exact h s

theorem ShowsAccepted.step (h : app.ShowsAccepted) {action : SettingsAction} (hnot : ¬ app.Misoffers action) :
    (app.step action).ShowsAccepted := by
  cases action with
  | reload => exact showsAccepted_start app.storage
  | fetchConfig config =>
      cases config with
      | none => exact h
      | some config =>
          have hstep : app.step (.fetchConfig (some config)) = app.applyServerConfig config := rfl
          rw [hstep]
          exact (accepts_applyServerConfig_iff h).mpr hnot
  | change s input width => exact h.change s input width
  | reset => exact showsAccepted_start (clearAllSettings app.storage)
  | saveCacheSchema stamp => exact h
  | otherApp key value =>
      by_cases hforeign : isAppKey key = true
      · simpa only [SettingsApp.step, if_pos hforeign] using h
      · simp only [SettingsApp.step, if_neg hforeign]
        cases value <;> exact h

end SettingsApp

/-- In every state of a run the values shown are ones that the loaders accept, exactly if the server offers
nothing else where the user has chosen nothing. -/
theorem shownAccepted_iff (storage : LocalStorage) (actions : List SettingsAction) :
    (∀ past future, actions = past ++ future →
      (Run.after SettingsApp.step (SettingsApp.start storage) past).ShowsAccepted) ↔
      Run.Meets SettingsApp.step (fun app action => ¬ app.Misoffers action) (SettingsApp.start storage) actions := by
  refine Run.forall_prefix_iff (fun _ h => h) (fun _ _ h hnot => h.step hnot) ?_
    (SettingsApp.showsAccepted_start storage)
  intro app action h hbad hall
  cases action with
  | fetchConfig config =>
      cases config with
      | none => exact hbad
      | some config => exact (SettingsApp.accepts_applyServerConfig_iff h).mp hall hbad
  | reload => exact hbad
  | change s input width => exact hbad
  | reset => exact hbad
  | saveCacheSchema stamp => exact hbad
  | otherApp key value => exact hbad

end BlazeList
