import BlazeList.Client.Settings

/-!
# What is stored of the settings

Each operation of the app on its storage, by what the loaders find there afterwards and by what is there outside
the settings.
-/

namespace BlazeList

namespace Setting

variable {s t : Setting} {storage changed : LocalStorage} {value : SettingValue} {key : String}

theorem mem_all (s : Setting) : s ∈ all := by cases s <;> decide

theorem nodup_configKey : (all.map configKey).Nodup := by decide +kernel

@[simp]
theorem storageKey_inj : s.storageKey = t.storageKey ↔ s = t := by
  constructor
  · intro heq
    have hname : s.configKey = t.configKey := String.append_right_inj blazelistKeyPrefix |>.mp heq
    exact List.inj_on_of_nodup_map nodup_configKey (mem_all s) (mem_all t) hname
  · exact congrArg storageKey

theorem mem_allSettingKeys : key ∈ allSettingKeys ↔ ∃ s : Setting, s.storageKey = key := by
  simp [allSettingKeys, mem_all]

theorem isKnownKey_storageKey : isKnownKey s.storageKey = true := by
  simp only [isKnownKey, Bool.or_eq_true, List.contains_eq_mem, decide_eq_true_eq]
  exact Or.inl (mem_allSettingKeys.mpr ⟨s, rfl⟩)

/-! ### What is stored -/

/-- What the storage has for a setting, where the loader accepts it. -/
def stored (s : Setting) (storage : LocalStorage) : Option SettingValue :=
  match s.kind with
  | .bool _ => (loadBool storage s.storageKey).map .bool
  | .u32 _ _ => (loadU32 storage s.storageKey).map .u32
  | .enum isValid _ _ => ((loadString storage s.storageKey).filter isValid).map .text

def Fits (s : Setting) (value : SettingValue) : Prop :=
  match s.kind, value with
  | .bool _, .bool _ => True
  | .u32 _ _, .u32 _ => True
  | .enum isValid _ _, .text text => isValid text
  | _, _ => False

theorem has_eq : s.has storage = (s.stored storage).isSome := by
  unfold has stored
  cases s.kind with
  | bool default => exact Option.isSome_map.symm
  | u32 default clamp => exact Option.isSome_map.symm
  | enum isValid default options =>
      rw [Option.isSome_map]
      change (loadString storage s.storageKey).any isValid = _
      cases loadString storage s.storageKey with
      | none => rfl
      | some text => cases hvalid : isValid text <;> simp [Option.filter, hvalid]

theorem fst_load : (s.load storage).1 = (s.stored storage).getD s.default := by
  unfold load stored default
  cases s.kind with
  | bool default => cases loadBool storage s.storageKey <;> rfl
  | u32 default clamp => cases loadU32 storage s.storageKey <;> rfl
  | enum isValid default options =>
      change SettingValue.text (loadEnumString storage s.storageKey isValid default).1 = _
      unfold loadEnumString
      cases loadString storage s.storageKey with
      | none => rfl
      | some text => cases hvalid : isValid text <;> simp [Option.filter, hvalid]

theorem snd_load :
    (s.load storage).2 = storage ∨
      (s.load storage).2 = storage.removeItem s.storageKey ∧ s.stored storage = none := by
  unfold load stored
  cases s.kind with
  | bool default => exact Or.inl rfl
  | u32 default clamp => exact Or.inl rfl
  | enum isValid default options =>
      change (loadEnumString storage s.storageKey isValid default).2 = storage ∨
        (loadEnumString storage s.storageKey isValid default).2 = _ ∧ _
      unfold loadEnumString
      cases loadString storage s.storageKey with
      | none => exact Or.inl rfl
      | some text =>
          cases hvalid : isValid text with
          | false => exact Or.inr ⟨by simp [hvalid], by simp [Option.filter, hvalid]⟩
          | true => exact Or.inl (by simp [hvalid])

theorem stored_congr (h : changed.getItem s.storageKey = storage.getItem s.storageKey) :
    s.stored changed = s.stored storage := by
  simp only [stored, loadBool, loadU32, loadString, h]

theorem stored_eq_none (h : storage.getItem s.storageKey = none) : s.stored storage = none := by
  unfold stored loadBool loadU32 loadString
  rw [h]
  cases s.kind <;> rfl

theorem getItem_save_of_ne (hsome : storage.isSome) (hne : s.storageKey ≠ key) :
    (s.save storage value).getItem key = storage.getItem key := by
  cases value <;> exact (LocalStorage.getItem_setItem hsome).trans (if_neg hne)

@[simp]
theorem isSome_save : (s.save storage value).isSome = storage.isSome := by
  cases value <;> exact LocalStorage.isSome_setItem

theorem stored_save (hsome : storage.isSome) (hfits : s.Fits value) :
    s.stored (s.save storage value) = some value := by
  unfold Fits at hfits
  unfold stored
  cases hkind : s.kind with
  | bool default =>
      cases value with
      | bool enabled =>
          change ((LocalStorage.getItem (storage.setItem _ _) _).map _).map _ = _
          rw [LocalStorage.getItem_setItem hsome, if_pos rfl]
          cases enabled <;> rfl
      | u32 n => simp [hkind] at hfits
      | text text => simp [hkind] at hfits
  | u32 default clamp =>
      cases value with
      | bool enabled => simp [hkind] at hfits
      | u32 n =>
          change ((LocalStorage.getItem (storage.setItem _ _) _).bind _).map _ = _
          rw [LocalStorage.getItem_setItem hsome, if_pos rfl, Option.bind_some, parseU32_toString, Option.map_some]
      | text text => simp [hkind] at hfits
  | enum isValid default options =>
      cases value with
      | bool enabled => simp [hkind] at hfits
      | u32 n => simp [hkind] at hfits
      | text text =>
          have hvalid : isValid text = true := by simpa [hkind] using hfits
          change ((LocalStorage.getItem (storage.setItem _ _) _).filter _).map _ = _
          rw [LocalStorage.getItem_setItem hsome, if_pos rfl, Option.filter_some_pos hvalid, Option.map_some]

theorem fits_of_stored (h : s.stored storage = some value) : s.Fits value := by
  unfold stored at h
  unfold Fits
  cases hkind : s.kind with
  | bool default =>
      simp only [hkind, Option.map_eq_some_iff] at h
      obtain ⟨enabled, -, rfl⟩ := h
      trivial
  | u32 default clamp =>
      simp only [hkind, Option.map_eq_some_iff] at h
      obtain ⟨n, -, rfl⟩ := h
      trivial
  | enum isValid default options =>
      simp only [hkind, Option.map_eq_some_iff, Option.filter_eq_some_iff] at h
      obtain ⟨text, ⟨-, hvalid⟩, rfl⟩ := h
      exact hvalid

/-- Every default passes its own check. -/
theorem fits_default (s : Setting) : s.Fits s.default := by
  cases s <;> trivial

theorem fits_overridden {width : UInt32} (h : s.overridden = some t) : t.Fits (.u32 width) := by
  cases s <;> simp only [overridden, reduceCtorEq, Option.some.injEq] at h
  all_goals
    subst h
    trivial

/-- Every option of the panel passes the check of the loader. -/
theorem isValid_of_mem_options {isValid : String → Bool} {default input : String} {options : List String}
    (hkind : s.kind = .enum isValid default options) (hinput : input ∈ options) : isValid input = true := by
  cases s <;> simp only [kind, reduceCtorEq, SettingKind.enum.injEq] at hkind
  all_goals
    obtain ⟨rfl, -, rfl⟩ := hkind
    obtain rfl | rfl : input = _ ∨ input = _ := by simpa using hinput
    all_goals rfl

end Setting

def swept (contents : String → Option String) (key : String) : Option String :=
  if isAppKey key && !isKnownKey key then none else contents key

theorem getItem_runStartupMigrations (storage : LocalStorage) (key : String) :
    (runStartupMigrations storage).getItem key = swept storage.getItem key := by
  rw [runStartupMigrations, LocalStorage.getItem_foldl_removeItem]
  unfold swept
  by_cases hfound : storage.getItem key = none
  · simp [hfound]
  · have hkey : key ∈ storage.keys := LocalStorage.mem_keys_of_getItem hfound
    simp [keysToPrune, hkey]

structure SameStored (storage changed : LocalStorage) : Prop where
  isSome : changed.isSome = storage.isSome
  stored : ∀ s : Setting, s.stored changed = s.stored storage
  others : ∀ key ∉ allSettingKeys, changed.getItem key = storage.getItem key

namespace SameStored

variable {storage changed further : LocalStorage}

theorem refl : SameStored storage storage := ⟨rfl, fun _ => rfl, fun _ _ => rfl⟩

theorem trans (h : SameStored storage changed) (h' : SameStored changed further) : SameStored storage further :=
  ⟨h'.isSome.trans h.isSome, fun s => (h'.stored s).trans (h.stored s),
    fun key hkey => (h'.others key hkey).trans (h.others key hkey)⟩

/-- Taking out a text that the loader does not accept changes nothing. -/
theorem load (s : Setting) (storage : LocalStorage) : SameStored storage (s.load storage).2 := by
  obtain heq | ⟨heq, hnone⟩ := @Setting.snd_load s storage
  · rw [heq]
    exact refl
  · rw [heq]
    refine ⟨LocalStorage.isSome_removeItem, fun t => ?_, fun key hkey => ?_⟩
    · by_cases hts : t = s
      · subst hts
        rw [hnone]
        exact Setting.stored_eq_none (LocalStorage.getItem_removeItem.trans (if_pos rfl))
      · refine Setting.stored_congr (LocalStorage.getItem_removeItem.trans (if_neg ?_))
        rw [Setting.storageKey_inj]
        exact Ne.symm hts
    · refine LocalStorage.getItem_removeItem.trans (if_neg ?_)
      rintro rfl
      exact hkey (Setting.mem_allSettingKeys.mpr ⟨s, rfl⟩)

end SameStored

theorem stored_runStartupMigrations (s : Setting) (storage : LocalStorage) :
    s.stored (runStartupMigrations storage) = s.stored storage := by
  refine Setting.stored_congr ((getItem_runStartupMigrations storage _).trans ?_)
  simp [swept, Setting.isKnownKey_storageKey]

theorem getItem_clearAllSettings (storage : LocalStorage) (key : String) :
    (clearAllSettings storage).getItem key = if key ∈ allSettingKeys then none else storage.getItem key :=
  LocalStorage.getItem_foldl_removeItem

theorem stored_clearAllSettings (s : Setting) (storage : LocalStorage) :
    s.stored (clearAllSettings storage) = none :=
  Setting.stored_eq_none ((getItem_clearAllSettings storage _).trans
    (if_pos (Setting.mem_allSettingKeys.mpr ⟨s, rfl⟩)))

namespace SettingsApp

variable {app : SettingsApp} {settings : List Setting} {config : JsonObject}

theorem foldl_read :
    SameStored app.storage (settings.foldl read app).storage ∧
      ∀ s, (settings.foldl read app).shown s =
        if s ∈ settings then (s.stored app.storage).getD s.default else app.shown s := by
  induction settings generalizing app with
  | nil => exact ⟨SameStored.refl, fun s => rfl⟩
  | cons head rest ih =>
      have hload : SameStored app.storage (app.read head).storage := SameStored.load head app.storage
      obtain ⟨hrest, hshown⟩ := @ih (app.read head)
      refine ⟨hload.trans hrest, fun s => ?_⟩
      rw [List.foldl_cons, hshown, hload.stored]
      by_cases hmem : s ∈ rest
      · simp [hmem]
      · by_cases hhead : s = head
        · subst hhead
          simp [hmem, read, Setting.fst_load]
        · simp [hmem, hhead, read]

theorem storage_start (storage : LocalStorage) :
    SameStored (runStartupMigrations storage) (start storage).storage :=
  (@foldl_read ⟨runStartupMigrations storage, Setting.default⟩ Setting.all).1

/-- What the app starts with is what is stored, else the default. -/
theorem shown_start (storage : LocalStorage) (s : Setting) :
    (start storage).shown s = (s.stored storage).getD s.default := by
  refine ((@foldl_read ⟨runStartupMigrations storage, Setting.default⟩ Setting.all).2 s).trans ?_
  rw [if_pos s.mem_all, stored_runStartupMigrations]

theorem getItem_start (storage : LocalStorage) {key : String} (hkey : key ∉ allSettingKeys) :
    (start storage).storage.getItem key = swept storage.getItem key :=
  ((storage_start storage).others key hkey).trans (getItem_runStartupMigrations storage key)

theorem isSome_start (storage : LocalStorage) : (start storage).storage.isSome = storage.isSome :=
  (storage_start storage).isSome.trans LocalStorage.isSome_foldl_removeItem

theorem foldl_offer :
    (settings.foldl (offer config) app).storage = app.storage ∧
      ∀ s, (settings.foldl (offer config) app).shown s =
        if s ∈ settings ∧ s.has app.storage = false then (s.fromConfig config).getD (app.shown s)
        else app.shown s := by
  induction settings generalizing app with
  | nil => exact ⟨rfl, fun s => by simp⟩
  | cons head rest ih =>
      have hstorage : (offer config app head).storage = app.storage := by
        unfold offer
        split
        · rfl
        · split <;> rfl
      have hshown : ∀ s, (offer config app head).shown s =
          if s = head ∧ s.has app.storage = false then (s.fromConfig config).getD (app.shown s)
          else app.shown s := by
        intro s
        unfold offer
        by_cases hs : s = head
        · subst hs
          cases s.has app.storage <;> cases s.fromConfig config <;> simp
        · cases head.has app.storage <;> cases head.fromConfig config <;> simp [hs]
      obtain ⟨hrest, hshownRest⟩ := @ih (offer config app head)
      refine ⟨hrest.trans hstorage, fun s => ?_⟩
      rw [List.foldl_cons, hshownRest, hshown, hstorage]
      by_cases hhas : s.has app.storage = false
      · by_cases hmem : s ∈ rest
        · obtain rfl | hs := eq_or_ne s head
          · cases s.fromConfig config <;> simp [hmem, hhas]
          · simp [hmem, hs]
        · obtain rfl | hs := eq_or_ne s head <;> simp [*]
      · simp [hhas]

theorem storage_applyServerConfig : (app.applyServerConfig config).storage = app.storage :=
  (@foldl_offer app Setting.all config).1

theorem shown_applyServerConfig (s : Setting) :
    (app.applyServerConfig config).shown s =
      if s.has app.storage = false then (s.fromConfig config).getD (app.shown s) else app.shown s := by
  rw [applyServerConfig, (@foldl_offer app Setting.all config).2 s]
  simp only [Setting.mem_all, true_and]

theorem fits_of_picked {s : Setting} {shown value : SettingValue} {input : String}
    (h : picked s shown input = some value) : s.Fits value := by
  unfold picked at h
  unfold Setting.Fits
  cases hkind : s.kind with
  | bool default =>
      rw [hkind] at h
      cases shown with
      | bool enabled =>
          obtain rfl := Option.some.inj h
          trivial
      | u32 n => exact absurd h (by simp)
      | text text => exact absurd h (by simp)
  | u32 default clamp =>
      rw [hkind] at h
      obtain ⟨n, -, rfl⟩ := Option.map_eq_some_iff.mp h
      trivial
  | enum isValid default options =>
      rw [hkind] at h
      simp only [Option.ite_none_right_eq_some, Bool.and_eq_true, List.contains_eq_mem, decide_eq_true_eq] at h
      obtain ⟨⟨hoption, -⟩, hvalue⟩ := h
      obtain rfl := Option.some.inj hvalue
      exact Setting.isValid_of_mem_options hkind hoption

end SettingsApp

end BlazeList
