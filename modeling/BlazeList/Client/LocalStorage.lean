import Mathlib.Data.List.Basic
import BlazeList.Lib.Keyed

/-!
# Local storage

A browser keeps texts with keys, for all apps of one origin together. It may have no such storage: then nothing
is found in it and nothing is written. The loaders read a flag, a number or one of a few names off a text.
-/

namespace BlazeList

abbrev LocalStorage := Option (List (String × String))

namespace LocalStorage

variable {storage : LocalStorage} {key other value : String} {gone : List String}

def getItem (storage : LocalStorage) (key : String) : Option String :=
  storage.bind fun items => (Keyed.lookup Prod.fst items key).map Prod.snd

def setItem (storage : LocalStorage) (key value : String) : LocalStorage :=
  storage.map fun items => Keyed.replace Prod.fst items (key, value)

def removeItem (storage : LocalStorage) (key : String) : LocalStorage :=
  storage.map fun items => items.filter fun item => item.1 ≠ key

def keys (storage : LocalStorage) : List String := (storage.getD []).map Prod.fst

@[simp]
theorem isSome_setItem : (storage.setItem key value).isSome = storage.isSome := Option.isSome_map

@[simp]
theorem isSome_removeItem : (storage.removeItem key).isSome = storage.isSome := Option.isSome_map

@[simp]
theorem isSome_foldl_removeItem : (gone.foldl removeItem storage).isSome = storage.isSome := by
  induction gone generalizing storage with
  | nil => rfl
  | cons key rest ih => rw [List.foldl_cons, ih, isSome_removeItem]

theorem getItem_setItem (hsome : storage.isSome) :
    (storage.setItem key value).getItem other = if key = other then some value else storage.getItem other := by
  obtain ⟨items, rfl⟩ := Option.isSome_iff_exists.mp hsome
  change (Keyed.lookup Prod.fst (Keyed.replace Prod.fst items (key, value)) other).map Prod.snd = _
  rw [Keyed.lookup_replace]
  split <;> rfl

theorem getItem_removeItem :
    (storage.removeItem key).getItem other = if key = other then none else storage.getItem other := by
  cases storage with
  | none => exact (ite_self none).symm
  | some items =>
      change ((items.filter fun item => item.1 ≠ key).find? fun item => item.1 = other).map Prod.snd =
        if key = other then none else (items.find? fun item => item.1 = other).map Prod.snd
      rw [List.find?_filter]
      by_cases hkey : key = other
      · subst hkey
        simp
      · rw [if_neg hkey]
        congr 2
        funext item
        by_cases hitem : item.1 = other
        · simp [hitem, Ne.symm hkey]
        · simp [hitem]

theorem getItem_foldl_removeItem :
    (gone.foldl removeItem storage).getItem other = if other ∈ gone then none else storage.getItem other := by
  induction gone generalizing storage with
  | nil => simp
  | cons key rest ih =>
      rw [List.foldl_cons, ih, getItem_removeItem]
      by_cases hkey : key = other
      · simp [hkey]
      · by_cases hrest : other ∈ rest <;> simp [hrest, hkey, Ne.symm hkey]

theorem mem_keys_of_getItem (h : storage.getItem key ≠ none) : key ∈ storage.keys := by
  cases storage with
  | none => exact absurd rfl h
  | some items =>
      have hlookup : Keyed.lookup Prod.fst items key ≠ none := by
        intro hnone
        exact h (congrArg (Option.map Prod.snd) hnone)
      rw [Ne, Keyed.lookup_eq_none_iff, not_not] at hlookup
      exact hlookup

end LocalStorage

/-! ### Numbers as text -/

/-- A number of 32 bits from its digits, which a plus sign may precede. -/
def parseU32 (text : String) : Option UInt32 :=
  let digits := match text.toList with
    | '+' :: rest => rest
    | chars => chars
  if digits ≠ [] ∧ digits.all Char.isDigit ∧ Nat.ofDigitChars 10 digits 0 < UInt32.size then
    some (UInt32.ofNat (Nat.ofDigitChars 10 digits 0))
  else none

theorem parseU32_toString (n : UInt32) : parseU32 (toString n) = some n := by
  have htext : (toString n).toList = Nat.toDigits 10 n.toNat := Nat.toList_repr
  have hdigit : ∀ c ∈ Nat.toDigits 10 n.toNat, c.isDigit := fun c =>
    Nat.isDigit_of_mem_toDigits (by decide) (by decide)
  have hsign : (match (toString n).toList with
      | '+' :: rest => rest
      | chars => chars) = Nat.toDigits 10 n.toNat := by
    rw [htext]
    split
    · rename_i rest heq
      have hplus : '+'.isDigit := hdigit '+' (heq ▸ List.mem_cons_self)
      exact absurd hplus (by decide)
    · rfl
  unfold parseU32
  simp only [hsign, Nat.ofDigitChars_ten_toDigits]
  rw [if_pos ⟨Nat.toDigits_ne_nil, List.all_eq_true.mpr hdigit, n.toNat_lt⟩]
  exact congrArg some UInt32.ofNat_toNat

/-! ### Loaders -/

section Loaders

open LocalStorage

def loadBool (storage : LocalStorage) (key : String) : Option Bool :=
  (storage.getItem key).map fun text => text == "true"

def saveBool (storage : LocalStorage) (key : String) (enabled : Bool) : LocalStorage :=
  storage.setItem key (if enabled then "true" else "false")

def loadU32 (storage : LocalStorage) (key : String) : Option UInt32 :=
  (storage.getItem key).bind parseU32

def saveU32 (storage : LocalStorage) (key : String) (n : UInt32) : LocalStorage :=
  storage.setItem key (toString n)

def loadString (storage : LocalStorage) (key : String) : Option String := storage.getItem key

def saveString (storage : LocalStorage) (key text : String) : LocalStorage := storage.setItem key text

/-- A text that is not accepted is taken out of the storage. -/
def loadEnumString (storage : LocalStorage) (key : String) (isValid : String → Bool) (default : String) :
    String × LocalStorage :=
  match loadString storage key with
  | some text => if isValid text then (text, storage) else (default, storage.removeItem key)
  | none => (default, storage)

def hasValidEnumString (storage : LocalStorage) (key : String) (isValid : String → Bool) : Bool :=
  (loadString storage key).any isValid

end Loaders

end BlazeList
