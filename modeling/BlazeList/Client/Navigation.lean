import BlazeList.Client.Address

/-!
# Getting around by keys

Escape closes one thing after the other until nothing is open and nothing is filtered. The keys for the next
and the previous card go through the list in its order, and stop at its ends.
-/

namespace BlazeList

namespace Screen

variable {screen : Screen}

/-- A key without modifiers, with the focus in no input. -/
def press (content : Content) (discard : Bool) (key : String) (screen : Screen) : Screen :=
  screen.step (.key content ⟨key, false, false, false, .page⟩ discard)

/-! ### Escape -/

/-- What Escape closes, and whether it is open: in this order. -/
def openThings (screen : Screen) : List Bool :=
  [screen.subMenu.isSome, screen.editing, screen.creatingNew, screen.settingsOpen, screen.shortcutsOpen,
    screen.view.selectedCard.isSome, screen.view.filters.searchQuery ≠ "", screen.hasFilters]

def closeFirst : List Bool → List Bool
  | [] => []
  | true :: rest => false :: rest
  | false :: rest => false :: closeFirst rest

theorem count_closeFirst (things : List Bool) : (closeFirst things).count true = things.count true - 1 := by
  induction things with
  | nil => rfl
  | cons first rest ih =>
      cases first with
      | true => simp [closeFirst]
      | false => simpa [closeFirst] using ih

theorem confirmDiscardChanges_true : screen.confirmDiscardChanges true = true := by
  rw [confirmDiscardChanges, Bool.or_true]

theorem press_escape (content : Content) :
    screen.press content true "Escape" =
      if screen.subMenu.isSome then screen.closeSubmenu else screen.handleEscape true := by
  simp only [press, step, handleKeydown, reduceCtorEq, or_false, ↓reduceIte]

theorem openThings_handleEscape (h : screen.subMenu.isSome = false) :
    (screen.handleEscape true).openThings = closeFirst screen.openThings := by
  unfold handleEscape
  split
  · rename_i hediting
    rw [closeEditor, if_pos confirmDiscardChanges_true]
    change [screen.subMenu.isSome, false, _, _, _, _, _, _] = _
    rw [openThings, h, hediting]
    rfl
  · rename_i hediting
    split
    · rename_i hcreating
      rw [if_pos confirmDiscardChanges_true]
      change [screen.subMenu.isSome, screen.editing, false, _, _, _, _, _] = _
      rw [openThings, h, Bool.eq_false_iff.mpr hediting, hcreating]
      rfl
    · rename_i hcreating
      split
      · rename_i hsettings
        change [screen.subMenu.isSome, screen.editing, screen.creatingNew, false, _, _, _, _] = _
        rw [openThings, h, Bool.eq_false_iff.mpr hediting, Bool.eq_false_iff.mpr hcreating, hsettings]
        rfl
      · rename_i hsettings
        split
        · rename_i hshortcuts
          change [screen.subMenu.isSome, screen.editing, screen.creatingNew, screen.settingsOpen, false, _, _, _] = _
          rw [openThings, h, Bool.eq_false_iff.mpr hediting, Bool.eq_false_iff.mpr hcreating,
            Bool.eq_false_iff.mpr hsettings, hshortcuts]
          rfl
        · rename_i hshortcuts
          have hfront : screen.openThings = false :: false :: false :: false :: false ::
              [screen.view.selectedCard.isSome, screen.view.filters.searchQuery ≠ "", screen.hasFilters] := by
            rw [openThings, h, Bool.eq_false_iff.mpr hediting, Bool.eq_false_iff.mpr hcreating,
              Bool.eq_false_iff.mpr hsettings, Bool.eq_false_iff.mpr hshortcuts]
          rw [hfront]
          split
          · rename_i hselected
            rw [setSelection, if_pos confirmDiscardChanges_true, hselected]
            change [screen.subMenu.isSome, false, false, false, false, false, _, _] = _
            rw [h]
            rfl
          · rename_i hselected
            rw [Bool.eq_false_iff.mpr hselected]
            split
            · rename_i hsearch
              change [screen.subMenu.isSome, screen.editing, screen.creatingNew, screen.settingsOpen,
                screen.shortcutsOpen, screen.view.selectedCard.isSome, false, screen.hasFilters] = _
              rw [h, Bool.eq_false_iff.mpr hediting, Bool.eq_false_iff.mpr hcreating,
                Bool.eq_false_iff.mpr hsettings, Bool.eq_false_iff.mpr hshortcuts, Bool.eq_false_iff.mpr hselected,
                decide_eq_true hsearch]
              rfl
            · rename_i hsearch
              split
              · rename_i hfilters
                change [screen.subMenu.isSome, screen.editing, screen.creatingNew, screen.settingsOpen,
                  screen.shortcutsOpen, screen.view.selectedCard.isSome,
                  decide (screen.view.filters.searchQuery ≠ ""), false] = _
                rw [h, Bool.eq_false_iff.mpr hediting, Bool.eq_false_iff.mpr hcreating,
                  Bool.eq_false_iff.mpr hsettings, Bool.eq_false_iff.mpr hshortcuts,
                  Bool.eq_false_iff.mpr hselected, decide_eq_false hsearch, hfilters]
                rfl
              · rename_i hfilters
                rw [hfront, decide_eq_false hsearch, Bool.eq_false_iff.mpr hselected,
                  Bool.eq_false_iff.mpr hfilters]
                rfl

/-- Each press closes the first of the things that are open, and leaves the others as they are. -/
theorem openThings_press_escape (content : Content) :
    (screen.press content true "Escape").openThings = closeFirst screen.openThings := by
  rw [press_escape]
  split
  · rename_i h
    change [false, screen.editing, _, _, _, _, _, _] = _
    rw [openThings, h]
    rfl
  · rename_i h
    exact openThings_handleEscape (Bool.eq_false_iff.mpr h)

theorem press_escape_of_closed (content : Content) (h : screen.openThings.count true = 0) :
    screen.press content true "Escape" = screen := by
  have hclosed : ∀ thing ∈ screen.openThings, ¬ thing = true := by
    intro thing hthing htrue
    exact List.count_eq_zero.mp h (htrue ▸ hthing)
  simp only [openThings, List.forall_mem_cons, List.not_mem_nil, false_imp_iff, implies_true, and_true] at hclosed
  obtain ⟨hmenu, hediting, hcreating, hsettings, hshortcuts, hselected, hsearch, hfilters⟩ := hclosed
  rw [press_escape, if_neg hmenu, handleEscape, if_neg hediting, if_neg hcreating, if_neg hsettings,
    if_neg hshortcuts, if_neg hselected, if_neg (of_decide_eq_false (Bool.eq_false_iff.mpr hsearch)),
    if_neg hfilters]

/-- Each press closes the first thing that is open. So many presses as things are open, eight at most, close all
of them, and more do nothing. -/
theorem iterate_escape (screen : Screen) (content : Content) :
    screen.openThings.count true ≤ 8 ∧ ∀ n,
      ((press content true "Escape")^[n] screen).openThings = closeFirst^[n] screen.openThings ∧
        ((press content true "Escape")^[n] screen).openThings.count true = screen.openThings.count true - n ∧
        (screen.openThings.count true ≤ n →
          (press content true "Escape")^[n] screen =
            (press content true "Escape")^[screen.openThings.count true] screen) := by
  have hthings (n : Nat) :
      ((press content true "Escape")^[n] screen).openThings = closeFirst^[n] screen.openThings := by
    induction n with
    | zero => rfl
    | succ n ih =>
        rw [Function.iterate_succ_apply', Function.iterate_succ_apply', openThings_press_escape, ih]
  have hcount (n : Nat) : (closeFirst^[n] screen.openThings).count true = screen.openThings.count true - n := by
    induction n with
    | zero => rfl
    | succ n ih =>
        calc
          (closeFirst^[n + 1] screen.openThings).count true =
              (closeFirst (closeFirst^[n] screen.openThings)).count true := by rw [Function.iterate_succ_apply']
          _ = (closeFirst^[n] screen.openThings).count true - 1 := count_closeFirst _
          _ = screen.openThings.count true - (n + 1) := by rw [ih, Nat.sub_sub]
  refine ⟨List.count_le_length, fun n => ⟨hthings n, (congrArg _ (hthings n)).trans (hcount n), fun hn => ?_⟩⟩
  obtain ⟨more, rfl⟩ := Nat.exists_eq_add_of_le hn
  have hrest : ((press content true "Escape")^[screen.openThings.count true] screen).openThings.count true = 0 := by
    rw [hthings, hcount, Nat.sub_self]
  rw [Nat.add_comm, Function.iterate_add_apply]
  exact Function.iterate_fixed (press_escape_of_closed content hrest) more

/-! ### The next and the previous card -/

structure Ready (screen : Screen) : Prop where
  enabled : screen.settings.keyboardShortcutsEnabled = true
  menu : screen.subMenu = none
  editing : screen.editing = false
  creating : screen.creatingNew = false
  saved : screen.hasUnsavedChanges = false

structure Selects (before after : Screen) (target : Option Uuid) : Prop where
  ready : after.Ready
  selected : after.view.selectedCard = target
  filters : after.view.filters = before.view.filters
  sortOrder : after.view.sortOrder = before.view.sortOrder

theorem Ready.trySelect (h : screen.Ready) (id : Uuid) (discard : Bool) :
    screen.Selects (screen.trySelect (some id) discard) (some id) := by
  have hconfirm : screen.confirmDiscardChanges discard = true := by rw [confirmDiscardChanges, h.saved]; rfl
  simp only [Screen.trySelect, setSelection, if_pos hconfirm, Option.getD_some]
  exact ⟨⟨h.enabled, h.menu, rfl, rfl, h.saved⟩, rfl, rfl, rfl⟩

theorem Ready.press_eq (h : screen.Ready) (content : Content) (discard : Bool) {key : String} {shortcut : Shortcut}
    (hkey : Shortcut.ofKey key = some shortcut) (hescape : key ≠ "Escape") (hhelp : key ≠ "?")
    (hsettings : key ≠ ",") :
    screen.press content discard key = screen.shortcut (content.filtered.map Card.id) discard shortcut := by
  simp [Screen.press, step, handleKeydown, h.menu, h.enabled, h.editing, h.creating, hkey, hescape, hhelp,
    hsettings]

section

variable {ids : List Uuid}

theorem idxOf?_of_nodup (hids : ids.Nodup) {i : Nat} {id : Uuid} (h : ids[i]? = some id) :
    ids.idxOf? id = some i := by
  obtain ⟨hi, rfl⟩ := List.getElem?_eq_some_iff.mp h
  refine List.idxOf?_eq_some_iff.mpr ⟨hi, rfl, fun j hj heq => ?_⟩
  exact absurd (hids.getElem_inj_iff.mp heq) (Nat.ne_of_lt hj)

theorem nextId_of_getElem? (hids : ids.Nodup) {i : Nat} {id : Uuid} (h : ids[i]? = some id) :
    nextId ids (some id) = ids[min (i + 1) (ids.length - 1)]? := by
  obtain ⟨hi, hid⟩ := List.getElem?_eq_some_iff.mp h
  rw [nextId, idxOf?_of_nodup hids h]
  dsimp only
  split
  · rename_i hnext
    rw [min_eq_left (by omega), List.getElem?_eq_getElem hnext]
  · rename_i hlast
    have hend : min (i + 1) (ids.length - 1) = i := by omega
    rw [hend, h]

theorem prevId_of_getElem? (hids : ids.Nodup) {i : Nat} {id : Uuid} (h : ids[i]? = some id) :
    prevId ids (some id) = ids[i - 1]? := by
  rw [prevId, idxOf?_of_nodup hids h]
  cases i with
  | zero => exact h.symm
  | succ i => rfl

/-- A key that goes from the card at a place of the list to the one at another. -/
theorem Ready.walk (hready : screen.Ready) (content : Content) (discard : Bool) (key : String)
    (position : Nat → Nat) (hstart : screen.view.selectedCard = (content.filtered.map Card.id)[position 0]?)
    (hinside : ∀ n, position n < (content.filtered.map Card.id).length)
    (hstep : ∀ (n : Nat) (later : Screen), later.Ready →
      later.view.selectedCard = (content.filtered.map Card.id)[position n]? →
      later.press content discard key =
        later.trySelect (content.filtered.map Card.id)[position (n + 1)]? discard) (n : Nat) :
    screen.Selects ((press content discard key)^[n] screen) (content.filtered.map Card.id)[position n]? := by
  induction n with
  | zero => exact ⟨hready, hstart, rfl, rfl⟩
  | succ n ih =>
      have hlt := hinside (n + 1)
      rw [Function.iterate_succ_apply', hstep n _ ih.ready ih.selected, List.getElem?_eq_getElem hlt]
      have hnext := ih.ready.trySelect (content.filtered.map Card.id)[position (n + 1)] discard
      exact ⟨hnext.ready, hnext.selected, hnext.filters.trans ih.filters, hnext.sortOrder.trans ih.sortOrder⟩

end

/-- From the first card on, the key for the next one goes through the list in its order and stops at the end;
from the last card on, the key for the previous one goes through it backwards and stops at the start. -/
theorem walk_through (hready : screen.Ready) (content : Content) (discard : Bool)
    (hids : (content.filtered.map Card.id).Nodup) (hne : content.filtered ≠ []) (n : Nat) :
    screen.Selects ((press content discard "j")^[n] (screen.press content discard "g"))
        (content.filtered.map Card.id)[min n (content.filtered.length - 1)]? ∧
      screen.Selects ((press content discard "k")^[n] (screen.press content discard "G"))
        (content.filtered.map Card.id)[content.filtered.length - 1 - n]? := by
  have hlength : (content.filtered.map Card.id).length = content.filtered.length := List.length_map _
  have hpos : 0 < content.filtered.length := List.length_pos_iff.mpr hne
  have hready_of (later : Screen) (h : later.Ready) {key : String} {shortcut : Shortcut}
      (hkey : Shortcut.ofKey key = some shortcut) (hother : key ≠ "Escape" ∧ key ≠ "?" ∧ key ≠ ",") :
      later.press content discard key = later.shortcut (content.filtered.map Card.id) discard shortcut :=
    h.press_eq content discard hkey hother.1 hother.2.1 hother.2.2
  have hfirst : screen.Selects (screen.press content discard "g") (content.filtered.map Card.id)[0]? := by
    rw [hready_of screen hready (show Shortcut.ofKey "g" = some .firstCard from rfl) (by decide), Screen.shortcut,
      List.head?_eq_getElem?, List.getElem?_eq_getElem (hlength ▸ hpos)]
    exact hready.trySelect _ discard
  have hlast : screen.Selects (screen.press content discard "G")
      (content.filtered.map Card.id)[content.filtered.length - 1]? := by
    rw [hready_of screen hready (show Shortcut.ofKey "G" = some .lastCard from rfl) (by decide), Screen.shortcut,
      List.getLast?_eq_getElem?, hlength, List.getElem?_eq_getElem (by omega)]
    exact hready.trySelect _ discard
  constructor
  · have hwalk := hfirst.ready.walk content discard "j" (fun n => min n (content.filtered.length - 1))
      (by simpa using hfirst.selected) (fun n => by rw [hlength]; omega) (fun m later hlater hselected => ?_) n
    · exact ⟨hwalk.ready, hwalk.selected, hwalk.filters.trans hfirst.filters,
        hwalk.sortOrder.trans hfirst.sortOrder⟩
    · rw [hready_of later hlater (show Shortcut.ofKey "j" = some .nextCard from rfl) (by decide),
        Screen.shortcut, hselected]
      rw [List.getElem?_eq_getElem (by omega), nextId_of_getElem? hids (List.getElem?_eq_getElem (by omega)), hlength]
      congr 2
      omega
  · have hwalk := hlast.ready.walk content discard "k" (fun n => content.filtered.length - 1 - n)
      (by simpa using hlast.selected) (fun n => by rw [hlength]; omega) (fun m later hlater hselected => ?_) n
    · exact ⟨hwalk.ready, hwalk.selected, hwalk.filters.trans hlast.filters, hwalk.sortOrder.trans hlast.sortOrder⟩
    · rw [hready_of later hlater (show Shortcut.ofKey "k" = some .prevCard from rfl) (by decide),
        Screen.shortcut, hselected]
      rw [List.getElem?_eq_getElem (by omega), prevId_of_getElem? hids (List.getElem?_eq_getElem (by omega))]
      congr 2

theorem walk_through_two :
    let content : Content := ⟨[], [sampleCard 1 ⟨0, zero_mem_i64⟩, sampleCard 2 ⟨0, zero_mem_i64⟩], fun _ => none⟩
    let screen := new false sampleSettings false sampleQuery
    screen.Selects ((press content false "j")^[1] (screen.press content false "g"))
        (content.filtered.map Card.id)[min 1 (content.filtered.length - 1)]? ∧
      screen.Selects ((press content false "k")^[1] (screen.press content false "G"))
        (content.filtered.map Card.id)[content.filtered.length - 1 - 1]? := by
  intro content screen
  have hids : (content.filtered.map Card.id).Nodup := by
    change [(1 : Uuid), 2].Nodup
    decide
  exact walk_through ⟨rfl, rfl, rfl, rfl, rfl⟩ content false hids (List.cons_ne_nil _ _) 1

end Screen

end BlazeList
