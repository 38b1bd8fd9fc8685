import BlazeList.Client.Keyboard
import BlazeList.Client.Links
import BlazeList.Lib.FormUrlEncoded

/-!
# The view in the address

What is shown is written into the query of the address, and restored from it when the user goes back or
opens an address that was shared. The search query is not written.
-/

namespace BlazeList

open FormUrlEncoded (Bytes)

deriving instance DecidableEq for DueDateFilter, TagFilterMode

/-! ### The values of the filters -/

namespace DueDateFilter

def urlValue : DueDateFilter → Option String
  | .all => none
  | .overdue => some "overdue"
  | .today => some "today"
  | .todayAndUpcoming => some "today-upcoming"
  | .upcomingTomorrow => some "upcoming-tomorrow"
  | .todayAndTomorrow => some "today-tomorrow"
  | .upcomingWeek => some "upcoming-week"
  | .upcomingTwoWeeks => some "upcoming-2weeks"

/-- `upcoming` is kept for old addresses. -/
def fromUrlValue : String → DueDateFilter
  | "overdue" => .overdue
  | "today" => .today
  | "today-upcoming" => .todayAndUpcoming
  | "upcoming" => .todayAndUpcoming
  | "upcoming-tomorrow" => .upcomingTomorrow
  | "today-tomorrow" => .todayAndTomorrow
  | "upcoming-week" => .upcomingWeek
  | "upcoming-2weeks" => .upcomingTwoWeeks
  | _ => .all

theorem fromUrlValue_urlValue (filter : DueDateFilter) :
    fromUrlValue (filter.urlValue.getD "") = filter := by
  cases filter <;> rfl

end DueDateFilter

namespace TagFilterMode

def urlValue : TagFilterMode → Option String
  | .or => none
  | .and => some "and"
  | .nor => some "nor"
  | .nand => some "nand"

def fromUrlValue : String → TagFilterMode
  | "and" => .and
  | "nor" => .nor
  | "nand" => .nand
  | _ => .or

/-- Only OR adds to what is shown. -/
def allowsNoTags : TagFilterMode → Bool
  | .or => true
  | _ => false

def next : TagFilterMode → TagFilterMode
  | .or => .and
  | .and => .nor
  | .nor => .nand
  | .nand => .or

theorem fromUrlValue_urlValue (mode : TagFilterMode) :
    (mode.urlValue.map fromUrlValue).getD .or = mode := by
  cases mode <;> rfl

end TagFilterMode

namespace SortOrder

def isDefault (order : SortOrder) : Bool := order = .priority

def urlValue : SortOrder → Option String
  | .priority => none
  | .priorityReverse => some "priority-reverse"
  | .modifiedAt => some "modified"
  | .modifiedAtReverse => some "modified-reverse"
  | .createdAt => some "created"
  | .createdAtReverse => some "created-reverse"
  | .title => some "title"
  | .titleReverse => some "title-reverse"
  | .dueDate => some "due"
  | .dueDateReverse => some "due-reverse"

def fromUrlValue : String → SortOrder
  | "priority-reverse" => .priorityReverse
  | "modified" => .modifiedAt
  | "modified-reverse" => .modifiedAtReverse
  | "created" => .createdAt
  | "created-reverse" => .createdAtReverse
  | "title" => .title
  | "title-reverse" => .titleReverse
  | "due" => .dueDate
  | "due-reverse" => .dueDateReverse
  | _ => .priority

theorem fromUrlValue_urlValue (order : SortOrder) :
    (order.urlValue.map fromUrlValue).getD .priority = order := by
  cases order <;> rfl

end SortOrder

def filterToStr : CardFilter → String
  | .all => "all"
  | .blazed => "blazed"
  | .extinguished => "extinguished"

/-! ### Ids -/

def parseSimple (text : List Char) : Option Uuid :=
  if text.length = 32 ∧ text.all (· ∈ hexClass) then
    some (BitVec.ofNat 128 (digitsValue (text.filterMap hexValue)))
  else
    none

/-- An id is read without hyphens, with them, in braces, and as a URN. -/
def Uuid.fromStr (text : String) : Option Uuid :=
  match text.toList with
  | 'u' :: 'r' :: 'n' :: ':' :: 'u' :: 'u' :: 'i' :: 'd' :: ':' :: rest => parseUuid rest
  | '\x7b' :: rest => if rest.getLast? = some '\x7d' then parseUuid rest.dropLast else none
  | chars => (parseUuid chars).or (parseSimple chars)

/-! ### Parameters -/

abbrev UrlSearchParams := List (Bytes × Bytes)

def encodeText (text : String) : Bytes := text.toList.flatMap String.utf8EncodeChar

/-- What is outside ASCII is read as a replacement character: no value the application knows has it. -/
def decodeText (bytes : Bytes) : String :=
  String.ofList (bytes.map fun byte => if byte < 0x80 then Char.ofNat byte.toNat else '�')

namespace UrlSearchParams

def getAll (params : UrlSearchParams) (name : String) : List String :=
  (params.filter fun pair => pair.1 = encodeText name).map fun pair => decodeText pair.2

def get (params : UrlSearchParams) (name : String) : Option String := (params.getAll name).head?

def append (params : UrlSearchParams) (name value : String) : UrlSearchParams :=
  params ++ [(encodeText name, encodeText value)]

/-- The first pair of the name gets the value, and the others of it go. -/
def setFirst (name value : Bytes) : UrlSearchParams → UrlSearchParams
  | [] => []
  | pair :: rest =>
      if pair.1 = name then (name, value) :: rest.filter fun pair => pair.1 ≠ name
      else pair :: setFirst name value rest

def set (params : UrlSearchParams) (name value : String) : UrlSearchParams :=
  if params.any fun pair => pair.1 = encodeText name then setFirst (encodeText name) (encodeText value) params
  else params.append name value

end UrlSearchParams

/-! ### Writing and restoring -/

structure ViewSignals where
  filters : Filters
  sortOrder : SortOrder
  selectedCard : Option Uuid

namespace ViewSignals

/-- A parameter is written where its value is not the default. -/
def queryParams (view : ViewSignals) : UrlSearchParams :=
  let params : UrlSearchParams := []
  let params := if view.filters.blaze ≠ .extinguished then params.set "f.status" (filterToStr view.filters.blaze)
    else params
  let params := view.filters.dueDate.urlValue.elim params (params.set "f.due")
  let params := if view.filters.includeOverdue then params.set "f.inc_overdue" "1" else params
  let params := view.sortOrder.urlValue.elim params (params.set "f.sort")
  let params := view.filters.tagFilterMode.urlValue.elim params (params.set "f.tag_mode")
  let params := if view.filters.noTags then params.set "f.no_tags" "1" else params
  let params := view.filters.tagFilter.foldl (fun params tagId => params.append "f.tag" (Uuid.toString tagId)) params
  let params := view.selectedCard.elim params fun cardId => params.set "entity" (Uuid.toString cardId)
  view.filters.linkedCards.foldl (fun params linkId => params.append "f.linked" (Uuid.toString linkId)) params

def buildQueryString (view : ViewSignals) : Bytes := FormUrlEncoded.serialize view.queryParams

end ViewSignals

def parseFilterFromParams (params : UrlSearchParams) : CardFilter :=
  match params.get "f.status" with
  | some "all" => .all
  | some "blazed" => .blazed
  | some "extinguished" => .extinguished
  | _ => .extinguished

def parseDueDateFilterFromParams (params : UrlSearchParams) : DueDateFilter :=
  DueDateFilter.fromUrlValue ((params.get "f.due").getD "")

def parseTagModeFromParams (params : UrlSearchParams) : TagFilterMode :=
  ((params.get "f.tag_mode").map TagFilterMode.fromUrlValue).getD .or

/-- What is not an id is skipped. -/
def parseUuidList (params : UrlSearchParams) (key : String) : List Uuid :=
  (params.getAll key).filterMap Uuid.fromStr

def parseTagsFromParams (params : UrlSearchParams) : List Uuid := parseUuidList params "f.tag"

def parseNoTagsFromParams (params : UrlSearchParams) : Bool := params.get "f.no_tags" = some "1"

def parseSelectedCardFromParams (params : UrlSearchParams) : Option Uuid :=
  (params.get "entity").bind Uuid.fromStr

def parseLinkedCardsFromParams (params : UrlSearchParams) : List Uuid := parseUuidList params "f.linked"

def parseSortFromParams (params : UrlSearchParams) : SortOrder :=
  ((params.get "f.sort").map SortOrder.fromUrlValue).getD .priority

/-- Everything is restored but for the search. -/
def ViewSignals.restoreFromQueryParams (view : ViewSignals) (query : Bytes) : ViewSignals :=
  let params : UrlSearchParams := FormUrlEncoded.parse query
  { filters := { view.filters with
      blaze := parseFilterFromParams params
      dueDate := parseDueDateFilterFromParams params
      includeOverdue := params.get "f.inc_overdue" = some "1"
      tagFilterMode := parseTagModeFromParams params
      noTags := parseNoTagsFromParams params
      tagFilter := parseTagsFromParams params
      linkedCards := parseLinkedCardsFromParams params }
    sortOrder := parseSortFromParams params
    selectedCard := parseSelectedCardFromParams params }

/-! ### What is written is read -/

theorem hexValue_digitChar {digit : Nat} (h : digit < 16) :
    hexValue digit.digitChar = some digit ∧ digit.digitChar ∈ hexClass := by
  have htable : ∀ digit : Fin 16, hexValue (Nat.digitChar digit) = some digit.val ∧
      Nat.digitChar digit ∈ hexClass := by decide
  exact htable ⟨digit, h⟩

theorem length_hexDigits (width value : Nat) : (hexDigits width value).length = width := by
  simp [hexDigits]

theorem mem_hexClass_of_mem_hexDigits {width value : Nat} {c : Char} (h : c ∈ hexDigits width value) :
    c ∈ hexClass := by
  obtain ⟨i, -, rfl⟩ := List.mem_map.mp h
  exact (hexValue_digitChar (Nat.mod_lt _ (by decide))).2

theorem digitsValue_hexDigits (width value : Nat) :
    digitsValue ((hexDigits width value).filterMap hexValue) = value % 16 ^ width := by
  induction width generalizing value with
  | zero => simp [hexDigits, digitsValue, Nat.mod_one]
  | succ width ih =>
      have hlast := (hexValue_digitChar (Nat.mod_lt value (show 0 < 16 by decide))).1
      calc
        digitsValue ((hexDigits (width + 1) value).filterMap hexValue) =
            16 * (value / 16 % 16 ^ width) + value % 16 := by
          rw [hexDigits_succ, List.filterMap_append, List.filterMap_cons_some hlast, List.filterMap_nil,
            digitsValue_concat, ih]
        _ = value % (16 * 16 ^ width) := by rw [Nat.mod_mul, Nat.add_comm]
        _ = value % 16 ^ (width + 1) := by rw [Nat.pow_succ']

theorem forall₂_group {group : List Char} (h : ∀ c ∈ group, c ∈ hexClass) :
    List.Forall₂ (fun char c => UuidChar.accepts char c = true) (.replicate group.length .hex) group := by
  induction group with
  | nil => exact .nil
  | cons c group ih =>
      obtain ⟨hc, hgroup⟩ := List.forall_mem_cons.mp h
      exact .cons (decide_eq_true hc) (ih hgroup)

theorem isSpelling_of_groups {a b c d e : List Char} (ha : a.length = 8) (hb : b.length = 4)
    (hc : c.length = 4) (hd : d.length = 4) (he : e.length = 12)
    (hall : ∀ digit ∈ a ++ b ++ c ++ d ++ e, digit ∈ hexClass) :
    IsSpelling (a ++ '-' :: (b ++ '-' :: (c ++ '-' :: (d ++ '-' :: e)))) := by
  simp only [List.forall_mem_append] at hall
  obtain ⟨⟨⟨⟨hall_a, hall_b⟩, hall_c⟩, hall_d⟩, hall_e⟩ := hall
  have hhyphen : UuidChar.accepts .hyphen '-' = true := rfl
  have ga := forall₂_group hall_a
  have gb := forall₂_group hall_b
  have gc := forall₂_group hall_c
  have gd := forall₂_group hall_d
  have ge := forall₂_group hall_e
  rw [ha] at ga
  rw [hb] at gb
  rw [hc] at gc
  rw [hd] at gd
  rw [he] at ge
  exact List.rel_append ga (.cons hhyphen (List.rel_append gb (.cons hhyphen (List.rel_append gc (.cons hhyphen
    (List.rel_append gd (.cons hhyphen ge)))))))

/-- The digits of an id are cut into the groups it is written in. -/
theorem exists_groups (id : Uuid) :
    ∃ a b c d e, hexDigits 32 id.toNat = a ++ b ++ c ++ d ++ e ∧ a.length = 8 ∧ b.length = 4 ∧
      c.length = 4 ∧ d.length = 4 ∧ e.length = 12 := by
  have hlength : (hexDigits 32 id.toNat).length = 32 := length_hexDigits 32 _
  have hcut (n : Nat) (text : List Char) (h : n ≤ text.length) :
      ∃ group rest, text = group ++ rest ∧ group.length = n ∧ rest.length = text.length - n :=
    ⟨_, _, (List.take_append_drop n text).symm, by rw [List.length_take, min_eq_left h], List.length_drop⟩
  obtain ⟨a, afterA, hdigits, ha, hrestA⟩ := hcut 8 (hexDigits 32 id.toNat) (by omega)
  obtain ⟨b, afterB, rfl, hb, hrestB⟩ := hcut 4 afterA (by omega)
  obtain ⟨c, afterC, rfl, hc, hrestC⟩ := hcut 4 afterB (by omega)
  obtain ⟨d, e, rfl, hd, hrestD⟩ := hcut 4 afterC (by omega)
  refine ⟨a, b, c, d, e, ?_, ha, hb, hc, hd, by omega⟩
  simp only [hdigits, List.append_assoc]

theorem isSpelling_toString (id : Uuid) : IsSpelling (Uuid.toString id).toList := by
  obtain ⟨a, b, c, d, e, hdigits, ha, hb, hc, hd, he⟩ := exists_groups id
  rw [toList_toString id ha hb hc hd hdigits]
  apply isSpelling_of_groups ha hb hc hd he
  intro digit hdigit
  rw [← hdigits] at hdigit
  exact mem_hexClass_of_mem_hexDigits hdigit

/-- An id is read back from the text that stands for it. -/
theorem parseUuid_toString (id : Uuid) : parseUuid (Uuid.toString id).toList = some id := by
  obtain ⟨a, b, c, d, e, hdigits, ha, hb, hc, hd, he⟩ := exists_groups id
  have hhyphen (before after : List Char) :
      (before ++ '-' :: after).filterMap hexValue = (before ++ after).filterMap hexValue := by
    rw [List.filterMap_append, List.filterMap_cons_none (by decide), List.filterMap_append]
  have hvalue : digitsValue ((Uuid.toString id).toList.filterMap hexValue) = id.toNat := by
    rw [toList_toString id ha hb hc hd hdigits, hhyphen, ← List.append_assoc a, hhyphen, ← List.append_assoc,
      hhyphen, ← List.append_assoc, hhyphen, ← hdigits, digitsValue_hexDigits]
    exact Nat.mod_eq_of_lt id.isLt
  rw [parseUuid, scanUuid_eq_some_iff.mpr ⟨(List.append_nil _).symm, isSpelling_toString id⟩]
  change some (BitVec.ofNat 128 (digitsValue _)) = some id
  rw [hvalue, BitVec.ofNat_toNat, BitVec.setWidth_eq]

theorem fromStr_toString (id : Uuid) : Uuid.fromStr (Uuid.toString id) = some id := by
  obtain ⟨first, rest, htext, hfirst⟩ := (isSpelling_toString id).head_mem
  unfold Uuid.fromStr
  split
  · rename_i heq
    rw [heq] at htext
    obtain ⟨rfl, -⟩ := List.cons.inj htext
    exact absurd hfirst (by decide)
  · rename_i heq
    rw [heq] at htext
    obtain ⟨rfl, -⟩ := List.cons.inj htext
    exact absurd hfirst (by decide)
  · rw [parseUuid_toString]
    rfl

/-! ### The parameters of a view -/

def IsAscii (text : String) : Prop := ∀ c ∈ text.toList, c.toNat < 0x80

instance (text : String) : Decidable (IsAscii text) := List.decidableBAll _ text.toList

theorem utf8EncodeChar_of_lt {c : Char} (h : c.toNat < 0x80) :
    String.utf8EncodeChar c = [UInt8.ofNat c.toNat] := by
  have hle : c.val.toNat ≤ 0x7F := Nat.le_of_lt_succ h
  unfold String.utf8EncodeChar
  exact if_pos hle

theorem decodeText_encodeText {text : String} (h : IsAscii text) : decodeText (encodeText text) = text := by
  have hlist : ∀ chars : List Char, (∀ c ∈ chars, c.toNat < 0x80) →
      (chars.flatMap String.utf8EncodeChar).map
        (fun byte => if byte < 0x80 then Char.ofNat byte.toNat else '�') = chars := by
    intro chars hchars
    induction chars with
    | nil => rfl
    | cons c rest ih =>
        obtain ⟨hc, hrest⟩ := List.forall_mem_cons.mp hchars
        have hbyte : (UInt8.ofNat c.toNat).toNat = c.toNat := by
          simpa using show c.toNat < 256 by omega
        have hlt : UInt8.ofNat c.toNat < 0x80 := by
          apply UInt8.lt_iff_toNat_lt.mpr
          rwa [hbyte]
        rw [List.flatMap_cons, utf8EncodeChar_of_lt hc, List.map_append, List.map_singleton, if_pos hlt, hbyte,
          Char.ofNat_toNat, ih hrest, List.singleton_append]
  rw [decodeText, encodeText, hlist _ h, String.ofList_toList]

theorem isAscii_toString (id : Uuid) : IsAscii (Uuid.toString id) := by
  have hchar : ∀ char : UuidChar, ∀ c, char.accepts c = true → c.toNat < 0x80 := by
    intro char c hc
    cases char with
    | hex =>
        have hclass : hexClass.all (fun c => decide (c.toNat < 0x80)) = true := by decide
        exact of_decide_eq_true (List.all_eq_true.mp hclass c (of_decide_eq_true hc))
    | hyphen => rw [of_decide_eq_true hc]; decide
  intro c hc
  obtain ⟨i, hi, rfl⟩ := List.getElem_of_mem hc
  have hspelling := isSpelling_toString id
  have hi' : i < uuidPattern.length := lt_of_lt_of_eq hi hspelling.length_eq
  exact hchar _ _ (hspelling.get hi' hi)

def written (groups : List (String × List String)) : UrlSearchParams :=
  groups.flatMap fun (name, values) => values.map fun value => (encodeText name, encodeText value)

theorem written_append (groups : List (String × List String)) (name : String) (values : List String) :
    written (groups ++ [(name, values)]) =
      written groups ++ values.map fun value => (encodeText name, encodeText value) := by
  rw [written, List.flatMap_append, List.flatMap_singleton, written]

theorem mem_written {groups : List (String × List String)} {pair : Bytes × Bytes} (h : pair ∈ written groups) :
    pair.1 ∈ (groups.map Prod.fst).map encodeText := by
  obtain ⟨group, hgroup, hpair⟩ := List.mem_flatMap.mp h
  obtain ⟨value, -, rfl⟩ := List.mem_map.mp hpair
  exact List.mem_map_of_mem (List.mem_map_of_mem hgroup)

section

variable {groups : List (String × List String)} {name : String} (names : List String)

/-- A name that is not there yet is put behind the others. -/
theorem set_written (hnames : groups.map Prod.fst = names) (hname : encodeText name ∉ names.map encodeText)
    (value : String) : (written groups).set name value = written (groups ++ [(name, [value])]) := by
  have habsent : ¬ ((written groups).any fun pair => decide (pair.1 = encodeText name)) = true := by
    intro hany
    obtain ⟨pair, hpair, heq⟩ := List.any_eq_true.mp hany
    apply hname
    rw [← of_decide_eq_true heq, ← hnames]
    exact mem_written hpair
  rw [UrlSearchParams.set, if_neg habsent, written_append]
  rfl

theorem elim_set_written (hnames : groups.map Prod.fst = names)
    (hname : encodeText name ∉ names.map encodeText) (value : Option String) :
    value.elim (written groups) ((written groups).set name) = written (groups ++ [(name, value.toList)]) := by
  cases value with
  | none => rw [written_append]; exact (List.append_nil _).symm
  | some value => exact set_written names hnames hname value

theorem ite_set_written (hnames : groups.map Prod.fst = names)
    (hname : encodeText name ∉ names.map encodeText) (condition : Prop) [Decidable condition] (value : String) :
    (if condition then (written groups).set name value else written groups) =
      written (groups ++ [(name, if condition then [value] else [])]) := by
  split
  · exact set_written names hnames hname value
  · rw [written_append]
    exact (List.append_nil _).symm

theorem foldl_append_written (ids : List Uuid) :
    ids.foldl (fun params id => UrlSearchParams.append params name (Uuid.toString id)) (written groups) =
      written (groups ++ [(name, ids.map Uuid.toString)]) := by
  have hfold : ∀ params : UrlSearchParams,
      ids.foldl (fun params id => UrlSearchParams.append params name (Uuid.toString id)) params =
        params ++ (ids.map Uuid.toString).map fun value => (encodeText name, encodeText value) := by
    intro params
    induction ids generalizing params with
    | nil => exact (List.append_nil params).symm
    | cons id rest ih =>
        rw [List.foldl_cons, ih, UrlSearchParams.append, List.append_assoc, List.singleton_append, List.map_cons,
          List.map_cons]
  rw [hfold, written_append]

/-- Of each name the values are found that were written. -/
theorem getAll_written {values : List String} (hdistinct : ((groups.map Prod.fst).map encodeText).Nodup)
    (hmem : (name, values) ∈ groups) (hascii : ∀ value ∈ values, IsAscii value) :
    (written groups).getAll name = values := by
  induction groups with
  | nil => exact absurd hmem List.not_mem_nil
  | cons group rest ih =>
      obtain ⟨hfirst, hrest⟩ := List.nodup_cons.mp hdistinct
      have hsplit : (written (group :: rest)).getAll name =
          UrlSearchParams.getAll (group.2.map fun value => (encodeText group.1, encodeText value)) name ++
            (written rest).getAll name := by
        simp only [UrlSearchParams.getAll, written, List.flatMap_cons, List.filter_append, List.map_append]
      rw [hsplit]
      rcases List.mem_cons.mp hmem with rfl | hlater
      · have hothers : (written rest).getAll name = [] := by
          rw [UrlSearchParams.getAll, List.map_eq_nil_iff, List.filter_eq_nil_iff]
          intro pair hpair heq
          apply hfirst
          rw [← of_decide_eq_true heq]
          exact mem_written hpair
        have hown : values.map (decodeText ∘ encodeText) = values := by
          calc
            values.map (decodeText ∘ encodeText) = values.map id := by
              apply List.map_congr_left
              intro value hvalue
              exact decodeText_encodeText (hascii value hvalue)
            _ = values := List.map_id values
        rw [hothers, List.append_nil, UrlSearchParams.getAll, List.filter_eq_self.mpr ?_, List.map_map]
        · exact hown
        · intro pair hpair
          obtain ⟨value, -, rfl⟩ := List.mem_map.mp hpair
          exact decide_eq_true rfl
      · rw [ih hrest hlater, UrlSearchParams.getAll, List.filter_eq_nil_iff.mpr ?_]
        · rfl
        · intro pair hpair heq
          obtain ⟨value, -, rfl⟩ := List.mem_map.mp hpair
          apply hfirst
          rw [show encodeText group.1 = encodeText name from of_decide_eq_true heq]
          exact List.mem_map_of_mem (List.mem_map_of_mem hlater)

end

namespace ViewSignals

def keys : List String :=
  ["f.status", "f.due", "f.inc_overdue", "f.sort", "f.tag_mode", "f.no_tags", "f.tag", "entity", "f.linked"]

def groups (view : ViewSignals) : List (String × List String) :=
  [("f.status", if view.filters.blaze ≠ .extinguished then [filterToStr view.filters.blaze] else []),
    ("f.due", view.filters.dueDate.urlValue.toList),
    ("f.inc_overdue", if view.filters.includeOverdue then ["1"] else []),
    ("f.sort", view.sortOrder.urlValue.toList),
    ("f.tag_mode", view.filters.tagFilterMode.urlValue.toList),
    ("f.no_tags", if view.filters.noTags then ["1"] else []),
    ("f.tag", view.filters.tagFilter.map Uuid.toString),
    ("entity", (view.selectedCard.map Uuid.toString).toList),
    ("f.linked", view.filters.linkedCards.map Uuid.toString)]

theorem queryParams_eq (view : ViewSignals) : view.queryParams = written view.groups := by
  have hcard (groups : List (String × List String)) (hnames : groups.map Prod.fst = keys.take 7) :
      view.selectedCard.elim (written groups) (fun cardId => (written groups).set "entity" (Uuid.toString cardId)) =
        written (groups ++ [("entity", (view.selectedCard.map Uuid.toString).toList)]) := by
    rw [← elim_set_written (keys.take 7) hnames (by decide)]
    cases view.selectedCard <;> rfl
  unfold queryParams
  rw [show ([] : UrlSearchParams) = written [] from rfl]
  dsimp only
  rw [ite_set_written (keys.take 0), elim_set_written (keys.take 1), ite_set_written (keys.take 2),
    elim_set_written (keys.take 3), elim_set_written (keys.take 4), ite_set_written (keys.take 5),
    foldl_append_written, hcard, foldl_append_written]
  · rfl
  all_goals first | rfl | decide

theorem isAscii_of_mem_groups (view : ViewSignals) :
    ∀ group ∈ view.groups, ∀ value ∈ group.2, IsAscii value := by
  have hids : ∀ ids : List Uuid, ∀ value ∈ ids.map Uuid.toString, IsAscii value := by
    intro ids value hvalue
    obtain ⟨id, -, rfl⟩ := List.mem_map.mp hvalue
    exact isAscii_toString id
  have hstatus : ∀ filter : CardFilter, IsAscii (filterToStr filter) := by
    intro filter
    cases filter <;> decide
  have hdue : ∀ filter : DueDateFilter, ∀ value ∈ filter.urlValue, IsAscii value := by
    intro filter
    cases filter <;> decide
  have hmode : ∀ mode : TagFilterMode, ∀ value ∈ mode.urlValue, IsAscii value := by
    intro mode
    cases mode <;> decide
  have hsort : ∀ order : SortOrder, ∀ value ∈ order.urlValue, IsAscii value := by
    intro order
    cases order <;> decide
  have hflag : ∀ condition : Prop, ∀ [Decidable condition] (text : String), IsAscii text →
      ∀ value ∈ (if condition then [text] else []), IsAscii value := by
    intro condition _ text htext value hvalue
    split at hvalue
    · rw [List.mem_singleton.mp hvalue]
      exact htext
    · exact absurd hvalue List.not_mem_nil
  simp only [groups, List.forall_mem_cons, List.not_mem_nil, false_imp_iff, implies_true, and_true]
  refine ⟨hflag _ _ (hstatus _), fun value hvalue => hdue _ value (Option.mem_toList.mp hvalue),
    hflag _ _ (by decide), fun value hvalue => hsort _ value (Option.mem_toList.mp hvalue),
    fun value hvalue => hmode _ value (Option.mem_toList.mp hvalue), hflag _ _ (by decide), hids _, ?_, hids _⟩
  intro value hvalue
  obtain ⟨id, -, rfl⟩ := Option.map_eq_some_iff.mp (Option.mem_toList.mp hvalue)
  exact isAscii_toString id

theorem getAll_queryParams (view : ViewSignals) (i : Fin 9) :
    view.queryParams.getAll (view.groups.get i).1 = (view.groups.get i).2 := by
  have hdistinct : (keys.map encodeText).Nodup := by decide
  have hmem : view.groups.get i ∈ view.groups := List.get_mem _ _
  rw [queryParams_eq]
  exact getAll_written hdistinct hmem (view.isAscii_of_mem_groups _ hmem)

theorem get_queryParams (view : ViewSignals) (i : Fin 9) :
    view.queryParams.get (view.groups.get i).1 = (view.groups.get i).2.head? := by
  rw [UrlSearchParams.get, getAll_queryParams]

/-- The view that an address stands for is the one it was written for. The search is kept as it is. -/
theorem restoreFromQueryParams_buildQueryString (view current : ViewSignals) :
    current.restoreFromQueryParams view.buildQueryString =
      { view with filters := { view.filters with
          searchQuery := current.filters.searchQuery
          searchTags := current.filters.searchTags } } := by
  have hids (ids : List Uuid) : (ids.map Uuid.toString).filterMap Uuid.fromStr = ids := by
    rw [List.filterMap_map, show Uuid.fromStr ∘ Uuid.toString = some from funext fromStr_toString,
      List.filterMap_some]
  have hflag (condition : Bool) : decide ((if condition then ["1"] else []).head? = some "1") = condition := by
    cases condition <;> rfl
  have hstatus : parseFilterFromParams view.queryParams = view.filters.blaze := by
    rw [parseFilterFromParams, show view.queryParams.get "f.status" = _ from view.get_queryParams 0]
    cases hblaze : view.filters.blaze <;> simp [groups, hblaze, filterToStr]
  have hdue : parseDueDateFilterFromParams view.queryParams = view.filters.dueDate := by
    rw [parseDueDateFilterFromParams, show view.queryParams.get "f.due" = _ from view.get_queryParams 1]
    exact Option.head?_toList.symm ▸ DueDateFilter.fromUrlValue_urlValue _
  have hoverdue : decide (view.queryParams.get "f.inc_overdue" = some "1") = view.filters.includeOverdue := by
    rw [show view.queryParams.get "f.inc_overdue" = _ from view.get_queryParams 2]
    exact hflag _
  have hsort : parseSortFromParams view.queryParams = view.sortOrder := by
    rw [parseSortFromParams, show view.queryParams.get "f.sort" = _ from view.get_queryParams 3]
    exact Option.head?_toList.symm ▸ SortOrder.fromUrlValue_urlValue _
  have hmode : parseTagModeFromParams view.queryParams = view.filters.tagFilterMode := by
    rw [parseTagModeFromParams, show view.queryParams.get "f.tag_mode" = _ from view.get_queryParams 4]
    exact Option.head?_toList.symm ▸ TagFilterMode.fromUrlValue_urlValue _
  have hnoTags : parseNoTagsFromParams view.queryParams = view.filters.noTags := by
    rw [parseNoTagsFromParams, show view.queryParams.get "f.no_tags" = _ from view.get_queryParams 5]
    exact hflag _
  have htags : parseTagsFromParams view.queryParams = view.filters.tagFilter := by
    rw [parseTagsFromParams, parseUuidList, show view.queryParams.getAll "f.tag" = _ from view.getAll_queryParams 6]
    exact hids _
  have hcard : parseSelectedCardFromParams view.queryParams = view.selectedCard := by
    rw [parseSelectedCardFromParams, show view.queryParams.get "entity" = _ from view.get_queryParams 7]
    cases hselected : view.selectedCard with
    | none => simp [groups, hselected]
    | some id => simp [groups, hselected, fromStr_toString]
  have hlinked : parseLinkedCardsFromParams view.queryParams = view.filters.linkedCards := by
    rw [parseLinkedCardsFromParams, parseUuidList,
      show view.queryParams.getAll "f.linked" = _ from view.getAll_queryParams 8]
    exact hids _
  simp only [restoreFromQueryParams, buildQueryString, FormUrlEncoded.parse_serialize]
  rw [hstatus, hdue, hoverdue, hsort, hmode, hnoTags, htags, hcard, hlinked]

end ViewSignals

end BlazeList
