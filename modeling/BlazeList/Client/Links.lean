import BlazeList.Client.TagDetail
import BlazeList.Server.Error
import Mathlib.Data.List.Infix

/-!
# Card links

A card links to the cards whose ids are written in its content. A scanner finds the ids in the running
text: at its start or behind white space, with an opening bracket in front or without one.
-/

namespace BlazeList

/-! ### How an id is written -/

inductive UuidChar where
  | hex
  | hyphen

/-- Groups of 8, 4, 4, 4 and 12 hexadecimal digits. -/
def uuidPattern : List UuidChar :=
  .replicate 8 .hex ++ .hyphen :: (.replicate 4 .hex ++ .hyphen :: (.replicate 4 .hex ++ .hyphen ::
    (.replicate 4 .hex ++ .hyphen :: .replicate 12 .hex)))

def hexClass : List Char :=
  ['0', '1', '2', '3', '4', '5', '6', '7', '8', '9', 'a', 'b', 'c', 'd', 'e', 'f', 'A', 'B', 'C', 'D', 'E', 'F']

def UuidChar.accepts : UuidChar → Char → Bool
  | .hex, c => c ∈ hexClass
  | .hyphen, c => c = '-'

def scanPattern : List UuidChar → List Char → Option (List Char × List Char)
  | [], text => some ([], text)
  | _ :: _, [] => none
  | char :: pattern, c :: text =>
      if char.accepts c then (scanPattern pattern text).map fun (found, rest) => (c :: found, rest) else none

def scanUuid (text : List Char) : Option (List Char × List Char) := scanPattern uuidPattern text

def hexValue (c : Char) : Option Nat :=
  if '0' ≤ c ∧ c ≤ '9' then some (c.toNat - 48)
  else if 'a' ≤ c ∧ c ≤ 'f' then some (c.toNat - 87)
  else if 'A' ≤ c ∧ c ≤ 'F' then some (c.toNat - 55)
  else none

def digitsValue (digits : List Nat) : Nat := digits.foldl (fun value digit => 16 * value + digit) 0

def parseUuid (text : List Char) : Option Uuid :=
  match scanUuid text with
  | some (found, []) => some (BitVec.ofNat 128 (digitsValue (found.filterMap hexValue)))
  | _ => none

/-! ### The scanner -/

structure UuidMatch where
  lead : List Char
  uuid : List Char
  rest : List Char

/-- An id here, or one behind an opening bracket. -/
def matchBracket (text : List Char) : Option UuidMatch :=
  let bracketed := match text with
    | c :: after =>
        if c ∈ ['(', '[', '{'] then (scanUuid after).map fun (uuid, rest) => ⟨[c], uuid, rest⟩ else none
    | [] => none
  bracketed <|> (scanUuid text).map fun (uuid, rest) => ⟨[], uuid, rest⟩

/-- A match begins at the start of the text, or with white space. -/
def matchAt (atStart : Bool) (text : List Char) : Option UuidMatch :=
  let here := if atStart then matchBracket text else none
  let behind := match text with
    | c :: after =>
        if Words.isWhitespace c then (matchBracket after).map fun found => { found with lead := c :: found.lead }
        else none
    | [] => none
  here <|> behind

def UuidMatch.text (found : UuidMatch) : List Char := found.lead ++ found.uuid ++ found.rest

theorem scanPattern_append {pattern : List UuidChar} {text found rest : List Char}
    (h : scanPattern pattern text = some (found, rest)) :
    text = found ++ rest ∧ List.Forall₂ (fun char c => char.accepts c = true) pattern found := by
  induction pattern generalizing text found with
  | nil =>
      obtain ⟨rfl, rfl⟩ := Prod.mk.inj (Option.some.inj h)
      exact ⟨rfl, .nil⟩
  | cons char pattern ih =>
      cases text with
      | nil => cases h
      | cons c text =>
          rw [scanPattern] at h
          split at h
          next haccepts =>
            obtain ⟨⟨tail, behind⟩, htail, heq⟩ := Option.map_eq_some_iff.mp h
            obtain ⟨rfl, rfl⟩ := Prod.mk.inj heq
            obtain ⟨rfl, hall⟩ := ih htail
            exact ⟨rfl, .cons haccepts hall⟩
          next => cases h

theorem scanPattern_of_forall₂ {pattern : List UuidChar} {found : List Char} (rest : List Char)
    (h : List.Forall₂ (fun char c => char.accepts c = true) pattern found) :
    scanPattern pattern (found ++ rest) = some (found, rest) := by
  induction h with
  | nil => rfl
  | cons haccepts _ ih =>
      rw [List.cons_append, scanPattern, if_pos haccepts, ih]
      rfl

def IsSpelling (text : List Char) : Prop :=
  List.Forall₂ (fun char c => UuidChar.accepts char c = true) uuidPattern text

theorem scanUuid_eq_some_iff {text found rest : List Char} :
    scanUuid text = some (found, rest) ↔ text = found ++ rest ∧ IsSpelling found := by
  constructor
  · exact scanPattern_append
  · rintro ⟨rfl, hspelling⟩
    exact scanPattern_of_forall₂ rest hspelling

theorem IsSpelling.length_eq {text : List Char} (h : IsSpelling text) : text.length = 36 :=
  (List.Forall₂.length_eq h).symm

theorem matchBracket_spec {text : List Char} {found : UuidMatch} (h : matchBracket text = some found) :
    found.text = text ∧ IsSpelling found.uuid := by
  unfold matchBracket at h
  rw [Option.orElse_eq_some] at h
  obtain hbracketed | ⟨-, hplain⟩ := h
  · cases text with
    | nil => cases hbracketed
    | cons c after =>
        dsimp only at hbracketed
        split at hbracketed
        next =>
          obtain ⟨⟨uuid, rest⟩, hscan, rfl⟩ := Option.map_eq_some_iff.mp hbracketed
          obtain ⟨rfl, hspelling⟩ := scanUuid_eq_some_iff.mp hscan
          exact ⟨rfl, hspelling⟩
        next => cases hbracketed
  · obtain ⟨⟨uuid, rest⟩, hscan, rfl⟩ := Option.map_eq_some_iff.mp hplain
    obtain ⟨rfl, hspelling⟩ := scanUuid_eq_some_iff.mp hscan
    exact ⟨rfl, hspelling⟩

theorem matchAt_spec {atStart : Bool} {text : List Char} {found : UuidMatch}
    (h : matchAt atStart text = some found) : found.text = text ∧ IsSpelling found.uuid := by
  unfold matchAt at h
  rw [Option.orElse_eq_some] at h
  obtain hhere | ⟨-, hbehind⟩ := h
  · split at hhere
    next => exact matchBracket_spec hhere
    next => cases hhere
  · cases text with
    | nil => cases hbehind
    | cons c after =>
        dsimp only at hbehind
        split at hbehind
        next =>
          obtain ⟨inner, hinner, rfl⟩ := Option.map_eq_some_iff.mp hbehind
          obtain ⟨rfl, hspelling⟩ := matchBracket_spec hinner
          exact ⟨rfl, hspelling⟩
        next => cases hbehind

theorem matchAt_rest_lt {atStart : Bool} {text : List Char} {found : UuidMatch}
    (h : matchAt atStart text = some found) : found.rest.length < text.length := by
  obtain ⟨rfl, hspelling⟩ := matchAt_spec h
  rw [UuidMatch.text, List.length_append, List.length_append, hspelling.length_eq]
  omega

/-- The ids from left to right, each with the text between the one before it and itself, and the text
behind the last one. -/
def captures (atStart : Bool) (skipped text : List Char) : List (List Char × List Char) × List Char :=
  match _h : matchAt atStart text with
  | some found =>
      let (pieces, tail) := captures false [] found.rest
      ((skipped ++ found.lead, found.uuid) :: pieces, tail)
  | none =>
      match text with
      | [] => ([], skipped)
      | c :: after => captures false (skipped ++ [c]) after
termination_by text.length
decreasing_by
  · exact matchAt_rest_lt _h
  · exact Nat.lt_succ_self _

def uuidMatches (text : List Char) : List (List Char) := (captures true [] text).1.map Prod.snd

/-! ### Links -/

def pushLink (ownId : Uuid) (links : List Uuid) (text : List Char) : List Uuid :=
  match parseUuid text with
  | some uuid => if uuid ≠ ownId ∧ uuid ∉ links then links ++ [uuid] else links
  | none => links

/-- The ids in the content other than the card's own, each once. -/
def extractCardLinks (content : String) (ownId : Uuid) : List Uuid :=
  (uuidMatches content.toList).foldl (pushLink ownId) []

/-- The cards that link to this one. Only a content that holds the id as it is written in lower case is
scanned. -/
def extractBackLinks (cardId : Uuid) (allCards : List Card) : List Uuid :=
  let needle := (Uuid.toString cardId).toList
  (allCards.filter fun card =>
    card.id ≠ cardId ∧ needle <:+: card.content.toList ∧ cardId ∈ extractCardLinks card.content card.id).map
      Card.id

theorem captures_of_eq_some {atStart : Bool} {skipped text : List Char} {found : UuidMatch}
    (h : matchAt atStart text = some found) :
    captures atStart skipped text =
      ((skipped ++ found.lead, found.uuid) :: (captures false [] found.rest).1, (captures false [] found.rest).2) := by
  rw [captures]
  split
  next other hother =>
    obtain rfl := Option.some.inj (hother.symm.trans h)
    rfl
  next hnone =>
    rw [h] at hnone
    cases hnone

theorem captures_nil (atStart : Bool) (skipped : List Char) : captures atStart skipped [] = ([], skipped) := by
  rw [captures]
  cases atStart with
  | false => rfl
  | true => rfl

/-- The scanner cuts the text into pieces, and each id it finds is the spelling of one. -/
theorem captures_spec (atStart : Bool) (skipped text : List Char) :
    ((captures atStart skipped text).1.flatMap fun (gap, uuid) => gap ++ uuid) ++
        (captures atStart skipped text).2 = skipped ++ text ∧
      ∀ piece ∈ (captures atStart skipped text).1, IsSpelling piece.2 := by
  fun_induction captures atStart skipped text with
  | case1 atStart skipped text found hfound pieces tail hrest ih =>
      obtain ⟨htext, hspelling⟩ := matchAt_spec hfound
      rw [hrest] at ih
      constructor
      · rw [List.flatMap_cons, List.append_assoc, ih.1, ← htext]
        simp [UuidMatch.text]
      · exact List.forall_mem_cons.mpr ⟨hspelling, ih.2⟩
  | case2 => exact ⟨(List.append_nil _).symm, fun piece hpiece => absurd hpiece List.not_mem_nil⟩
  | case3 atStart skipped c after _ ih =>
      exact ⟨by rw [ih.1, List.append_assoc, List.singleton_append], ih.2⟩

theorem isSpelling_of_mem_uuidMatches {text spelling : List Char} (h : spelling ∈ uuidMatches text) :
    IsSpelling spelling := by
  obtain ⟨piece, hpiece, rfl⟩ := List.mem_map.mp h
  exact (captures_spec true [] text).2 piece hpiece

theorem uuidMatches_infix {text spelling : List Char} (h : spelling ∈ uuidMatches text) :
    spelling <:+: text := by
  obtain ⟨⟨gap, uuid⟩, hpiece, rfl⟩ := List.mem_map.mp h
  obtain ⟨htext, -⟩ := captures_spec true [] text
  obtain ⟨before, after, hpieces⟩ := List.append_of_mem hpiece
  rw [hpieces, List.flatMap_append, List.flatMap_cons, List.nil_append] at htext
  rw [← htext]
  exact ⟨before.flatMap (fun (gap, uuid) => gap ++ uuid) ++ gap,
    (after.flatMap fun (gap, uuid) => gap ++ uuid) ++ (captures true [] text).2, by simp⟩

theorem IsSpelling.head_mem {text : List Char} (h : IsSpelling text) : ∃ c after, text = c :: after ∧ c ∈ hexClass := by
  cases h with
  | cons hc _ => exact ⟨_, _, rfl, of_decide_eq_true hc⟩

/-- A text that is nothing but a spelling. -/
theorem uuidMatches_spelling {text : List Char} (h : IsSpelling text) : uuidMatches text = [text] := by
  have hscan : scanUuid text = some (text, []) := scanUuid_eq_some_iff.mpr ⟨(List.append_nil text).symm, h⟩
  have hmatch : matchAt true text = some ⟨[], text, []⟩ := by
    obtain ⟨c, after, rfl, hc⟩ := h.head_mem
    have hbracket : c ∉ ['(', '[', '{'] := by
      have hall : (hexClass.all fun c => c ∉ ['(', '[', '{']) = true := by decide
      exact of_decide_eq_true (List.all_eq_true.mp hall c hc)
    simp [matchAt, matchBracket, hbracket, hscan]
  rw [uuidMatches, captures_of_eq_some hmatch, captures_nil]
  rfl

theorem uuidMatches_of_short {text : List Char} (h : text.length < 36) : uuidMatches text = [] := by
  rw [List.eq_nil_iff_forall_not_mem]
  intro spelling hmem
  have hinfix := uuidMatches_infix hmem
  have hlength := hinfix.length_le
  have hspelling := (isSpelling_of_mem_uuidMatches hmem).length_eq
  omega

/-! ### Reading a spelling back -/

theorem forall₂_append_left {α β : Type} {R : α → β → Prop} {left right : List α} {all : List β}
    (h : List.Forall₂ R (left ++ right) all) :
    ∃ first second, all = first ++ second ∧ List.Forall₂ R left first ∧ List.Forall₂ R right second := by
  induction left generalizing all with
  | nil => exact ⟨[], all, rfl, .nil, h⟩
  | cons a left ih =>
      cases h with
      | cons ha hrest =>
          obtain ⟨first, second, rfl, hfirst, hsecond⟩ := ih hrest
          exact ⟨_, second, rfl, .cons ha hfirst, hsecond⟩

/-- A group of hexadecimal digits, and what is behind it. -/
theorem exists_group {n : Nat} {pattern : List UuidChar} {text : List Char}
    (h : List.Forall₂ (fun char c => UuidChar.accepts char c = true)
      (.replicate n .hex ++ pattern) text) :
    ∃ group rest, text = group ++ rest ∧ group.length = n ∧ (∀ c ∈ group, c ∈ hexClass) ∧
      List.Forall₂ (fun char c => UuidChar.accepts char c = true) pattern rest := by
  obtain ⟨group, rest, rfl, hgroup, hrest⟩ := forall₂_append_left h
  refine ⟨group, rest, rfl, by rw [← hgroup.length_eq, List.length_replicate], fun c hc => ?_, hrest⟩
  obtain ⟨i, hi, rfl⟩ := List.getElem_of_mem hc
  have haccepts := hgroup.get (i := i) (by simpa [← hgroup.length_eq] using hi) hi
  simpa [UuidChar.accepts] using haccepts

theorem exists_hyphen {pattern : List UuidChar} {text : List Char}
    (h : List.Forall₂ (fun char c => UuidChar.accepts char c = true) (.hyphen :: pattern) text) :
    ∃ rest, text = '-' :: rest ∧
      List.Forall₂ (fun char c => UuidChar.accepts char c = true) pattern rest := by
  cases h with
  | cons hc hrest => exact ⟨_, by rw [of_decide_eq_true hc], hrest⟩

/-- The five groups of a spelling. -/
theorem IsSpelling.groups {text : List Char} (h : IsSpelling text) :
    ∃ a b c d e, text = a ++ '-' :: (b ++ '-' :: (c ++ '-' :: (d ++ '-' :: e))) ∧
      a.length = 8 ∧ b.length = 4 ∧ c.length = 4 ∧ d.length = 4 ∧ e.length = 12 ∧
      ∀ digit ∈ a ++ b ++ c ++ d ++ e, digit ∈ hexClass := by
  obtain ⟨a, _, rfl, hlengthA, ha, htailA⟩ := exists_group h
  obtain ⟨_, rfl, hrestA⟩ := exists_hyphen htailA
  obtain ⟨b, _, rfl, hlengthB, hb, htailB⟩ := exists_group hrestA
  obtain ⟨_, rfl, hrestB⟩ := exists_hyphen htailB
  obtain ⟨c, _, rfl, hlengthC, hc, htailC⟩ := exists_group hrestB
  obtain ⟨_, rfl, hrestC⟩ := exists_hyphen htailC
  obtain ⟨d, _, rfl, hlengthD, hd, htailD⟩ := exists_group hrestC
  obtain ⟨_, rfl, hrestD⟩ := exists_hyphen htailD
  rw [← List.append_nil (List.replicate 12 UuidChar.hex)] at hrestD
  obtain ⟨e, last, rfl, hlengthE, he, htailE⟩ := exists_group hrestD
  obtain rfl : last = [] := List.forall₂_nil_left_iff.mp htailE
  refine ⟨a, b, c, d, e, by rw [List.append_nil], hlengthA, hlengthB, hlengthC, hlengthD, hlengthE, ?_⟩
  simp only [List.forall_mem_append]
  exact ⟨⟨⟨⟨ha, hb⟩, hc⟩, hd⟩, he⟩

theorem hexValue_of_mem {c : Char} (h : c ∈ hexClass) :
    ∃ digit, hexValue c = some digit ∧ digit < 16 ∧ digit.digitChar = c.toLower := by
  have hall : (hexClass.all fun c =>
      (hexValue c).any fun digit => digit < 16 ∧ digit.digitChar = c.toLower) = true := by decide
  obtain ⟨digit, hdigit, hspec⟩ := (Option.any_eq_true _ _).mp (List.all_eq_true.mp hall c h)
  exact ⟨digit, hdigit, of_decide_eq_true hspec⟩

theorem exists_digits {text : List Char} (h : ∀ c ∈ text, c ∈ hexClass) :
    ∃ digits, text.filterMap hexValue = digits ∧ digits.length = text.length ∧ (∀ digit ∈ digits, digit < 16) ∧
      digits.map Nat.digitChar = text.map Char.toLower := by
  induction text with
  | nil => exact ⟨[], rfl, rfl, fun digit hdigit => absurd hdigit List.not_mem_nil, rfl⟩
  | cons c text ih =>
      obtain ⟨hc, htext⟩ := List.forall_mem_cons.mp h
      obtain ⟨digit, hvalue, hlt, hchar⟩ := hexValue_of_mem hc
      obtain ⟨digits, hdigits, hlength, hall, hmap⟩ := ih htext
      refine ⟨digit :: digits, ?_, ?_, ?_, ?_⟩
      · rw [List.filterMap_cons_some hvalue, hdigits]
      · rw [List.length_cons, List.length_cons, hlength]
      · exact List.forall_mem_cons.mpr ⟨hlt, hall⟩
      · rw [List.map_cons, List.map_cons, hchar, hmap]

theorem digitsValue_concat (digits : List Nat) (digit : Nat) :
    digitsValue (digits ++ [digit]) = 16 * digitsValue digits + digit :=
  List.foldl_append

theorem digitsValue_lt {digits : List Nat} (h : ∀ digit ∈ digits, digit < 16) :
    digitsValue digits < 16 ^ digits.length := by
  induction digits using List.reverseRecOn with
  | nil => exact Nat.one_pos
  | append_singleton digits digit ih =>
      obtain ⟨hdigits, hdigit⟩ := List.forall_mem_append.mp h
      have hlt := ih hdigits
      have hlast := hdigit digit (List.mem_singleton_self digit)
      rw [digitsValue_concat, List.length_append, List.length_singleton, Nat.pow_succ]
      omega

theorem hexDigits_succ (width value : Nat) :
    hexDigits (width + 1) value = hexDigits width (value / 16) ++ [(value % 16).digitChar] := by
  rw [hexDigits, hexDigits, List.range_succ, List.map_append, List.map_singleton]
  congr 1
  · apply List.map_congr_left
    intro i hi
    have hlt := List.mem_range.mp hi
    have hexponent : width + 1 - 1 - i = width - 1 - i + 1 := by omega
    rw [hexponent, Nat.pow_succ', Nat.div_div_eq_div_mul]
  · simp

/-- The digits of a value are those it was made of. -/
theorem hexDigits_digitsValue {digits : List Nat} (h : ∀ digit ∈ digits, digit < 16) :
    hexDigits digits.length (digitsValue digits) = digits.map Nat.digitChar := by
  induction digits using List.reverseRecOn with
  | nil => rfl
  | append_singleton digits digit ih =>
      obtain ⟨hdigits, hdigit⟩ := List.forall_mem_append.mp h
      have hlast := hdigit digit (List.mem_singleton_self digit)
      have hdiv : (16 * digitsValue digits + digit) / 16 = digitsValue digits := by omega
      have hmod : (16 * digitsValue digits + digit) % 16 = digit := by omega
      rw [digitsValue_concat, List.length_append, List.length_singleton, hexDigits_succ, hdiv, hmod, ih hdigits,
        List.map_append, List.map_singleton]

theorem toList_toString (id : Uuid) {a b c d e : List Char} (ha : a.length = 8) (hb : b.length = 4)
    (hc : c.length = 4) (hd : d.length = 4) (hdigits : hexDigits 32 id.toNat = a ++ b ++ c ++ d ++ e) :
    (Uuid.toString id).toList = a ++ '-' :: (b ++ '-' :: (c ++ '-' :: (d ++ '-' :: e))) := by
  simp [Uuid.toString, hdigits, List.drop_append, ha, hb, hc, hd, List.drop_eq_nil_of_le]

/-- A spelling is read back, and the id it stands for is written like it but for the case of the digits. -/
theorem parseUuid_spec {text : List Char} (h : IsSpelling text) :
    ∃ id, parseUuid text = some id ∧ (Uuid.toString id).toList = text.map Char.toLower := by
  have hscan : scanUuid text = some (text, []) := scanUuid_eq_some_iff.mpr ⟨(List.append_nil text).symm, h⟩
  refine ⟨BitVec.ofNat 128 (digitsValue (text.filterMap hexValue)), by rw [parseUuid, hscan], ?_⟩
  obtain ⟨a, b, c, d, e, rfl, ha, hb, hc, hd, he, hall⟩ := h.groups
  have hhyphen (before after : List Char) :
      (before ++ '-' :: after).filterMap hexValue = (before ++ after).filterMap hexValue := by
    rw [List.filterMap_append, List.filterMap_cons_none (by decide), List.filterMap_append]
  obtain ⟨digits, hdigits, hlength, hlt, hmap⟩ := exists_digits hall
  have hvalue : (a ++ '-' :: (b ++ '-' :: (c ++ '-' :: (d ++ '-' :: e)))).filterMap hexValue = digits := by
    rw [hhyphen, ← List.append_assoc a, hhyphen, ← List.append_assoc, hhyphen, ← List.append_assoc, hhyphen]
    exact hdigits
  have hcount : digits.length = 32 := by simp [hlength, ha, hb, hc, hd, he]
  have hnat : (BitVec.ofNat 128 (digitsValue digits)).toNat = digitsValue digits := by
    apply Nat.mod_eq_of_lt
    have hbound := digitsValue_lt hlt
    rwa [hcount] at hbound
  rw [hvalue]
  have htext : hexDigits 32 (BitVec.ofNat 128 (digitsValue digits)).toNat =
      a.map Char.toLower ++ b.map Char.toLower ++ c.map Char.toLower ++ d.map Char.toLower ++
        e.map Char.toLower := by
    rw [hnat, ← hcount, hexDigits_digitsValue hlt, hmap]
    simp
  rw [toList_toString _ (by simpa) (by simpa) (by simpa) (by simpa) htext]
  simp

/-! ### What links to what -/

theorem mem_pushLink {ownId id : Uuid} {links : List Uuid} {text : List Char} :
    id ∈ pushLink ownId links text ↔ id ∈ links ∨ id ≠ ownId ∧ parseUuid text = some id := by
  rw [pushLink]
  cases hparse : parseUuid text with
  | none => simp
  | some uuid =>
      dsimp only
      rw [Option.some.injEq]
      by_cases hnew : uuid ≠ ownId ∧ uuid ∉ links
      · rw [if_pos hnew, List.mem_append, List.mem_singleton]
        constructor
        · rintro (hlinks | rfl)
          · exact .inl hlinks
          · exact .inr ⟨hnew.1, rfl⟩
        · rintro (hlinks | ⟨-, rfl⟩)
          · exact .inl hlinks
          · exact .inr rfl
      · rw [if_neg hnew]
        constructor
        · exact .inl
        · rintro (hlinks | ⟨hne, rfl⟩)
          · exact hlinks
          · exact not_not.mp fun hnot => hnew ⟨hne, hnot⟩

theorem nodup_pushLink {ownId : Uuid} {links : List Uuid} {text : List Char} (h : links.Nodup) :
    (pushLink ownId links text).Nodup := by
  rw [pushLink]
  split
  next uuid _ =>
    split
    next hnew => exact h.append (List.nodup_singleton uuid) (List.disjoint_singleton.mpr hnew.2)
    next => exact h
  next => exact h

theorem nodup_extractCardLinks (content : String) (ownId : Uuid) : (extractCardLinks content ownId).Nodup := by
  have hrun (texts : List (List Char)) : ∀ links : List Uuid, links.Nodup →
      (texts.foldl (pushLink ownId) links).Nodup := by
    induction texts with
    | nil => exact fun links h => h
    | cons text texts ih => exact fun links h => ih _ (nodup_pushLink h)
  exact hrun _ [] .nil

/-- The ids other than the own one that a spelling in the content stands for. -/
theorem mem_extractCardLinks {content : String} {ownId id : Uuid} :
    id ∈ extractCardLinks content ownId ↔
      id ≠ ownId ∧ ∃ text ∈ uuidMatches content.toList, parseUuid text = some id := by
  have hrun (texts : List (List Char)) : ∀ links : List Uuid,
      (id ∈ texts.foldl (pushLink ownId) links ↔
        id ∈ links ∨ id ≠ ownId ∧ ∃ text ∈ texts, parseUuid text = some id) := by
    induction texts with
    | nil => simp
    | cons text texts ih =>
        intro links
        rw [List.foldl_cons, ih, mem_pushLink]
        simp only [List.mem_cons, exists_eq_or_imp]
        tauto
  exact (hrun _ []).trans (or_iff_right List.not_mem_nil)

theorem mem_extractBackLinks {cards : List Card} {cardId id : Uuid} :
    id ∈ extractBackLinks cardId cards ↔
      ∃ card ∈ cards, card.id = id ∧ id ≠ cardId ∧ (Uuid.toString cardId).toList <:+: card.content.toList ∧
        cardId ∈ extractCardLinks card.content card.id := by
  simp only [extractBackLinks, List.mem_map, List.mem_filter, decide_eq_true_eq]
  constructor
  · rintro ⟨card, ⟨hcard, hne, hneedle, hlink⟩, rfl⟩
    exact ⟨card, hcard, rfl, hne, hneedle, hlink⟩
  · rintro ⟨card, hcard, rfl, hne, hneedle, hlink⟩
    exact ⟨card, ⟨hcard, hne, hneedle, hlink⟩, rfl⟩

end BlazeList
