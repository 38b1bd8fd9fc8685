import Mathlib.Data.List.Basic
import Mathlib.Tactic.Common

/-!
# Form encoding

`application/x-www-form-urlencoded`: a list of names and values, all of them bytes, written as one
text, and the text read back.
-/

namespace FormUrlEncoded

abbrev Bytes := List UInt8

def space : UInt8 := 0x20

def plus : UInt8 := 0x2B

def percent : UInt8 := 0x25

def ampersand : UInt8 := 0x26

def equals : UInt8 := 0x3D

/-- The bytes that stand for themselves: letters, digits, and `*`, `-`, `.` and `_`. -/
def isPlain (byte : UInt8) : Bool :=
  (0x30 ≤ byte && byte ≤ 0x39) || (0x41 ≤ byte && byte ≤ 0x5A) || (0x61 ≤ byte && byte ≤ 0x7A) ||
    byte == 0x2A || byte == 0x2D || byte == 0x2E || byte == 0x5F

def hexDigit (value : UInt8) : UInt8 := if value < 10 then 0x30 + value else 0x37 + value

def hexValue (byte : UInt8) : Option UInt8 :=
  if 0x30 ≤ byte ∧ byte ≤ 0x39 then some (byte - 0x30)
  else if 0x41 ≤ byte ∧ byte ≤ 0x46 then some (byte - 0x37)
  else if 0x61 ≤ byte ∧ byte ≤ 0x66 then some (byte - 0x57)
  else none

/-! ### Writing -/

def encodeByte (byte : UInt8) : Bytes :=
  if byte = space then [plus]
  else if isPlain byte then [byte]
  else [percent, hexDigit (byte / 16), hexDigit (byte % 16)]

def encode (bytes : Bytes) : Bytes := bytes.flatMap encodeByte

def encodePair (pair : Bytes × Bytes) : Bytes := encode pair.1 ++ equals :: encode pair.2

def serialize (pairs : List (Bytes × Bytes)) : Bytes := [ampersand].intercalate (pairs.map encodePair)

/-! ### Reading -/

/-- A percent sign that no two digits follow stands for itself. -/
def percentDecode : Bytes → Bytes
  | first :: second :: third :: rest =>
      if first = percent then
        match hexValue second, hexValue third with
        | some high, some low => (16 * high + low) :: percentDecode rest
        | _, _ => first :: percentDecode (second :: third :: rest)
      else
        first :: percentDecode (second :: third :: rest)
  | short => short

def plusToSpace (byte : UInt8) : UInt8 := if byte = plus then space else byte

def decode (bytes : Bytes) : Bytes := percentDecode (bytes.map plusToSpace)

/-- A part without `=` is a name with an empty value. -/
def decodePair (part : Bytes) : Bytes × Bytes :=
  (decode (part.takeWhile (· ≠ equals)), decode (part.dropWhile (· ≠ equals)).tail)

def parse (text : Bytes) : List (Bytes × Bytes) :=
  ((text.splitOn ampersand).filter (· ≠ [])).map decodePair

/-! ### One byte -/

theorem high_lt (byte : UInt8) : byte / 16 < 16 := by
  apply UInt8.lt_iff_toNat_lt.mpr
  have hlt := byte.toNat_lt
  simp only [UInt8.toNat_div]
  exact Nat.div_lt_of_lt_mul hlt

theorem low_lt (byte : UInt8) : byte % 16 < 16 := by
  apply UInt8.lt_iff_toNat_lt.mpr
  simp only [UInt8.toNat_mod]
  exact Nat.mod_lt _ (by decide)

theorem hexValue_hexDigit {value : UInt8} (h : value < 16) : hexValue (hexDigit value) = some value := by
  have htable : ∀ digit : Fin 16, hexValue (hexDigit (UInt8.ofNat digit)) = some (UInt8.ofNat digit) := by
    decide
  simpa using htable ⟨value.toNat, h⟩

/-- A digit is plain: it is neither a separator nor a sign. -/
theorem isPlain_hexDigit {value : UInt8} (h : value < 16) : isPlain (hexDigit value) = true := by
  have htable : ∀ digit : Fin 16, isPlain (hexDigit (UInt8.ofNat digit)) = true := by decide
  simpa using htable ⟨value.toNat, h⟩

theorem ne_of_isPlain {byte sign : UInt8} (h : isPlain byte = true) (hsign : isPlain sign = false) :
    byte ≠ sign := by
  intro heq
  rw [heq, hsign] at h
  cases h

theorem plusToSpace_of_isPlain {byte : UInt8} (h : isPlain byte = true) : plusToSpace byte = byte :=
  if_neg (ne_of_isPlain h rfl)

theorem percentDecode_cons_of_ne {first : UInt8} (h : first ≠ percent) (rest : Bytes) :
    percentDecode (first :: rest) = first :: percentDecode rest := by
  cases rest with
  | nil => rfl
  | cons second rest =>
      cases rest with
      | nil => rfl
      | cons third rest => rw [percentDecode, if_neg h]

/-- The bytes that one byte is written as are read back as that byte. -/
theorem decode_encodeByte_append (byte : UInt8) (rest : Bytes) :
    decode (encodeByte byte ++ rest) = byte :: decode rest := by
  have hhigh := isPlain_hexDigit (high_lt byte)
  have hlow := isPlain_hexDigit (low_lt byte)
  unfold decode encodeByte
  split
  · rename_i hspace
    rw [hspace, List.singleton_append, List.map_cons]
    exact percentDecode_cons_of_ne (by decide) _
  · split
    · rename_i hplain
      rw [List.singleton_append, List.map_cons, plusToSpace_of_isPlain hplain]
      exact percentDecode_cons_of_ne (ne_of_isPlain hplain rfl) _
    · have hvalue : 16 * (byte / 16) + byte % 16 = byte := by
        apply UInt8.toNat_inj.mp
        have hlt := byte.toNat_lt
        simp only [UInt8.toNat_add, UInt8.toNat_mul, UInt8.toNat_div, UInt8.toNat_mod, UInt8.reduceToNat]
        omega
      simp only [List.cons_append, List.nil_append, List.map_cons]
      rw [plusToSpace_of_isPlain hhigh, plusToSpace_of_isPlain hlow, show plusToSpace percent = percent from rfl,
        percentDecode, if_pos rfl, hexValue_hexDigit (high_lt byte), hexValue_hexDigit (low_lt byte)]
      exact congrArg (· :: _) hvalue

theorem not_mem_encodeByte {byte sign : UInt8} (hsign : isPlain sign = false) (hplus : sign ≠ plus)
    (hpercent : sign ≠ percent) : sign ∉ encodeByte byte := by
  have hhigh := ne_of_isPlain (isPlain_hexDigit (high_lt byte)) hsign
  have hlow := ne_of_isPlain (isPlain_hexDigit (low_lt byte)) hsign
  unfold encodeByte
  split
  · simpa using hplus
  · split
    · rename_i hplain
      simpa using (ne_of_isPlain hplain hsign).symm
    · simpa using ⟨hpercent, hhigh.symm, hlow.symm⟩

/-! ### Names and values -/

theorem decode_encode (bytes : Bytes) : decode (encode bytes) = bytes := by
  induction bytes with
  | nil => rfl
  | cons byte rest ih =>
      calc
        decode (encode (byte :: rest)) = decode (encodeByte byte ++ encode rest) := by
          rw [encode, List.flatMap_cons, encode]
        _ = byte :: decode (encode rest) := decode_encodeByte_append byte (encode rest)
        _ = byte :: rest := by rw [ih]

theorem not_mem_encode {sign : UInt8} (hsign : isPlain sign = false) (hplus : sign ≠ plus)
    (hpercent : sign ≠ percent) (bytes : Bytes) : sign ∉ encode bytes := by
  intro hmem
  obtain ⟨byte, -, hbyte⟩ := List.mem_flatMap.mp hmem
  exact not_mem_encodeByte hsign hplus hpercent hbyte

theorem decodePair_encodePair (pair : Bytes × Bytes) : decodePair (encodePair pair) = pair := by
  have hname : ∀ byte ∈ encode pair.1, decide (byte ≠ equals) = true := by
    intro byte hbyte
    apply decide_eq_true
    intro heq
    exact not_mem_encode rfl (by decide) (by decide) pair.1 (heq ▸ hbyte)
  unfold decodePair encodePair
  rw [List.takeWhile_append_of_pos hname, List.dropWhile_append_of_pos hname]
  simp [decode_encode]

theorem ampersand_not_mem_encodePair (pair : Bytes × Bytes) : ampersand ∉ encodePair pair := by
  unfold encodePair
  rw [List.mem_append, List.mem_cons]
  rintro (hname | heq | hvalue)
  · exact not_mem_encode rfl (by decide) (by decide) _ hname
  · exact absurd heq (by decide)
  · exact not_mem_encode rfl (by decide) (by decide) _ hvalue

/-- What is written is read back. -/
theorem parse_serialize (pairs : List (Bytes × Bytes)) : parse (serialize pairs) = pairs := by
  cases pairs with
  | nil => rfl
  | cons pair rest =>
      have hparts : ∀ part ∈ (pair :: rest).map encodePair, ampersand ∉ part := by
        intro part hpart
        obtain ⟨other, -, rfl⟩ := List.mem_map.mp hpart
        exact ampersand_not_mem_encodePair other
      have hne : ∀ part ∈ (pair :: rest).map encodePair, decide (part ≠ []) = true := by
        intro part hpart
        obtain ⟨other, -, rfl⟩ := List.mem_map.mp hpart
        exact decide_eq_true (List.append_ne_nil_of_right_ne_nil _ (List.cons_ne_nil _ _))
      calc
        parse (serialize (pair :: rest)) =
            (((pair :: rest).map encodePair).filter (· ≠ [])).map decodePair := by
          rw [parse, serialize, List.splitOn_intercalate ampersand hparts (List.cons_ne_nil _ _)]
        _ = ((pair :: rest).map encodePair).map decodePair := by
          rw [List.filter_eq_self.mpr hne]
        _ = pair :: rest := by
          rw [List.map_map, show decodePair ∘ encodePair = id from funext decodePair_encodePair, List.map_id]

end FormUrlEncoded
