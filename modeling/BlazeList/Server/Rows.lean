import Mathlib.Data.List.OfFn
import BlazeList.Protocol.Serialization
import BlazeList.Server.SequenceHistory

/-!
# Columns

The tables keep an entity in columns: ids, digests and lists of ids are bytes, times are milliseconds. A row of the
tables above holds the entity itself. Here it is written into columns and read back from them.
-/

namespace BlazeList

inductive SqlValue where
  | null
  | integer (value : Int)
  | text (text : String)
  | blob (bytes : List UInt8)
  deriving DecidableEq

def SqlValue.typeName : SqlValue → String
  | .null => "Null"
  | .integer _ => "Integer"
  | .text _ => "Text"
  | .blob _ => "Blob"

/-- A row is read into an entity, or it is an error of the database, or the server gives up. -/
inductive RowFailure where
  | sql (error : SqlError)
  | panic (message : String)
  deriving DecidableEq

abbrev SqlRow := List (String × SqlValue)

/-! ### Bytes -/

def ofBytesBE (n : Nat) (bytes : List UInt8) : BitVec (8 * n) :=
  BitVec.ofNat (8 * n) (bytes.foldl (fun value byte => 256 * value + byte.toNat) 0)

theorem foldl_ofFn_bytes (n value : Nat) :
    (List.ofFn fun i : Fin n => UInt8.ofNat (value / 2 ^ (8 * (n - 1 - i.val)))).foldl
      (fun value byte => 256 * value + byte.toNat) 0 = value % 2 ^ (8 * n) := by
  induction n generalizing value with
  | zero => simp [Nat.mod_one]
  | succ n ih =>
      have hfront : (fun i : Fin n => UInt8.ofNat (value / 2 ^ (8 * (n + 1 - 1 - i.castSucc.val)))) =
          fun i : Fin n => UInt8.ofNat (value / 256 / 2 ^ (8 * (n - 1 - i.val))) := by
        funext i
        have hexponent : 8 * (n + 1 - 1 - i.castSucc.val) = 8 + 8 * (n - 1 - i.val) := by
          rw [Fin.val_castSucc]
          omega
        rw [hexponent, Nat.pow_add, Nat.div_div_eq_div_mul]
      have hlast : (UInt8.ofNat (value / 2 ^ (8 * (n + 1 - 1 - (Fin.last n).val)))).toNat = value % 256 := by
        simp
      rw [List.ofFn_succ_last, List.foldl_append, hfront, ih, List.foldl_cons, List.foldl_nil, hlast]
      calc
        256 * (value / 256 % 2 ^ (8 * n)) + value % 256 = value % 256 + 256 * (value / 256 % 2 ^ (8 * n)) :=
          Nat.add_comm _ _
        _ = value % (256 * 2 ^ (8 * n)) := (Nat.mod_mul).symm
        _ = value % 2 ^ (8 * (n + 1)) := by rw [Nat.mul_add, Nat.pow_add, Nat.mul_comm]

@[simp]
theorem ofBytesBE_bytesBE (n : Nat) (value : BitVec (8 * n)) : ofBytesBE n (bytesBE n value) = value := by
  have hbytes : bytesBE n value =
      List.ofFn fun i : Fin n => UInt8.ofNat (value.toNat / 2 ^ (8 * (n - 1 - i.val))) := by
    simp only [bytesBE, ofBitVec_extractLsb']
  apply BitVec.eq_of_toNat_eq
  rw [ofBytesBE, BitVec.toNat_ofNat, hbytes, foldl_ofFn_bytes, Nat.mod_mod, Nat.mod_eq_of_lt value.isLt]

/-! ### The values of the columns -/

def uuidFromBytes (bytes : List UInt8) : Except RowFailure Uuid :=
  if bytes.length = 16 then .ok (ofBytesBE 16 bytes)
  else .error (.panic "called `Result::unwrap()` on an `Err` value: TryFromSliceError(())")

def hashFromBytes (bytes : List UInt8) : Except RowFailure Hash :=
  if bytes.length = 32 then .ok (ofBytesBE 32 bytes) else .error (.panic "hash must be 32 bytes")

def serializeTags (tags : List Uuid) : List UInt8 := Postcard.vec Postcard.uuid tags

def readUuid (bytes : List UInt8) : Option (Uuid × List UInt8) :=
  match readVarint bytes with
  | some (len, rest) =>
      if len = 16 ∧ 16 ≤ rest.length then some (ofBytesBE 16 (rest.take 16), rest.drop 16) else none
  | none => none

def readUuids : Nat → List UInt8 → Option (List Uuid)
  | 0, _ => some []
  | n + 1, bytes =>
      match readUuid bytes with
      | some (id, rest) => (readUuids n rest).map (id :: ·)
      | none => none

/-- Bytes after the last id are not looked at. -/
def deserializeIds (message : String) (bytes : List UInt8) : Except RowFailure (List Uuid) :=
  match (readVarint bytes).bind fun found => readUuids found.1 found.2 with
  | some ids => .ok ids
  | none => .error (.panic message)

def deserializeTags : List UInt8 → Except RowFailure (List Uuid) :=
  deserializeIds "tag deserialization should not fail"

def serializeImplies (implies : List Uuid) : List UInt8 := Postcard.vec Postcard.uuid implies

def deserializeImplies : List UInt8 → Except RowFailure (List Uuid) :=
  deserializeIds "implies deserialization should not fail"

def timeFromMillis (millis : Int) : Except RowFailure DateTime :=
  match DateTime.fromTimestampMillis millis with
  | some time => .ok time
  | none => .error (.panic "called `Option::unwrap()` on a `None` value")

def countFromRaw (index : Nat) (raw : Int) : Except RowFailure NonNegativeI64 :=
  match if 0 ≤ raw then NonNegativeI64.tryFrom raw.toNat else none with
  | some count => .ok count
  | none => .error (.sql (.fromSqlConversionFailure index "Integer" "value must be non-negative"))

@[simp]
theorem uuidFromBytes_asBytes (id : Uuid) : uuidFromBytes id.asBytes = .ok id := by
  have hlength : id.asBytes.length = 16 := length_bytesBE 16 id
  rw [uuidFromBytes, if_pos hlength]
  exact congrArg Except.ok (ofBytesBE_bytesBE 16 id)

@[simp]
theorem hashFromBytes_asBytes (hash : Hash) : hashFromBytes (Hash.asBytes hash) = .ok hash := by
  have hlength : (Hash.asBytes hash).length = 32 := length_bytesBE 32 hash
  rw [hashFromBytes, if_pos hlength]
  exact congrArg Except.ok (ofBytesBE_bytesBE 32 hash)

theorem readUuid_uuid (id : Uuid) (rest : List UInt8) :
    readUuid (Postcard.uuid id ++ rest) = some (id, rest) := by
  have hlength : id.asBytes.length = 16 := length_bytesBE 16 id
  have hroom : 16 ≤ (id.asBytes ++ rest).length := by
    rw [List.length_append, hlength]
    exact Nat.le_add_right 16 rest.length
  have htake : (id.asBytes ++ rest).take 16 = id.asBytes := List.take_left' hlength
  have hdrop : (id.asBytes ++ rest).drop 16 = rest := List.drop_left' hlength
  rw [readUuid, Postcard.uuid, List.append_assoc, readVarint_varint]
  simp only [hroom, and_self, if_true, htake, hdrop]
  exact congrArg (fun found => some (found, rest)) (ofBytesBE_bytesBE 16 id)

theorem readUuids_flatMap (ids : List Uuid) (rest : List UInt8) :
    readUuids ids.length (ids.flatMap Postcard.uuid ++ rest) = some ids := by
  induction ids with
  | nil => rfl
  | cons id ids ih =>
      rw [List.length_cons, List.flatMap_cons, List.append_assoc, readUuids, readUuid_uuid]
      simp only [ih, Option.map_some]

theorem deserializeIds_vec (message : String) (ids : List Uuid) :
    deserializeIds message (Postcard.vec Postcard.uuid ids) = .ok ids := by
  have hread := readUuids_flatMap ids []
  rw [List.append_nil] at hread
  rw [deserializeIds, Postcard.vec, readVarint_varint]
  simp only [Option.bind_some, hread]

@[simp]
theorem deserializeTags_serializeTags (tags : List Uuid) : deserializeTags (serializeTags tags) = .ok tags :=
  deserializeIds_vec _ tags

@[simp]
theorem deserializeImplies_serializeImplies (implies : List Uuid) :
    deserializeImplies (serializeImplies implies) = .ok implies :=
  deserializeIds_vec _ implies

@[simp]
theorem timeFromMillis_timestampMillis (time : DateTime) : timeFromMillis time.timestampMillis = .ok time := by
  simp [timeFromMillis, DateTime.fromTimestampMillis, time.inRange]

@[simp]
theorem countFromRaw_val (index : Nat) (count : NonNegativeI64) : countFromRaw index count.val = .ok count := by
  simp [countFromRaw, NonNegativeI64.tryFrom, count.le_max]

/-! ### Reading columns -/

def getColumn (row : SqlRow) (index : Nat) : Except RowFailure (String × SqlValue) :=
  match row[index]? with
  | some column => .ok column
  | none => .error (.sql (.sqliteFailure ("Invalid column index: " ++ toString index)))

def wrongType {α : Type} (index : Nat) (column : String × SqlValue) : Except RowFailure α :=
  .error (.sql (.invalidColumnType index column.1 column.2.typeName))

def getBlob (row : SqlRow) (index : Nat) : Except RowFailure (List UInt8) := do
  let column ← getColumn row index
  match column.2 with
  | .blob bytes => .ok bytes
  | _ => wrongType index column

def getText (row : SqlRow) (index : Nat) : Except RowFailure String := do
  let column ← getColumn row index
  match column.2 with
  | .text text => .ok text
  | _ => wrongType index column

/-- What the database calls an integer has 64 bits. -/
def getI64 (row : SqlRow) (index : Nat) : Except RowFailure I64 := do
  let column ← getColumn row index
  match column.2 with
  | .integer value =>
      if h : i64Min ≤ value ∧ value ≤ i64Max then .ok ⟨value, h⟩ else wrongType index column
  | _ => wrongType index column

def getBoolean (row : SqlRow) (index : Nat) : Except RowFailure Bool := do
  let value ← getI64 row index
  return value.val ≠ 0

def getOptional {α : Type} (get : SqlRow → Nat → Except RowFailure α) (row : SqlRow) (index : Nat) :
    Except RowFailure (Option α) := do
  let column ← getColumn row index
  if column.2 = .null then .ok none else some <$> get row index

def selectRow (columns : List String) (row : SqlRow) : Except RowFailure SqlRow :=
  columns.mapM fun name =>
    match row.lookup name with
    | some value => .ok (name, value)
    | none => .error (.sql (.sqliteFailure ("no such column: " ++ name)))

/-! ### Cards -/

def cardCols : List String :=
  ["id", "content", "priority", "tags", "blazed", "created_at", "modified_at", "due_date", "count",
    "ancestor_hash", "hash"]

def cardVersionCols : List String :=
  ["card_id", "content", "priority", "tags", "blazed", "created_at", "modified_at", "due_date", "count",
    "ancestor_hash", "hash"]

def cardVersionRow (card : Card) : SqlRow :=
  List.zip
    ["card_id", "count", "content", "priority", "tags", "blazed", "created_at", "modified_at", "due_date",
      "ancestor_hash", "hash"]
    [.blob card.id.asBytes, .integer card.count.val, .text card.content, .integer card.priority.val,
      .blob (serializeTags card.tags), .integer (if card.blazed then 1 else 0),
      .integer card.createdAt.timestampMillis, .integer card.modifiedAt.timestampMillis,
      (card.dueDate.map fun time => .integer time.timestampMillis).getD .null,
      .blob (Hash.asBytes card.ancestorHash), .blob (Hash.asBytes card.hash)]

def cardRow (card : Card) : SqlRow :=
  List.zip
    ["id", "content", "priority", "tags", "blazed", "created_at", "modified_at", "due_date", "count",
      "ancestor_hash", "hash", "bucket"]
    [.blob card.id.asBytes, .text card.content, .integer card.priority.val, .blob (serializeTags card.tags),
      .integer (if card.blazed then 1 else 0), .integer card.createdAt.timestampMillis,
      .integer card.modifiedAt.timestampMillis,
      (card.dueDate.map fun time => .integer time.timestampMillis).getD .null,
      .integer card.count.val, .blob (Hash.asBytes card.ancestorHash), .blob (Hash.asBytes card.hash),
      .integer (bucketOf card.id).val]

def cardFromSqlRow [Blake3] (row : SqlRow) : Except RowFailure Card := do
  let idBytes ← getBlob row 0
  let content ← getText row 1
  let priority ← getI64 row 2
  let tagsBytes ← getBlob row 3
  let blazed ← getBoolean row 4
  let createdAtMs ← getI64 row 5
  let modifiedAtMs ← getI64 row 6
  let dueDateMs ← getOptional getI64 row 7
  let countRaw ← getI64 row 8
  let ancestorHashBytes ← getBlob row 9
  let hashBytes ← getBlob row 10
  let id ← uuidFromBytes idBytes
  let count ← countFromRaw 8 countRaw.val
  let tags ← deserializeTags tagsBytes
  let createdAt ← timeFromMillis createdAtMs.val
  let modifiedAt ← timeFromMillis modifiedAtMs.val
  let ancestorHash ← hashFromBytes ancestorHashBytes
  let hash ← hashFromBytes hashBytes
  let dueDate ← dueDateMs.mapM fun millis => timeFromMillis millis.val
  (cardFromRow
    { id, content, priority, tags, blazed, createdAt, modifiedAt, dueDate, count, ancestorHash, hash }).mapError .sql

/-! ### Tags -/

def tagCols : List String :=
  ["id", "title", "color", "created_at", "modified_at", "count", "ancestor_hash", "hash", "implies"]

def tagVersionCols : List String :=
  ["tag_id", "title", "color", "created_at", "modified_at", "count", "ancestor_hash", "hash", "implies"]

def tagVersionRow (tag : Tag) : SqlRow :=
  List.zip
    ["tag_id", "count", "title", "color", "created_at", "modified_at", "ancestor_hash", "hash", "implies"]
    [.blob tag.id.asBytes, .integer tag.count.val, .text tag.title,
      (tag.color.map fun color => .blob [color.r, color.g, color.b]).getD .null,
      .integer tag.createdAt.timestampMillis, .integer tag.modifiedAt.timestampMillis,
      .blob (Hash.asBytes tag.ancestorHash), .blob (Hash.asBytes tag.hash), .blob (serializeImplies tag.implies)]

def tagRow (tag : Tag) : SqlRow :=
  List.zip
    ["id", "title", "color", "created_at", "modified_at", "count", "ancestor_hash", "hash", "implies", "bucket"]
    [.blob tag.id.asBytes, .text tag.title,
      (tag.color.map fun color => .blob [color.r, color.g, color.b]).getD .null,
      .integer tag.createdAt.timestampMillis, .integer tag.modifiedAt.timestampMillis, .integer tag.count.val,
      .blob (Hash.asBytes tag.ancestorHash), .blob (Hash.asBytes tag.hash), .blob (serializeImplies tag.implies),
      .integer (bucketOf tag.id).val]

/-- Bytes after the first three are not looked at. -/
def colorFromBytes : List UInt8 → Except RowFailure Rgb8
  | r :: g :: b :: _ => .ok ⟨r, g, b⟩
  | _ => .error (.panic "index out of bounds")

def tagFromSqlRow [Blake3] (row : SqlRow) : Except RowFailure Tag := do
  let idBytes ← getBlob row 0
  let title ← getText row 1
  let colorBytes ← getOptional getBlob row 2
  let color ← colorBytes.mapM colorFromBytes
  let createdAtMs ← getI64 row 3
  let modifiedAtMs ← getI64 row 4
  let countRaw ← getI64 row 5
  let ancestorHashBytes ← getBlob row 6
  let hashBytes ← getBlob row 7
  let impliesBytes ← getBlob row 8
  let id ← uuidFromBytes idBytes
  let count ← countFromRaw 5 countRaw.val
  let createdAt ← timeFromMillis createdAtMs.val
  let modifiedAt ← timeFromMillis modifiedAtMs.val
  let ancestorHash ← hashFromBytes ancestorHashBytes
  let hash ← hashFromBytes hashBytes
  let implies ← deserializeImplies impliesBytes
  (tagFromRow { id, title, color, createdAt, modifiedAt, count, ancestorHash, hash, implies }).mapError .sql

/-! ### What is written is read -/

section

variable {row : SqlRow} {index : Nat}

theorem ok_bind {α β : Type} (value : α) (next : α → Except RowFailure β) :
    (Except.ok value >>= next) = next value := rfl

theorem getColumn_of_value {value : SqlValue} (h : (row.map Prod.snd)[index]? = some value) :
    ∃ name, getColumn row index = .ok (name, value) := by
  rw [List.getElem?_map, Option.map_eq_some_iff] at h
  obtain ⟨⟨name, found⟩, hcolumn, rfl⟩ := h
  exact ⟨name, by rw [getColumn, hcolumn]⟩

theorem getBlob_of_value {bytes : List UInt8} (h : (row.map Prod.snd)[index]? = some (.blob bytes)) :
    getBlob row index = .ok bytes := by
  obtain ⟨name, hcolumn⟩ := getColumn_of_value h
  rw [getBlob, hcolumn]
  rfl

theorem getText_of_value {text : String} (h : (row.map Prod.snd)[index]? = some (.text text)) :
    getText row index = .ok text := by
  obtain ⟨name, hcolumn⟩ := getColumn_of_value h
  rw [getText, hcolumn]
  rfl

theorem getI64_of_value {value : Int} (hrange : i64Min ≤ value ∧ value ≤ i64Max)
    (h : (row.map Prod.snd)[index]? = some (.integer value)) : getI64 row index = .ok ⟨value, hrange⟩ := by
  obtain ⟨name, hcolumn⟩ := getColumn_of_value h
  rw [getI64, hcolumn]
  exact dif_pos hrange

theorem getBoolean_of_value {flag : Bool}
    (h : (row.map Prod.snd)[index]? = some (.integer (if flag then 1 else 0))) :
    getBoolean row index = .ok flag := by
  cases flag with
  | false =>
      rw [getBoolean, getI64_of_value zero_mem_i64 h]
      rfl
  | true =>
      rw [getBoolean, getI64_of_value one_mem_i64 h]
      rfl

theorem getOptional_null {α : Type} {get : SqlRow → Nat → Except RowFailure α}
    (h : (row.map Prod.snd)[index]? = some .null) : getOptional get row index = .ok none := by
  obtain ⟨name, hcolumn⟩ := getColumn_of_value h
  rw [getOptional, hcolumn]
  rfl

theorem getOptional_of_value {α : Type} {get : SqlRow → Nat → Except RowFailure α} {value : SqlValue}
    {read : α} (h : (row.map Prod.snd)[index]? = some value) (hnull : value ≠ .null)
    (hget : get row index = .ok read) : getOptional get row index = .ok (some read) := by
  obtain ⟨name, hcolumn⟩ := getColumn_of_value h
  rw [getOptional, hcolumn]
  change (if value = .null then _ else some <$> get row index) = _
  rw [if_neg hnull, hget]
  rfl

/-- A column that may be empty is read back when its values are. -/
theorem getOptional_map {α β : Type} {get : SqlRow → Nat → Except RowFailure α} {toSql : β → SqlValue} {read : β → α}
    {written : Option β} (h : (row.map Prod.snd)[index]? = some ((written.map toSql).getD .null))
    (hnull : ∀ value, toSql value ≠ .null)
    (hget : ∀ value, (row.map Prod.snd)[index]? = some (toSql value) → get row index = .ok (read value)) :
    getOptional get row index = .ok (written.map read) := by
  cases written with
  | none => exact getOptional_null h
  | some value => exact getOptional_of_value h (hnull value) (hget value h)

end

theorem DateTime.mem_i64 (time : DateTime) :
    i64Min ≤ time.timestampMillis ∧ time.timestampMillis ≤ i64Max := by
  have hrange := time.inRange
  unfold i64Min i64Max
  omega

theorem NonNegativeI64.mem_i64 (count : NonNegativeI64) :
    i64Min ≤ (count.val : Int) ∧ (count.val : Int) ≤ i64Max := by
  have hmax := count.le_max
  unfold i64Min i64Max
  omega

def cardValues (card : Card) : List SqlValue :=
  [.blob card.id.asBytes, .text card.content, .integer card.priority.val, .blob (serializeTags card.tags),
    .integer (if card.blazed then 1 else 0), .integer card.createdAt.timestampMillis,
    .integer card.modifiedAt.timestampMillis,
    (card.dueDate.map fun time => .integer time.timestampMillis).getD .null,
    .integer card.count.val, .blob (Hash.asBytes card.ancestorHash), .blob (Hash.asBytes card.hash)]

def tagValues (tag : Tag) : List SqlValue :=
  [.blob tag.id.asBytes, .text tag.title,
    (tag.color.map fun color => .blob [color.r, color.g, color.b]).getD .null,
    .integer tag.createdAt.timestampMillis, .integer tag.modifiedAt.timestampMillis, .integer tag.count.val,
    .blob (Hash.asBytes tag.ancestorHash), .blob (Hash.asBytes tag.hash), .blob (serializeImplies tag.implies)]

theorem selectRow_of_lookup {row : SqlRow} {columns : List String} {values : List SqlValue}
    (h : List.Forall₂ (fun name value => row.lookup name = some value) columns values) :
    selectRow columns row = .ok (columns.zip values) := by
  induction h with
  | nil => rfl
  | cons hvalue _ ih =>
      rw [selectRow] at ih ⊢
      rw [List.mapM_cons, hvalue, ih]
      rfl

theorem selectRow_cardRow (card : Card) :
    selectRow cardCols (cardRow card) = .ok (cardCols.zip (cardValues card)) := by
  apply selectRow_of_lookup
  simp [cardCols, cardRow, cardValues, List.lookup_cons]

theorem selectRow_cardVersionRow (card : Card) :
    selectRow cardVersionCols (cardVersionRow card) = .ok (cardVersionCols.zip (cardValues card)) := by
  apply selectRow_of_lookup
  simp [cardVersionCols, cardVersionRow, cardValues, List.lookup_cons]

theorem selectRow_tagRow (tag : Tag) :
    selectRow tagCols (tagRow tag) = .ok (tagCols.zip (tagValues tag)) := by
  apply selectRow_of_lookup
  simp [tagCols, tagRow, tagValues, List.lookup_cons]

theorem selectRow_tagVersionRow (tag : Tag) :
    selectRow tagVersionCols (tagVersionRow tag) = .ok (tagVersionCols.zip (tagValues tag)) := by
  apply selectRow_of_lookup
  simp [tagVersionCols, tagVersionRow, tagValues, List.lookup_cons]

section

variable [Blake3] {row : SqlRow}

theorem cardFromSqlRow_of_values {card : Card} (h : row.map Prod.snd = cardValues card) :
    cardFromSqlRow row = (cardFromRow card).mapError .sql := by
  have hid : getBlob row 0 = .ok card.id.asBytes := getBlob_of_value (h ▸ rfl)
  have hcontent : getText row 1 = .ok card.content := getText_of_value (h ▸ rfl)
  have hpriority : getI64 row 2 = .ok card.priority := getI64_of_value card.priority.property (h ▸ rfl)
  have htags : getBlob row 3 = .ok (serializeTags card.tags) := getBlob_of_value (h ▸ rfl)
  have hblazed : getBoolean row 4 = .ok card.blazed := getBoolean_of_value (h ▸ rfl)
  have hcreated : getI64 row 5 = .ok ⟨_, card.createdAt.mem_i64⟩ := getI64_of_value _ (h ▸ rfl)
  have hmodified : getI64 row 6 = .ok ⟨_, card.modifiedAt.mem_i64⟩ := getI64_of_value _ (h ▸ rfl)
  have hdueValue : (row.map Prod.snd)[7]? =
      some ((card.dueDate.map fun time => .integer time.timestampMillis).getD .null) := h ▸ rfl
  have hdue : getOptional getI64 row 7 = .ok (card.dueDate.map fun time => ⟨time.timestampMillis, time.mem_i64⟩) :=
    getOptional_map hdueValue (fun _ => nofun) fun time => getI64_of_value time.mem_i64
  have hcount : getI64 row 8 = .ok ⟨_, card.count.mem_i64⟩ := getI64_of_value _ (h ▸ rfl)
  have hancestor : getBlob row 9 = .ok (Hash.asBytes card.ancestorHash) := getBlob_of_value (h ▸ rfl)
  have hhash : getBlob row 10 = .ok (Hash.asBytes card.hash) := getBlob_of_value (h ▸ rfl)
  have hdueDate : (card.dueDate.map fun time => (⟨time.timestampMillis, time.mem_i64⟩ : I64)).mapM
      (fun millis => timeFromMillis millis.val) = .ok card.dueDate := by
    cases card.dueDate with
    | none => rfl
    | some time =>
        change some <$> timeFromMillis time.timestampMillis = _
        rw [timeFromMillis_timestampMillis]
        rfl
  rw [cardFromSqlRow, hid, ok_bind, hcontent, ok_bind, hpriority, ok_bind, htags, ok_bind, hblazed, ok_bind, hcreated,
    ok_bind, hmodified, ok_bind, hdue, ok_bind, hcount, ok_bind, hancestor, ok_bind, hhash, ok_bind,
    uuidFromBytes_asBytes, ok_bind, countFromRaw_val, ok_bind, deserializeTags_serializeTags, ok_bind,
    timeFromMillis_timestampMillis, ok_bind, timeFromMillis_timestampMillis, ok_bind, hashFromBytes_asBytes, ok_bind,
    hashFromBytes_asBytes, ok_bind, hdueDate, ok_bind]

theorem tagFromSqlRow_of_values {tag : Tag} (h : row.map Prod.snd = tagValues tag) :
    tagFromSqlRow row = (tagFromRow tag).mapError .sql := by
  have hid : getBlob row 0 = .ok tag.id.asBytes := getBlob_of_value (h ▸ rfl)
  have htitle : getText row 1 = .ok tag.title := getText_of_value (h ▸ rfl)
  have hcolorValue : (row.map Prod.snd)[2]? =
      some ((tag.color.map fun color => .blob [color.r, color.g, color.b]).getD .null) := h ▸ rfl
  have hcolorBytes : getOptional getBlob row 2 = .ok (tag.color.map fun color => [color.r, color.g, color.b]) :=
    getOptional_map hcolorValue (fun _ => nofun) fun _ => getBlob_of_value
  have hcolor : (tag.color.map fun color => [color.r, color.g, color.b]).mapM colorFromBytes = .ok tag.color := by
    cases tag.color <;> rfl
  have hcreated : getI64 row 3 = .ok ⟨_, tag.createdAt.mem_i64⟩ := getI64_of_value _ (h ▸ rfl)
  have hmodified : getI64 row 4 = .ok ⟨_, tag.modifiedAt.mem_i64⟩ := getI64_of_value _ (h ▸ rfl)
  have hcount : getI64 row 5 = .ok ⟨_, tag.count.mem_i64⟩ := getI64_of_value _ (h ▸ rfl)
  have hancestor : getBlob row 6 = .ok (Hash.asBytes tag.ancestorHash) := getBlob_of_value (h ▸ rfl)
  have hhash : getBlob row 7 = .ok (Hash.asBytes tag.hash) := getBlob_of_value (h ▸ rfl)
  have himplies : getBlob row 8 = .ok (serializeImplies tag.implies) := getBlob_of_value (h ▸ rfl)
  rw [tagFromSqlRow, hid, ok_bind, htitle, ok_bind, hcolorBytes, ok_bind, hcolor, ok_bind, hcreated, ok_bind,
    hmodified, ok_bind, hcount, ok_bind, hancestor, ok_bind, hhash, ok_bind, himplies, ok_bind,
    uuidFromBytes_asBytes, ok_bind, countFromRaw_val, ok_bind, timeFromMillis_timestampMillis, ok_bind,
    timeFromMillis_timestampMillis, ok_bind,
    hashFromBytes_asBytes, ok_bind, hashFromBytes_asBytes, ok_bind, deserializeImplies_serializeImplies, ok_bind]

/-- What an entity is written with into each of the four tables is read back as the model reads the row that holds
the entity: the statements and the queries agree on the columns, and nothing that is written makes the server give
up. -/
theorem rows_roundTrip :
    (∀ card : Card, (selectRow cardCols (cardRow card)).bind cardFromSqlRow = (cardFromRow card).mapError .sql) ∧
      (∀ card : Card, (selectRow cardVersionCols (cardVersionRow card)).bind cardFromSqlRow =
        (cardFromRow card).mapError .sql) ∧
      (∀ tag : Tag, (selectRow tagCols (tagRow tag)).bind tagFromSqlRow = (tagFromRow tag).mapError .sql) ∧
      ∀ tag : Tag, (selectRow tagVersionCols (tagVersionRow tag)).bind tagFromSqlRow =
        (tagFromRow tag).mapError .sql := by
  refine ⟨fun card => ?_, fun card => ?_, fun tag => ?_, fun tag => ?_⟩
  · rw [selectRow_cardRow]
    exact cardFromSqlRow_of_values rfl
  · rw [selectRow_cardVersionRow]
    exact cardFromSqlRow_of_values rfl
  · rw [selectRow_tagRow]
    exact tagFromSqlRow_of_values rfl
  · rw [selectRow_tagVersionRow]
    exact tagFromSqlRow_of_values rfl

end

end BlazeList
