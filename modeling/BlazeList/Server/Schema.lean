import BlazeList.Lib.Fallible
import BlazeList.Lib.Table
import BlazeList.Server.Error

/-!
# The tables

Cards and tags live in the same pair of tables: one of current rows and one of all versions. What is
said about a pair of tables is said for any `Stored` kind of entity. A row holds the entity as it was
written; reading it back goes through `fromRow`, which rebuilds the entity and checks its hash.
-/

namespace BlazeList

/-- A kind of entity with its own pair of tables. -/
class Stored (E : Type) extends Entity E where
  /-- Agreement on a unique index other than the primary key. -/
  clash : E → E → Prop
  clash_symm : ∀ a b, clash a b → clash b a
  decidableClash : DecidableRel clash
  /-- The primary key of the version table, as an error names it. -/
  versionKey : String
  ancestorMismatch : E → PushError
  fromRow : [Blake3] → E → Except SqlError E
  fromRow_ok : ∀ [Blake3] {row entity : E}, fromRow row = .ok entity →
    Entity.id entity = Entity.id row ∧ Entity.count entity = Entity.count row ∧
      Entity.ancestorHash entity = Entity.ancestorHash row ∧ Entity.hash entity = Entity.hash row

/-! ### Rows -/

structure EntityRow (E : Type) where
  entity : E
  rootSequenceAt : Nat
  bucket : Fin 256
  deriving DecidableEq

structure VersionRow (E : Type) where
  entity : E
  rootSequenceAt : Nat
  deriving DecidableEq

structure DeletedRow where
  entity : DeletedEntity
  rootSequenceAt : Nat
  bucket : Fin 256
  deriving DecidableEq

structure HistoryRow where
  sequence : NonNegativeI64
  hash : Hash
  createdAt : Int
  deriving DecidableEq

section Conflicts

variable {E : Type} [Stored E]

def liveConflict (a b : EntityRow E) : Prop :=
  Entity.id a.entity = Entity.id b.entity ∨ Stored.clash a.entity b.entity

def versionConflict (a b : VersionRow E) : Prop :=
  Entity.id a.entity = Entity.id b.entity ∧ Entity.count a.entity = Entity.count b.entity

instance : DecidableRel (Stored.clash : E → E → Prop) := Stored.decidableClash

instance : DecidableRel (liveConflict : EntityRow E → EntityRow E → Prop) :=
  fun _ _ => inferInstanceAs (Decidable (_ ∨ _))

instance : DecidableRel (versionConflict : VersionRow E → VersionRow E → Prop) :=
  fun _ _ => inferInstanceAs (Decidable (_ ∧ _))

instance : Std.Symm (liveConflict : EntityRow E → EntityRow E → Prop) :=
  ⟨fun _ _ h => h.imp Eq.symm (Stored.clash_symm _ _)⟩

instance : Std.Symm (versionConflict : VersionRow E → VersionRow E → Prop) :=
  ⟨fun _ _ h => h.imp Eq.symm Eq.symm⟩

def deletedConflict (a b : DeletedRow) : Prop := a.entity.id = b.entity.id

def historyConflict (a b : HistoryRow) : Prop := a.sequence = b.sequence

instance : DecidableRel deletedConflict := fun _ _ => inferInstanceAs (Decidable (_ = _))

instance : DecidableRel historyConflict := fun _ _ => inferInstanceAs (Decidable (_ = _))

instance : Std.Symm deletedConflict := ⟨fun _ _ => Eq.symm⟩

instance : Std.Symm historyConflict := ⟨fun _ _ => Eq.symm⟩

end Conflicts

/-! ### Tables -/

structure EntityTables (E : Type) [Stored E] where
  live : Table (liveConflict (E := E))
  versions : Table (versionConflict (E := E))
  deriving DecidableEq

namespace EntityTables

variable {E : Type} [Stored E]

def empty : EntityTables E := ⟨.empty, .empty⟩

def row? (tables : EntityTables E) (id : Uuid) : Option (EntityRow E) :=
  tables.live.find? fun row => Entity.id row.entity = id

def current (tables : EntityTables E) (id : Uuid) : Option E :=
  (tables.row? id).map EntityRow.entity

/-- The versions of one entity in the order they were accepted. -/
def lineage (tables : EntityTables E) (id : Uuid) : List E :=
  (tables.versions.rows.filter fun row => Entity.id row.entity = id).map VersionRow.entity

variable {tables : EntityTables E} {id : Uuid}

theorem row?_eq_some_iff {row : EntityRow E} :
    tables.row? id = some row ↔ row ∈ tables.live ∧ Entity.id row.entity = id := by
  rw [row?, Table.find?_eq_some_iff]
  · simp
  · intro a b ha hb
    exact .inl ((of_decide_eq_true ha).trans (of_decide_eq_true hb).symm)

theorem row?_eq_none_iff :
    tables.row? id = none ↔ ∀ row ∈ tables.live, Entity.id row.entity ≠ id := by
  simp [row?, Table.find?_eq_none_iff]

theorem current_eq_some_iff {entity : E} :
    tables.current id = some entity ↔
      ∃ row ∈ tables.live, row.entity = entity ∧ Entity.id entity = id := by
  simp only [current, Option.map_eq_some_iff, row?_eq_some_iff]
  constructor
  · rintro ⟨row, ⟨hmem, hid⟩, rfl⟩
    exact ⟨row, hmem, rfl, hid⟩
  · rintro ⟨row, hmem, rfl, hid⟩
    exact ⟨row, ⟨hmem, hid⟩, rfl⟩

theorem current_eq_none_iff :
    tables.current id = none ↔ ∀ row ∈ tables.live, Entity.id row.entity ≠ id := by
  rw [current, Option.map_eq_none_iff, row?_eq_none_iff]

theorem current_of_mem {row : EntityRow E} (hrow : row ∈ tables.live) :
    tables.current (Entity.id row.entity) = some row.entity :=
  current_eq_some_iff.mpr ⟨row, hrow, rfl, rfl⟩

/-- The primary key of the live table. -/
theorem eq_of_id_eq {a b : EntityRow E} (ha : a ∈ tables.live) (hb : b ∈ tables.live)
    (hid : Entity.id a.entity = Entity.id b.entity) : a = b :=
  Table.eq_of_conflict ha hb (.inl hid)

theorem mem_lineage {entity : E} :
    entity ∈ tables.lineage id ↔
      ∃ row ∈ tables.versions, row.entity = entity ∧ Entity.id entity = id := by
  simp only [lineage, List.mem_map, List.mem_filter, decide_eq_true_eq]
  constructor
  · rintro ⟨row, ⟨hmem, hid⟩, rfl⟩
    exact ⟨row, hmem, rfl, hid⟩
  · rintro ⟨row, hmem, rfl, hid⟩
    exact ⟨row, ⟨hmem, hid⟩, rfl⟩

@[simp]
theorem current_empty : (empty : EntityTables E).current id = none := by
  simp [current_eq_none_iff, empty]

@[simp]
theorem lineage_empty : (empty : EntityTables E).lineage id = [] := by
  simp [lineage, empty]

end EntityTables

/-! ### Reading rows back -/

def SqlError.ofHashVerification (error : HashVerificationError) : SqlError :=
  .fromSqlConversionFailure 0 "Blob" error.toString

def cardFromRow [Blake3] (row : Card) : Except SqlError Card :=
  (Card.fromParts row).mapError .ofHashVerification

def tagFromRow [Blake3] (row : Tag) : Except SqlError Tag :=
  (Tag.fromParts row).mapError .ofHashVerification

theorem cardFromRow_eq_ok_iff [Blake3] {row card : Card} :
    cardFromRow row = .ok card ↔ Entity.verify row = true ∧ card = row := by
  unfold cardFromRow Card.fromParts
  split
  · rename_i hverify
    simp only [Except.mapError, Except.ok.injEq, hverify, true_and]
    exact eq_comm
  · rename_i hverify
    simp only [Except.mapError, reduceCtorEq, hverify, false_and]

theorem tagFromRow_eq_ok_iff [Blake3] {row tag : Tag} :
    tagFromRow row = .ok tag ↔
      Entity.verify tag = true ∧ tag = { row with implies := normalizeImplies row.implies } := by
  unfold tagFromRow Tag.fromParts
  dsimp only
  split
  · rename_i hverify
    simp only [Except.mapError, Except.ok.injEq]
    constructor
    · rintro rfl
      exact ⟨hverify, rfl⟩
    · rintro ⟨-, rfl⟩
      rfl
  · rename_i hverify
    simp only [Except.mapError, reduceCtorEq, false_iff, not_and]
    rintro htag rfl
    exact hverify htag

/-- The unique priority index is the one constraint besides the keys. -/
instance : Stored Card where
  clash a b := a.priority = b.priority
  clash_symm _ _ := Eq.symm
  decidableClash a b := inferInstanceAs (Decidable (a.priority = b.priority))
  versionKey := "card_versions.card_id, card_versions.count"
  ancestorMismatch := .cardAncestorMismatch
  fromRow := cardFromRow
  fromRow_ok h := by
    obtain ⟨-, rfl⟩ := cardFromRow_eq_ok_iff.mp h
    exact ⟨rfl, rfl, rfl, rfl⟩

instance : Stored Tag where
  clash _ _ := False
  clash_symm _ _ := False.elim
  decidableClash _ _ := inferInstanceAs (Decidable False)
  versionKey := "tag_versions.tag_id, tag_versions.count"
  ancestorMismatch := .tagAncestorMismatch
  fromRow := tagFromRow
  fromRow_ok h := by
    obtain ⟨-, rfl⟩ := tagFromRow_eq_ok_iff.mp h
    exact ⟨rfl, rfl, rfl, rfl⟩

/-! ### The database -/

structure Store where
  cards : EntityTables Card
  tags : EntityTables Tag
  deletedEntities : Table deletedConflict
  rootState : RootState
  rootHistory : Table historyConflict
  rootBuckets : Fin 256 → Hash

def initSchema : Store where
  cards := .empty
  tags := .empty
  deletedEntities := .empty
  rootState := .empty
  rootHistory := .empty
  rootBuckets := fun _ => zeroHash

def Store.isDeleted (store : Store) (id : Uuid) : Bool :=
  store.deletedEntities.rows.any fun row => row.entity.id = id

theorem Store.isDeleted_iff {store : Store} {id : Uuid} :
    store.isDeleted id = true ↔ ∃ row ∈ store.deletedEntities, row.entity.id = id := by
  simp [Store.isDeleted, Table.mem_def]

end BlazeList
