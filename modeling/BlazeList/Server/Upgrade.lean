import BlazeList.Server.Migration
import BlazeList.Server.Merkle
import BlazeList.Server.Reads

/-!
# Opening an old database

A database of major version 0, 1 or 2 is brought to version 3 one step at a time, in one transaction that
also records the new version. The tables and indexes that are still missing are created after it. A file
of version 0 that is opened holds the store that the migration of its contents gives.
-/

namespace BlazeList

structure Version where
  major : Nat
  minor : Nat
  patch : Nat
  deriving DecidableEq

def protocolVersion : Version := ⟨3, 1, 1⟩

inductive OpenError where
  | incompatibleVersion (stored current : Version)
  | migrationNotImplemented (stored current : Version)
  | storage (error : StorageError)

/-! ### The file -/

/-- A row, with `none` for the columns that its table does not have. -/
structure OldRow (α : Type) where
  entity : α
  rootSequenceAt : Option Nat
  bucket : Option (Fin 256)
  deriving DecidableEq

structure OldVersionRow (α : Type) where
  entity : α
  rootSequenceAt : Option Nat
  deriving DecidableEq

structure OldTag where
  tag : LegacyTag
  implies : Option (List Uuid)
  deriving DecidableEq

def OldRow.conflict {α : Type} (id : α → Uuid) (a b : OldRow α) : Prop := id a.entity = id b.entity

instance {α : Type} (id : α → Uuid) : DecidableRel (OldRow.conflict id) :=
  fun _ _ => inferInstanceAs (Decidable (_ = _))

def OldVersionRow.conflict {α : Type} (id : α → Uuid) (count : α → NonNegativeI64)
    (a b : OldVersionRow α) : Prop :=
  id a.entity = id b.entity ∧ count a.entity = count b.entity

instance {α : Type} (id : α → Uuid) (count : α → NonNegativeI64) : DecidableRel (OldVersionRow.conflict id count) :=
  fun _ _ => inferInstanceAs (Decidable (_ ∧ _))

def OldTag.id (tag : OldTag) : Uuid := tag.tag.id

def OldTag.count (tag : OldTag) : NonNegativeI64 := tag.tag.count

/-- The default of the added column is the empty list. -/
def OldTag.ensureImplies (tag : OldTag) : OldTag :=
  { tag with implies := some (tag.implies.getD []) }

/-- A database file of any version. `malformedIds` are the rows whose id is not a UUID: the table, and
what the UUID library says of the id. -/
structure DatabaseFile where
  version : Version
  cards : Table (OldRow.conflict Card.id)
  cardVersions : Table (OldVersionRow.conflict Card.id Card.count)
  tags : Table (OldRow.conflict OldTag.id)
  tagVersions : Table (OldVersionRow.conflict OldTag.id OldTag.count)
  deletedEntities : Table (OldRow.conflict DeletedEntity.id)
  malformedIds : List (String × String)
  rootState : Option RootState
  rootHistory : Table historyConflict
  rootBuckets : Fin 256 → Option Hash

namespace DatabaseFile

/-- The root tables and the rows that they start with, where they are missing. -/
def createRootTables (file : DatabaseFile) : DatabaseFile :=
  { file with
    rootState := some (file.rootState.getD .empty)
    rootBuckets := fun bucket => some ((file.rootBuckets bucket).getD zeroHash) }

/-- `ensure_column` for the columns of version 1: an added column holds its default. -/
def ensureRootColumns (file : DatabaseFile) : DatabaseFile :=
  { file with
    cards := file.cards.map (fun row =>
      ⟨row.entity, some (row.rootSequenceAt.getD 0), some (row.bucket.getD 0)⟩) fun _ _ h => h
    cardVersions := file.cardVersions.map (fun row =>
      ⟨row.entity, some (row.rootSequenceAt.getD 0)⟩) fun _ _ h => h
    tags := file.tags.map (fun row =>
      ⟨row.entity, some (row.rootSequenceAt.getD 0), some (row.bucket.getD 0)⟩) fun _ _ h => h
    tagVersions := file.tagVersions.map (fun row =>
      ⟨row.entity, some (row.rootSequenceAt.getD 0)⟩) fun _ _ h => h
    deletedEntities := file.deletedEntities.map (fun row =>
      ⟨row.entity, some (row.rootSequenceAt.getD 0), some (row.bucket.getD 0)⟩) fun _ _ h => h }

def withBuckets (file : DatabaseFile) : DatabaseFile :=
  { file with
    cards := file.cards.map (fun row =>
      { row with bucket := some (bucketOf row.entity.id) }) fun _ _ h => h
    tags := file.tags.map (fun row =>
      { row with bucket := some (bucketOf row.entity.id) }) fun _ _ h => h
    deletedEntities := file.deletedEntities.map (fun row =>
      { row with bucket := some (bucketOf row.entity.id) }) fun _ _ h => h }

/-- The buckets of all rows, unless an id is not a UUID. -/
def backfillBucketColumn (file : DatabaseFile) : Except StorageError DatabaseFile :=
  match file.malformedIds with
  | [] => .ok file.withBuckets
  | (table, text) :: _ =>
      .error (.internal ("invalid UUID while migrating " ++ table ++ ".id: " ++ text))

def bucketHashes {α : Type} (id : α → Uuid) (hash : α → Hash) (rows : List (OldRow α))
    (bucket : Fin 256) : List Hash :=
  ((rows.filter fun row => row.bucket = some bucket).orderBy fun row => id row.entity).map fun row =>
    hash row.entity

section

variable [Blake3]

def recomputeBucketHash (file : DatabaseFile) (bucket : Fin 256) : Hash :=
  bucketHash (bucketHashes Card.id Card.hash file.cards.rows bucket)
    (bucketHashes OldTag.id (fun tag => tag.tag.hash) file.tags.rows bucket)
    (bucketHashes DeletedEntity.id DeletedEntity.hash file.deletedEntities.rows bucket)

def refreshBuckets (file : DatabaseFile) : DatabaseFile :=
  { file with rootBuckets := fun bucket => some (file.recomputeBucketHash bucket) }

def recomputeRootFromBuckets (file : DatabaseFile) (now : Int) : Except StorageError DatabaseFile :=
  let hash := rootHash fun bucket => (file.rootBuckets bucket).getD zeroHash
  match NonNegativeI64.tryFrom ((file.rootState.getD .empty).sequence.val + 1) with
  | none => .error (.ofSql (.invalidColumnType 0 "sequence" "Real"))
  | some newSequence =>
      match file.rootHistory.insert? ⟨newSequence, hash, now⟩ with
      | none => .error (.ofSql (.sqliteFailure "UNIQUE constraint failed: root_history.sequence"))
      | some rootHistory => .ok { file with rootState := some ⟨hash, newSequence⟩, rootHistory }

def migrateV0ToV1 (file : DatabaseFile) (now : Int) : Except StorageError DatabaseFile := do
  let file ← file.createRootTables.ensureRootColumns.backfillBucketColumn
  file.refreshBuckets.recomputeRootFromBuckets now

/-- `ensure_column` for the implication lists. -/
def migrateV2ToV3 (file : DatabaseFile) : DatabaseFile :=
  { file with
    tags := file.tags.map (fun row => { row with entity := row.entity.ensureImplies }) fun _ _ h => h
    tagVersions := file.tagVersions.map
      (fun row => { row with entity := row.entity.ensureImplies }) fun _ _ h => h }

def migrateOneMajorStep (now : Int) (file : DatabaseFile) (fromMajor : Nat) :
    Except OpenError DatabaseFile :=
  match fromMajor with
  | 0 => (file.migrateV0ToV1 now).mapError .storage
  -- a wider type for priorities, which the tables hold as it is
  | 1 => .ok file
  | 2 => .ok file.migrateV2ToV3
  | _ => .error (.migrationNotImplemented ⟨fromMajor, 0, 0⟩ ⟨fromMajor + 1, 0, 0⟩)

def migrateSchemaMajorToMajor (file : DatabaseFile) (now : Int) : Except OpenError DatabaseFile := do
  let migrated ← (List.range' file.version.major (protocolVersion.major - file.version.major)).foldlM
    (migrateOneMajorStep now) file
  return { migrated with version := protocolVersion }

def checkSchemaVersion (file : DatabaseFile) (allowMigration : Bool) (now : Int) :
    Except OpenError DatabaseFile :=
  if file.version.major = protocolVersion.major then
    .ok { file with version := protocolVersion }
  else if allowMigration = false ∨ file.version.major > protocolVersion.major then
    .error (.incompatibleVersion file.version protocolVersion)
  else
    file.migrateSchemaMajorToMajor now

def DistinctPriorities (file : DatabaseFile) : Prop :=
  file.cards.rows.Pairwise fun a b => a.entity.priority ≠ b.entity.priority

instance (file : DatabaseFile) : Decidable file.DistinctPriorities :=
  inferInstanceAs (Decidable (List.Pairwise _ _))

/-- The unique index on the priorities comes before the root tables. -/
def initSchema (file : DatabaseFile) : DatabaseFile × Except OpenError Unit :=
  if file.DistinctPriorities then (file.createRootTables, .ok ())
  else (file, .error (.storage (.ofSql (.sqliteFailure "UNIQUE constraint failed: cards.priority"))))

/-- The file after `open`, and whether it was opened. A failed transaction leaves the file alone. -/
def openFile (file : DatabaseFile) (allowMigration : Bool) (now : Int) :
    DatabaseFile × Except OpenError Unit :=
  match file.checkSchemaVersion allowMigration now with
  | .error error => (file, .error error)
  | .ok checked => checked.initSchema

end

end DatabaseFile

/-! ### Old databases and what they become -/

def LegacyTag.canonicalBytes (tag : LegacyTag) : List UInt8 :=
  tag.id.asBytes
    ++ u64Bytes tag.title.utf8ByteSize ++ tag.title.toUTF8.toList
    ++ i64Bytes tag.createdAt.timestampMillis ++ i64Bytes tag.modifiedAt.timestampMillis
    ++ (match tag.color with
      | none => [0]
      | some rgb => [1, rgb.r, rgb.g, rgb.b])
    ++ i64Bytes tag.count.val
    ++ tag.ancestorHash.asBytes

/-- The block of an empty list is left out, so the hashes stay as they were. -/
theorem LegacyTag.canonicalBytes_ensureImplies (tag : LegacyTag) :
    Entity.canonicalBytes tag.ensureImplies = tag.canonicalBytes := by
  have hempty : Entity.canonicalBytes tag.ensureImplies = tag.canonicalBytes ++ [] := rfl
  rw [hempty, List.append_nil]

def Tag.toOld (tag : Tag) : OldTag where
  tag :=
    { id := tag.id, title := tag.title, color := tag.color, createdAt := tag.createdAt
      modifiedAt := tag.modifiedAt, count := tag.count, ancestorHash := tag.ancestorHash
      hash := tag.hash }
  implies := some tag.implies

namespace DatabaseFile

structure Holds (file : DatabaseFile) (store : Store) : Prop where
  cards : file.cards.rows =
    store.cards.live.rows.map fun row => ⟨row.entity, some row.rootSequenceAt, some row.bucket⟩
  cardVersions : file.cardVersions.rows =
    store.cards.versions.rows.map fun row => ⟨row.entity, some row.rootSequenceAt⟩
  tags : file.tags.rows =
    store.tags.live.rows.map fun row => ⟨row.entity.toOld, some row.rootSequenceAt, some row.bucket⟩
  tagVersions : file.tagVersions.rows =
    store.tags.versions.rows.map fun row => ⟨row.entity.toOld, some row.rootSequenceAt⟩
  deletedEntities : file.deletedEntities.rows =
    store.deletedEntities.rows.map fun row => ⟨row.entity, some row.rootSequenceAt, some row.bucket⟩
  rootState : file.rootState = some store.rootState
  rootHistory : file.rootHistory = store.rootHistory
  rootBuckets : ∀ bucket, file.rootBuckets bucket = some (store.rootBuckets bucket)

variable [Blake3] {file after : DatabaseFile} {now : Int}

/-- The columns of version 1 are there, and the bucket cache fits the rows. -/
structure Coherent (file : DatabaseFile) : Prop where
  cards : ∀ row ∈ file.cards,
    row.rootSequenceAt.isSome ∧ row.bucket = some (bucketOf row.entity.id)
  cardVersions : ∀ row ∈ file.cardVersions, row.rootSequenceAt.isSome
  tags : ∀ row ∈ file.tags,
    row.rootSequenceAt.isSome ∧ row.bucket = some (bucketOf row.entity.id)
  tagVersions : ∀ row ∈ file.tagVersions, row.rootSequenceAt.isSome
  deletedEntities : ∀ row ∈ file.deletedEntities,
    row.rootSequenceAt.isSome ∧ row.bucket = some (bucketOf row.entity.id)
  wellFormed : file.malformedIds = []
  buckets : ∀ bucket, file.rootBuckets bucket = some (file.recomputeBucketHash bucket)
  root : ∃ root, file.rootState = some root ∧ root.hash = rootHash file.recomputeBucketHash

/-- A database of version 0, 1 or 2 whose cards and tags verify. -/
structure Upgradable (file : DatabaseFile) : Prop where
  major : file.version.major < 3
  cards : ∀ row ∈ file.cards, Entity.verify row.entity = true
  tags : ∀ row ∈ file.tags, row.entity.implies = none ∧
    row.entity.tag.hash = Blake3.digest row.entity.tag.canonicalBytes
  tagVersions : ∀ row ∈ file.tagVersions, row.entity.implies = none
  coherent : 1 ≤ file.version.major → file.Coherent

/-- Each old card and tag reads back as it was and verifies, every row is in the bucket of its id, and
the cached hashes are those of the rows. -/
structure Established (file : DatabaseFile) (store : Store) : Prop where
  cards : ∀ row ∈ file.cards, getCard store row.entity.id = .ok (some row.entity) ∧
    Entity.verify row.entity = true
  tags : ∀ row ∈ file.tags, ∃ tag, getTag store row.entity.id = .ok (some tag) ∧
    tag = row.entity.tag.ensureImplies ∧ tag.implies = [] ∧ Entity.verify tag = true
  merkle : MerkleInvariant store

/-- Opening establishes the invariants or leaves the file as it was. -/
def EstablishesInvariants (file : DatabaseFile) (now : Int) : Prop :=
  (∀ after, file.openFile true now = (after, .ok ()) →
    after.version = protocolVersion ∧ ∃ store, after.Holds store ∧ file.Established store) ∧
  ∀ after error, file.openFile true now = (after, .error error) → after = file

/-- The transaction fails: version 0 is left only with ids that are UUIDs and a root that can take one
more sequence. -/
def CannotMigrate (file : DatabaseFile) : Prop :=
  file.version.major = 0 ∧ (file.malformedIds ≠ [] ∨
    (file.rootState.getD .empty).sequence.val = 9223372036854775807 ∨
    ∃ row ∈ file.rootHistory, row.sequence.val = (file.rootState.getD .empty).sequence.val + 1)

/-! ### What the transaction does -/

/-- The rows of the old file with every column, and the cache of them. -/
structure Upgraded (file after : DatabaseFile) : Prop where
  version : after.version = protocolVersion
  cards : after.cards.rows = file.cards.rows.map fun row =>
    ⟨row.entity, some (row.rootSequenceAt.getD 0), some (bucketOf row.entity.id)⟩
  cardVersions : after.cardVersions.rows = file.cardVersions.rows.map fun row =>
    ⟨row.entity, some (row.rootSequenceAt.getD 0)⟩
  tags : after.tags.rows = file.tags.rows.map fun row =>
    ⟨⟨row.entity.tag, some []⟩, some (row.rootSequenceAt.getD 0), some (bucketOf row.entity.id)⟩
  tagVersions : after.tagVersions.rows = file.tagVersions.rows.map fun row =>
    ⟨⟨row.entity.tag, some []⟩, some (row.rootSequenceAt.getD 0)⟩
  deletedEntities : after.deletedEntities.rows = file.deletedEntities.rows.map fun row =>
    ⟨row.entity, some (row.rootSequenceAt.getD 0), some (bucketOf row.entity.id)⟩
  buckets : ∀ bucket, after.rootBuckets bucket = some (after.recomputeBucketHash bucket)
  root : ∃ root, after.rootState = some root ∧ root.hash = rootHash after.recomputeBucketHash

omit [Blake3] in
/-- The hashes of a bucket, for rows that are kept in another shape. -/
theorem bucketHashes_map {α β : Type} {id : α → Uuid} {hash : α → Hash} {bucket : Fin 256}
    (f : β → OldRow α) {key : β → Uuid} {hash' : β → Hash} {p : β → Bool}
    (hid : ∀ row, id (f row).entity = key row) (hhash : ∀ row, hash (f row).entity = hash' row)
    (hbucket : ∀ row, decide ((f row).bucket = some bucket) = p row) (rows : List β) :
    bucketHashes id hash (rows.map f) bucket = ((rows.filter p).orderBy key).map hash' := by
  unfold bucketHashes
  rw [List.filter_map, List.orderBy_map, List.map_map]
  simp only [Function.comp_def, hid, hhash, hbucket]

/-- The implication lists have no part in the buckets. -/
theorem recomputeBucketHash_migrateV2ToV3 (file : DatabaseFile) :
    file.migrateV2ToV3.recomputeBucketHash = file.recomputeBucketHash := by
  funext bucket
  have htags : bucketHashes OldTag.id (fun tag => tag.tag.hash) file.migrateV2ToV3.tags.rows bucket =
      bucketHashes OldTag.id (fun tag => tag.tag.hash) file.tags.rows bucket :=
    bucketHashes_map (fun row : OldRow OldTag => { row with entity := row.entity.ensureImplies })
      (fun _ => rfl) (fun _ => rfl) (fun _ => rfl) file.tags.rows
  unfold recomputeBucketHash
  rw [htags]
  rfl

omit [Blake3] in
theorem OldRow.eq_of_columns {α : Type} {row : OldRow α} {bucket : Fin 256}
    (hrow : row.rootSequenceAt.isSome ∧ row.bucket = some bucket) :
    (⟨row.entity, some (row.rootSequenceAt.getD 0), some bucket⟩ : OldRow α) = row := by
  obtain ⟨entity, rootSequenceAt, bucketColumn⟩ := row
  obtain ⟨hsome, hbucket⟩ := hrow
  obtain ⟨stamp, rfl⟩ := Option.isSome_iff_exists.mp hsome
  dsimp only at hbucket
  rw [hbucket]
  rfl

omit [Blake3] in
theorem OldVersionRow.eq_of_columns {α : Type} {row : OldVersionRow α}
    (hrow : row.rootSequenceAt.isSome) :
    (⟨row.entity, some (row.rootSequenceAt.getD 0)⟩ : OldVersionRow α) = row := by
  obtain ⟨entity, rootSequenceAt⟩ := row
  obtain ⟨stamp, rfl⟩ := Option.isSome_iff_exists.mp hrow
  rfl

omit [Blake3] in
theorem map_eq_self {α : Type} {f : α → α} {rows : List α} (h : ∀ row ∈ rows, f row = row) :
    rows.map f = rows := by
  rw [List.map_congr_left h, List.map_id']

/-- From version 1 on, only the implication lists are new. -/
theorem Upgradable.upgraded_of_coherent (hold : file.Upgradable) (hcoherent : file.Coherent) :
    Upgraded file { file.migrateV2ToV3 with version := protocolVersion } where
  version := rfl
  cards := (map_eq_self fun row hrow => OldRow.eq_of_columns (hcoherent.cards row hrow)).symm
  cardVersions :=
    (map_eq_self fun row hrow => OldVersionRow.eq_of_columns (hcoherent.cardVersions row hrow)).symm
  tags := by
    refine List.map_congr_left fun row hrow => ?_
    have hcolumns := OldRow.eq_of_columns (hcoherent.tags row hrow)
    have hnone := (hold.tags row hrow).1
    obtain ⟨⟨tag, implies⟩, stamp, bucket⟩ := row
    dsimp only at hcolumns hnone ⊢
    rw [hnone] at hcolumns ⊢
    exact congrArg (fun row : OldRow OldTag => { row with entity := row.entity.ensureImplies })
      hcolumns.symm
  tagVersions := by
    refine List.map_congr_left fun row hrow => ?_
    have hcolumns := OldVersionRow.eq_of_columns (hcoherent.tagVersions row hrow)
    have hnone := hold.tagVersions row hrow
    obtain ⟨⟨tag, implies⟩, stamp⟩ := row
    dsimp only at hcolumns hnone ⊢
    rw [hnone] at hcolumns ⊢
    exact congrArg (fun row : OldVersionRow OldTag => { row with entity := row.entity.ensureImplies })
      hcolumns.symm
  deletedEntities :=
    (map_eq_self fun row hrow => OldRow.eq_of_columns (hcoherent.deletedEntities row hrow)).symm
  buckets bucket := by
    have hsame := congrFun (recomputeBucketHash_migrateV2ToV3 file) bucket
    have hbuckets := hcoherent.buckets bucket
    rw [← hsame] at hbuckets
    exact hbuckets
  root := by
    obtain ⟨root, hroot, hhash⟩ := hcoherent.root
    rw [← recomputeBucketHash_migrateV2ToV3 file] at hhash
    exact ⟨root, hroot, hhash⟩

omit [Blake3] in
theorem backfillBucketColumn_eq_ok_iff :
    file.backfillBucketColumn = .ok after ↔ file.malformedIds = [] ∧ after = file.withBuckets := by
  unfold backfillBucketColumn
  cases file.malformedIds with
  | nil => simp [eq_comm]
  | cons first rest => simp

theorem recomputeRootFromBuckets_eq_ok_iff : file.recomputeRootFromBuckets now = .ok after ↔
    ∃ sequence rootHistory,
      NonNegativeI64.tryFrom ((file.rootState.getD .empty).sequence.val + 1) = some sequence ∧
      file.rootHistory.insert?
          ⟨sequence, rootHash fun bucket => (file.rootBuckets bucket).getD zeroHash, now⟩ =
        some rootHistory ∧
      after = { file with
        rootState := some ⟨rootHash fun bucket => (file.rootBuckets bucket).getD zeroHash, sequence⟩
        rootHistory } := by
  unfold recomputeRootFromBuckets
  cases NonNegativeI64.tryFrom ((file.rootState.getD .empty).sequence.val + 1) with
  | none => simp
  | some sequence =>
      dsimp only
      cases hinsert : file.rootHistory.insert?
          ⟨sequence, rootHash fun bucket => (file.rootBuckets bucket).getD zeroHash, now⟩ with
      | none => simp [hinsert]
      | some rootHistory => simp [hinsert, eq_comm]

/-- Only the root stands in the way of a recomputation. -/
theorem exists_recomputeRootFromBuckets_iff :
    (∃ after, file.recomputeRootFromBuckets now = .ok after) ↔
      ¬ ((file.rootState.getD .empty).sequence.val = 9223372036854775807 ∨
        ∃ row ∈ file.rootHistory,
          row.sequence.val = (file.rootState.getD .empty).sequence.val + 1) := by
  have hle := (file.rootState.getD .empty).sequence.le_max
  simp only [recomputeRootFromBuckets_eq_ok_iff]
  constructor
  · rintro ⟨after, sequence, rootHistory, hsequence, hinsert, -⟩
    have hnext := NonNegativeI64.tryFrom_eq_some_iff.mp hsequence
    rintro (hlast | ⟨row, hrow, hsame⟩)
    · have hmax := sequence.le_max
      omega
    · obtain ⟨hunique, -⟩ := Table.insert?_eq_some_iff.mp hinsert
      exact hunique row hrow (NonNegativeI64.ext_iff.mpr (hsame.trans hnext.symm))
  · intro hfree
    obtain ⟨hlast, hunique⟩ := not_or.mp hfree
    obtain ⟨sequence, hsequence⟩ : ∃ sequence : NonNegativeI64,
        sequence.val = (file.rootState.getD .empty).sequence.val + 1 := ⟨⟨_, by omega⟩, rfl⟩
    obtain ⟨rootHistory, hinsert⟩ : ∃ rootHistory, file.rootHistory.insert?
        ⟨sequence, rootHash fun bucket => (file.rootBuckets bucket).getD zeroHash, now⟩ =
          some rootHistory := by
      apply Option.ne_none_iff_exists'.mp
      intro hnone
      obtain ⟨row, hrow, hsame⟩ := Table.insert?_eq_none_iff.mp hnone
      exact hunique ⟨row, hrow, (congrArg NonNegativeI64.val hsame).trans hsequence⟩
    exact ⟨_, sequence, rootHistory, NonNegativeI64.tryFrom_eq_some_iff.mpr hsequence, hinsert, rfl⟩

def prepared (file : DatabaseFile) : DatabaseFile :=
  file.createRootTables.ensureRootColumns.withBuckets.refreshBuckets

theorem migrateV0ToV1_eq_ok_iff : file.migrateV0ToV1 now = .ok after ↔
    file.malformedIds = [] ∧ file.prepared.recomputeRootFromBuckets now = .ok after := by
  unfold migrateV0ToV1
  simp only [Except.bind_eq_ok_iff, backfillBucketColumn_eq_ok_iff]
  constructor
  · rintro ⟨_, ⟨hwellFormed, rfl⟩, hroot⟩
    exact ⟨hwellFormed, hroot⟩
  · rintro ⟨hwellFormed, hroot⟩
    exact ⟨_, ⟨hwellFormed, rfl⟩, hroot⟩

/-- From version 0, all of it is new. -/
theorem Upgradable.upgraded_of_initial (hold : file.Upgradable) {migrated : DatabaseFile}
    (hmigrate : file.migrateV0ToV1 now = .ok migrated) :
    Upgraded file { migrated.migrateV2ToV3 with version := protocolVersion } := by
  obtain ⟨-, hroot⟩ := migrateV0ToV1_eq_ok_iff.mp hmigrate
  obtain ⟨sequence, rootHistory, -, -, rfl⟩ := recomputeRootFromBuckets_eq_ok_iff.mp hroot
  have hsame := recomputeBucketHash_migrateV2ToV3 file.prepared
  exact {
    version := rfl
    cards := List.map_map
    cardVersions := rfl
    tags := by
      refine (List.map_map.trans List.map_map).trans (List.map_congr_left fun row hrow => ?_)
      have hnone := (hold.tags row hrow).1
      obtain ⟨⟨tag, implies⟩, stamp, bucket⟩ := row
      dsimp only at hnone
      rw [hnone]
      rfl
    tagVersions := by
      refine List.map_map.trans (List.map_congr_left fun row hrow => ?_)
      have hnone := hold.tagVersions row hrow
      obtain ⟨⟨tag, implies⟩, stamp⟩ := row
      dsimp only at hnone
      rw [hnone]
      rfl
    deletedEntities := List.map_map
    buckets := fun bucket => congrArg some (congrFun hsame bucket).symm
    root := ⟨_, rfl, congrArg rootHash hsame.symm⟩ }

theorem exists_migrateV0ToV1_iff : (∃ after, file.migrateV0ToV1 now = .ok after) ↔
    file.malformedIds = [] ∧
      ¬ ((file.rootState.getD .empty).sequence.val = 9223372036854775807 ∨
        ∃ row ∈ file.rootHistory,
          row.sequence.val = (file.rootState.getD .empty).sequence.val + 1) := by
  simp only [migrateV0ToV1_eq_ok_iff, exists_and_left, exists_recomputeRootFromBuckets_iff]
  exact Iff.rfl

/-- The steps that the three old versions take. -/
theorem migrateSchemaMajorToMajor_eq (hmajor : file.version.major < 3) :
    file.migrateSchemaMajorToMajor now =
      if file.version.major = 0 then
        ((file.migrateV0ToV1 now).mapError .storage).map fun migrated =>
          { migrated.migrateV2ToV3 with version := protocolVersion }
      else .ok { file.migrateV2ToV3 with version := protocolVersion } := by
  unfold migrateSchemaMajorToMajor
  obtain hzero | hone | htwo : file.version.major = 0 ∨ file.version.major = 1 ∨
      file.version.major = 2 := by omega
  · rw [hzero]
    cases hmigrate : file.migrateV0ToV1 now with
    | error error =>
        simp [protocolVersion, List.range', migrateOneMajorStep, hmigrate, Except.mapError, Except.map, bind,
          Except.bind]
    | ok migrated =>
        simp [protocolVersion, List.range', migrateOneMajorStep, hmigrate, Except.mapError, Except.map, bind,
          Except.bind, pure, Except.pure]
  · rw [hone]
    rfl
  · rw [htwo]
    rfl

theorem checkSchemaVersion_eq (hmajor : file.version.major < 3) :
    file.checkSchemaVersion true now = file.migrateSchemaMajorToMajor now := by
  have hcurrent : protocolVersion.major = 3 := rfl
  unfold checkSchemaVersion
  rw [if_neg (by omega), if_neg (by simp; omega)]

theorem Upgradable.upgraded (hold : file.Upgradable)
    (hcheck : file.checkSchemaVersion true now = .ok after) : Upgraded file after := by
  rw [checkSchemaVersion_eq hold.major, migrateSchemaMajorToMajor_eq hold.major] at hcheck
  by_cases hzero : file.version.major = 0
  · rw [if_pos hzero] at hcheck
    obtain ⟨migrated, hmigrate, rfl⟩ := Except.map_eq_ok_iff.mp hcheck
    exact hold.upgraded_of_initial (Except.mapError_eq_ok_iff.mp hmigrate)
  · rw [if_neg hzero] at hcheck
    cases hcheck
    exact hold.upgraded_of_coherent (hold.coherent (by omega))

theorem Upgradable.exists_checkSchemaVersion_iff (hold : file.Upgradable) :
    (∃ after, file.checkSchemaVersion true now = .ok after) ↔ ¬ file.CannotMigrate := by
  rw [checkSchemaVersion_eq hold.major, migrateSchemaMajorToMajor_eq hold.major]
  by_cases hzero : file.version.major = 0
  · rw [if_pos hzero]
    constructor
    · rintro ⟨after, hcheck⟩ ⟨-, hcannot⟩
      obtain ⟨migrated, hmigrate, -⟩ := Except.map_eq_ok_iff.mp hcheck
      obtain ⟨hwellFormed, hroot⟩ :=
        exists_migrateV0ToV1_iff.mp ⟨migrated, Except.mapError_eq_ok_iff.mp hmigrate⟩
      exact hcannot.elim (fun hmalformed => hmalformed hwellFormed) hroot
    · intro hcan
      have hwellFormed : file.malformedIds = [] := by
        by_contra hmalformed
        exact hcan ⟨hzero, .inl hmalformed⟩
      obtain ⟨migrated, hmigrate⟩ :=
        exists_migrateV0ToV1_iff.mpr ⟨hwellFormed, fun hroot => hcan ⟨hzero, .inr hroot⟩⟩
      exact ⟨_, Except.map_eq_ok_iff.mpr ⟨migrated, Except.mapError_eq_ok_iff.mpr hmigrate, rfl⟩⟩
  · rw [if_neg hzero]
    exact ⟨fun _ hcannot => hzero hcannot.1, fun _ => ⟨_, rfl⟩⟩

theorem Upgraded.distinctPriorities_iff (h : Upgraded file after) :
    after.DistinctPriorities ↔ file.DistinctPriorities := by
  unfold DistinctPriorities
  rw [h.cards, List.pairwise_map]

def upgradedStore (file : DatabaseFile) (hdistinct : file.DistinctPriorities) (rootState : RootState)
    (rootHistory : Table historyConflict) (rootBuckets : Fin 256 → Hash) : Store where
  cards :=
    { live := ⟨file.cards.rows.map fun row =>
          ⟨row.entity, row.rootSequenceAt.getD 0, bucketOf row.entity.id⟩, by
        rw [List.pairwise_map]
        exact (file.cards.unique.and hdistinct).imp fun h hconflict => hconflict.elim h.1 h.2⟩
      versions := file.cardVersions.map
        (fun row => ⟨row.entity, row.rootSequenceAt.getD 0⟩) fun _ _ h => h }
  tags :=
    { live := file.tags.map (fun row =>
          ⟨row.entity.tag.ensureImplies, row.rootSequenceAt.getD 0, bucketOf row.entity.id⟩)
        fun _ _ h => h.elim id False.elim
      versions := file.tagVersions.map
        (fun row => ⟨row.entity.tag.ensureImplies, row.rootSequenceAt.getD 0⟩) fun _ _ h => h }
  deletedEntities := file.deletedEntities.map (fun row =>
    ⟨row.entity, row.rootSequenceAt.getD 0, bucketOf row.entity.id⟩) fun _ _ h => h
  rootState := rootState
  rootHistory := rootHistory
  rootBuckets := rootBuckets

theorem Upgraded.holds (h : Upgraded file after) (hdistinct : file.DistinctPriorities)
    {root : RootState} (hroot : after.rootState = some root) :
    after.Holds (file.upgradedStore hdistinct root after.rootHistory after.recomputeBucketHash) where
  cards := (List.map_map.trans h.cards.symm).symm
  cardVersions := (List.map_map.trans h.cardVersions.symm).symm
  tags := (List.map_map.trans h.tags.symm).symm
  tagVersions := (List.map_map.trans h.tagVersions.symm).symm
  deletedEntities := (List.map_map.trans h.deletedEntities.symm).symm
  rootState := hroot
  rootHistory := rfl
  rootBuckets := h.buckets

omit [Blake3] in
/-- A file that holds a store has all tables and indexes already. -/
theorem Holds.initSchema_eq {store : Store} (hholds : after.Holds store) :
    after.initSchema = (after, .ok ()) := by
  have hdistinct : after.DistinctPriorities := by
    unfold DistinctPriorities
    rw [hholds.cards, List.pairwise_map]
    exact store.cards.live.unique.imp fun hunique hpriority => hunique (.inr hpriority)
  have hstate : some (after.rootState.getD .empty) = after.rootState := by
    rw [hholds.rootState]
    rfl
  have hbuckets : (fun bucket => some ((after.rootBuckets bucket).getD zeroHash)) =
      after.rootBuckets := by
    funext bucket
    rw [hholds.rootBuckets bucket]
    rfl
  unfold initSchema createRootTables
  rw [if_pos hdistinct, hstate, hbuckets]

theorem Holds.recomputeBucketHash_eq {store : Store} (hholds : after.Holds store) :
    after.recomputeBucketHash = BlazeList.recomputeBucketHash store := by
  funext bucket
  unfold recomputeBucketHash BlazeList.recomputeBucketHash
  rw [hholds.cards, hholds.tags, hholds.deletedEntities]
  have hpredicate (bucketAt : Fin 256) :
      decide (some bucketAt = some bucket) = decide (bucketAt = bucket) :=
    decide_eq_decide.mpr Option.some_inj
  apply congr (congrArg₂ bucketHash ?_ ?_) ?_
  · exact bucketHashes_map _ (fun _ => rfl) (fun _ => rfl) (fun row => hpredicate row.bucket) _
  · exact bucketHashes_map _ (fun _ => rfl) (fun _ => rfl) (fun row => hpredicate row.bucket) _
  · exact bucketHashes_map _ (fun _ => rfl) (fun _ => rfl) (fun row => hpredicate row.bucket) _

section UpgradedStore

variable {hdistinct : file.DistinctPriorities} {rootState : RootState}
  {rootHistory : Table historyConflict} {rootBuckets : Fin 256 → Hash}

theorem Upgradable.getCard_upgradedStore (hold : file.Upgradable) {row : OldRow Card}
    (hrow : row ∈ file.cards) :
    getCard (file.upgradedStore hdistinct rootState rootHistory rootBuckets) row.entity.id =
      .ok (some row.entity) := by
  let live : EntityRow Card := ⟨row.entity, row.rootSequenceAt.getD 0, bucketOf row.entity.id⟩
  have hlive : live ∈
      (file.upgradedStore hdistinct rootState rootHistory rootBuckets).cards.live :=
    List.mem_map.mpr ⟨row, hrow, rfl⟩
  have hread : Stored.fromRow live.entity = .ok row.entity :=
    cardFromRow_eq_ok_iff.mpr ⟨hold.cards row hrow, rfl⟩
  exact get_of_mem hlive hread

theorem Upgradable.verify_ensureImplies (hold : file.Upgradable) {row : OldRow OldTag}
    (hrow : row ∈ file.tags) : Entity.verify row.entity.tag.ensureImplies = true := by
  rw [Entity.verify_iff, Entity.expectedHash, LegacyTag.canonicalBytes_ensureImplies]
  exact (hold.tags row hrow).2

theorem Upgradable.getTag_upgradedStore (hold : file.Upgradable) {row : OldRow OldTag}
    (hrow : row ∈ file.tags) :
    getTag (file.upgradedStore hdistinct rootState rootHistory rootBuckets) row.entity.id =
      .ok (some row.entity.tag.ensureImplies) := by
  let live : EntityRow Tag :=
    ⟨row.entity.tag.ensureImplies, row.rootSequenceAt.getD 0, bucketOf row.entity.id⟩
  have hlive : live ∈
      (file.upgradedStore hdistinct rootState rootHistory rootBuckets).tags.live :=
    List.mem_map.mpr ⟨row, hrow, rfl⟩
  have hread : Stored.fromRow live.entity = .ok row.entity.tag.ensureImplies :=
    tagFromRow_eq_ok_iff.mpr ⟨hold.verify_ensureImplies hrow, rfl⟩
  exact get_of_mem hlive hread

omit [Blake3] in
theorem filed_upgradedStore :
    Filed (file.upgradedStore hdistinct rootState rootHistory rootBuckets) where
  cards := by
    intro row hrow
    obtain ⟨old, -, rfl⟩ := List.mem_map.mp hrow
    rfl
  tags := by
    intro row hrow
    obtain ⟨old, -, rfl⟩ := List.mem_map.mp hrow
    rfl
  deleted := by
    intro row hrow
    obtain ⟨old, -, rfl⟩ := List.mem_map.mp hrow
    rfl

end UpgradedStore

theorem Upgradable.established (hold : file.Upgradable) (hupgraded : Upgraded file after)
    (hdistinct : file.DistinctPriorities) :
    ∃ store, after.Holds store ∧ file.Established store := by
  obtain ⟨root, hroot, hhash⟩ := hupgraded.root
  have hholds := hupgraded.holds hdistinct hroot
  have hrecompute := hholds.recomputeBucketHash_eq
  exact ⟨_, hholds, {
    cards := fun row hrow => ⟨hold.getCard_upgradedStore hrow, hold.cards row hrow⟩
    tags := fun row hrow =>
      ⟨_, hold.getTag_upgradedStore hrow, rfl, rfl, hold.verify_ensureImplies hrow⟩
    merkle := ⟨filed_upgradedStore, fun bucket => congrFun hrecompute bucket, hhash⟩ }⟩

/-! ### The steps on a store -/

/-- The implication lists may be added before the root is computed. -/
theorem exists_of_recomputeRootFromBuckets_migrateV2ToV3
    (hroot : file.migrateV2ToV3.recomputeRootFromBuckets now = .ok after) :
    ∃ migrated, file.recomputeRootFromBuckets now = .ok migrated ∧ after = migrated.migrateV2ToV3 := by
  obtain ⟨sequence, rootHistory, hsequence, hinsert, rfl⟩ :=
    recomputeRootFromBuckets_eq_ok_iff.mp hroot
  exact ⟨_, recomputeRootFromBuckets_eq_ok_iff.mpr
    ⟨sequence, rootHistory, hsequence, hinsert, rfl⟩, rfl⟩

theorem Holds.recomputeRootFromBuckets {store rooted : Store} {sequence : NonNegativeI64}
    (hholds : file.Holds store)
    (hroot : BlazeList.recomputeRootFromBuckets store now = .ok (rooted, sequence)) :
    ∃ after, file.recomputeRootFromBuckets now = .ok after ∧ after.Holds rooted := by
  unfold BlazeList.recomputeRootFromBuckets at hroot
  split at hroot
  · cases hroot
  · rename_i newSequence hsequence
    dsimp only at hroot
    split at hroot
    · cases hroot
    · rename_i rootHistory hinsert
      obtain ⟨rfl, -⟩ := Prod.mk.inj (Except.ok.inj hroot)
      have hbuckets : (fun bucket => (file.rootBuckets bucket).getD zeroHash) =
          store.rootBuckets := by
        funext bucket
        rw [hholds.rootBuckets bucket]
        rfl
      refine ⟨_, recomputeRootFromBuckets_eq_ok_iff.mpr
        ⟨newSequence, rootHistory, ?_, ?_, rfl⟩, { hholds with rootState := ?_, rootHistory := rfl }⟩
      · rw [hholds.rootState]
        exact hsequence
      · rw [hbuckets, hholds.rootHistory]
        exact hinsert
      · rw [hbuckets]

/-! ### Opening -/

/-- The unique index is created after the transaction: two cards with one priority make it fail when the
file is of the new version already. -/
theorem openFile_iff (hold : file.Upgradable) (now : Int) :
    file.EstablishesInvariants now ↔ file.DistinctPriorities ∨ file.CannotMigrate := by
  have hcan : (∃ after, file.checkSchemaVersion true now = .ok after) ↔ ¬ file.CannotMigrate :=
    hold.exists_checkSchemaVersion_iff
  cases hcheck : file.checkSchemaVersion true now with
  | error error =>
      have hcannot : file.CannotMigrate := by
        by_contra hcannot
        obtain ⟨after, hok⟩ := hcan.mpr hcannot
        rw [hcheck] at hok
        cases hok
      have hopen : file.openFile true now = (file, .error error) := by
        rw [openFile, hcheck]
      refine iff_of_true ⟨?_, ?_⟩ (.inr hcannot)
      · intro after hok
        rw [hopen] at hok
        cases hok
      · intro after _ herror
        rw [hopen] at herror
        exact (Prod.ext_iff.mp herror).1.symm
  | ok checked =>
      have hupgraded := hold.upgraded hcheck
      have hcannot : ¬ file.CannotMigrate := hcan.mp ⟨checked, hcheck⟩
      by_cases hdistinct : file.DistinctPriorities
      · obtain ⟨_, hholds, -⟩ := hold.established hupgraded hdistinct
        have hopen : file.openFile true now = (checked, .ok ()) := by
          rw [openFile, hcheck]
          exact hholds.initSchema_eq
        refine iff_of_true ⟨?_, ?_⟩ (.inl hdistinct)
        · intro after hok
          rw [hopen] at hok
          cases hok
          exact ⟨hupgraded.version, hold.established hupgraded hdistinct⟩
        · intro after _ herror
          rw [hopen] at herror
          cases herror
      · obtain ⟨error, hopen⟩ : ∃ error, file.openFile true now = (checked, .error error) := by
          rw [openFile, hcheck]
          dsimp only
          rw [initSchema, if_neg fun h => hdistinct (hupgraded.distinctPriorities_iff.mp h)]
          exact ⟨_, rfl⟩
        refine iff_of_false (fun hestablishes => ?_) (not_or.mpr ⟨hdistinct, hcannot⟩)
        -- The transaction was committed, and the file is not the one that there was.
        have hsame := hestablishes.2 checked error hopen
        have hversion := hupgraded.version
        have hmajor := hold.major
        rw [hsame] at hversion
        rw [hversion] at hmajor
        exact absurd hmajor (by decide)

end DatabaseFile

def initialFile (cards : Table (OldRow.conflict Card.id)) : DatabaseFile :=
  ⟨⟨0, 9, 0⟩, cards, .empty, .empty, .empty, .empty, [], none, .empty, fun _ => none⟩

theorem upgradable_initialFile [Blake3] {cards : Table (OldRow.conflict Card.id)}
    (hverify : ∀ row ∈ cards, Entity.verify row.entity = true) : (initialFile cards).Upgradable where
  major := Nat.zero_lt_succ 2
  cards := hverify
  tags _ hrow := absurd hrow (Table.not_mem_empty _)
  tagVersions _ hrow := absurd hrow (Table.not_mem_empty _)
  coherent h := absurd h (Nat.not_succ_le_zero 0)

def legacyCard : Card := @Card.first polynomialBlake3 2 "" ⟨0, zero_mem_i64⟩ [3] true .epoch none

def legacyTag : LegacyTag :=
  let tag : LegacyTag := ⟨3, "", none, .epoch, .epoch, legacyCard.count, zeroHash, zeroHash⟩
  { tag with hash := polynomialBlake3.digest tag.canonicalBytes }

def taggedFile : DatabaseFile :=
  { initialFile ⟨[⟨sampleCard 1 ⟨7, seven_mem_i64⟩, none, none⟩, ⟨legacyCard, none, none⟩], by decide⟩ with
    cardVersions := ⟨[⟨sampleCard 1 ⟨7, seven_mem_i64⟩, none⟩, ⟨legacyCard, none⟩], by decide⟩
    tags := ⟨[⟨⟨legacyTag, none⟩, none, none⟩], List.pairwise_singleton _ _⟩
    tagVersions := ⟨[⟨⟨legacyTag, none⟩, none⟩], List.pairwise_singleton _ _⟩ }

theorem establishesInvariants_taggedFile :
    let _ := polynomialBlake3
    taggedFile.EstablishesInvariants 0 ∧ (taggedFile.openFile true 0).2.toOption.isSome := by
  intro _
  have hupgradable : taggedFile.Upgradable :=
    { @upgradable_initialFile polynomialBlake3 taggedFile.cards (by decide +kernel) with
      tags := by decide +kernel
      tagVersions := by decide +kernel
      coherent := fun h => absurd h (by decide) }
  exact ⟨(DatabaseFile.openFile_iff hupgradable 0).mpr (.inl (by decide)), by decide +kernel⟩

def sharedPriorityFile : DatabaseFile :=
  initialFile ⟨[⟨sampleCard 1 ⟨7, seven_mem_i64⟩, none, none⟩, ⟨sampleCard 2 ⟨7, seven_mem_i64⟩, none, none⟩],
    by decide⟩

/-- The file could not be opened, and it is of version 3 with new columns afterwards. -/
theorem not_establishesInvariants_sharedPriorityFile :
    let _ := polynomialBlake3
    sharedPriorityFile.Upgradable ∧ ¬ sharedPriorityFile.EstablishesInvariants 0 ∧
      (sharedPriorityFile.openFile true 0).2.toOption = none ∧
      (sharedPriorityFile.openFile true 0).1.version = protocolVersion ∧
      (sharedPriorityFile.openFile true 0).1.cards.rows ≠ sharedPriorityFile.cards.rows := by
  intro _
  have hfails : (sharedPriorityFile.openFile true 0).2.toOption = none ∧
      (sharedPriorityFile.openFile true 0).1.version = protocolVersion ∧
      (sharedPriorityFile.openFile true 0).1.cards.rows ≠ sharedPriorityFile.cards.rows := by
    decide +kernel
  refine ⟨upgradable_initialFile (by decide +kernel), ?_, hfails⟩
  intro hestablishes
  obtain ⟨hnone, -, hrows⟩ := hfails
  cases hopen : sharedPriorityFile.openFile true 0 with
  | mk after result =>
      rw [hopen] at hnone hrows
      cases result with
      | ok _ => cases hnone
      | error error => exact hrows (by rw [hestablishes.2 after error hopen])

/-! ### The migrated store -/

def LegacyDatabase.toFile (db : LegacyDatabase) : DatabaseFile where
  version := ⟨0, 0, 0⟩
  cards := db.cards.map (fun card => ⟨card, none, none⟩) fun _ _ h => h
  cardVersions := db.cardVersions.map (fun card => ⟨card, none⟩) fun _ _ h => h
  tags := db.tags.map (fun tag => ⟨⟨tag, none⟩, none, none⟩) fun _ _ h => h
  tagVersions := db.tagVersions.map (fun tag => ⟨⟨tag, none⟩, none⟩) fun _ _ h => h
  deletedEntities := db.deletedEntities.map (fun deleted => ⟨deleted, none, none⟩) fun _ _ h => h
  malformedIds := []
  rootState := db.rootState
  rootHistory := db.rootHistory
  rootBuckets := fun _ => none

theorem LegacyDatabase.holds_prepared [Blake3] {db : LegacyDatabase} {store : Store}
    (hcolumns : ensureColumns db = .ok store) :
    db.toFile.prepared.migrateV2ToV3.Holds
      ((List.finRange 256).foldl refreshBucket (backfillBucketColumn store)) := by
  let cached : Store :=
    { backfillBucketColumn store with
      rootBuckets := db.toFile.prepared.migrateV2ToV3.recomputeBucketHash }
  have hcached : db.toFile.prepared.migrateV2ToV3.Holds cached := by
    unfold ensureColumns at hcolumns
    split at hcolumns
    · obtain rfl := Except.ok.inj hcolumns
      exact {
        cards := by
          change List.map _ (List.map _ (List.map _ db.cards.rows)) =
            List.map _ (List.map _ (List.map _ db.cards.rows))
          simp only [List.map_map]
          rfl
        cardVersions := by
          change List.map _ (List.map _ db.cardVersions.rows) =
            List.map _ (List.map _ db.cardVersions.rows)
          simp only [List.map_map]
          rfl
        tags := by
          change List.map _ (List.map _ (List.map _ (List.map _ db.tags.rows))) =
            List.map _ (List.map _ (List.map _ db.tags.rows))
          simp only [List.map_map]
          rfl
        tagVersions := by
          change List.map _ (List.map _ (List.map _ db.tagVersions.rows)) =
            List.map _ (List.map _ db.tagVersions.rows)
          simp only [List.map_map]
          rfl
        deletedEntities := by
          change List.map _ (List.map _ (List.map _ db.deletedEntities.rows)) =
            List.map _ (List.map _ (List.map _ db.deletedEntities.rows))
          simp only [List.map_map]
          rfl
        rootState := rfl
        rootHistory := rfl
        rootBuckets := fun bucket =>
          congrArg some (congrFun (DatabaseFile.recomputeBucketHash_migrateV2ToV3 _) bucket).symm }
    · cases hcolumns
  have hbuckets : refreshed (backfillBucketColumn store) (· ∈ List.finRange 256) =
      db.toFile.prepared.migrateV2ToV3.recomputeBucketHash := by
    rw [hcached.recomputeBucketHash_eq]
    funext bucket
    exact if_pos (List.mem_finRange bucket)
  rw [foldl_refreshBucket, hbuckets]
  exact hcached

/-- The migrated file holds the migrated store. -/
theorem LegacyDatabase.openFile_toFile [Blake3] {db : LegacyDatabase} {now : Int} {store : Store}
    (hopen : openLegacy db now = .ok store) :
    ∃ after, db.toFile.openFile true now = (after, .ok ()) ∧ after.Holds store := by
  simp only [openLegacy, Except.bind_eq_ok_iff, Except.mapError_eq_ok_iff, migrateV0ToV1,
    Prod.exists, pure, Except.pure, Except.ok.injEq] at hopen
  obtain ⟨columns, hcolumns, rooted, sequence, hroot, rfl⟩ := hopen
  obtain ⟨after, hafter, hholds⟩ := (holds_prepared hcolumns).recomputeRootFromBuckets hroot
  obtain ⟨migrated, hmigrated, rfl⟩ :=
    DatabaseFile.exists_of_recomputeRootFromBuckets_migrateV2ToV3 hafter
  have hmigrate : db.toFile.migrateV0ToV1 now = .ok migrated :=
    DatabaseFile.migrateV0ToV1_eq_ok_iff.mpr ⟨rfl, hmigrated⟩
  have hversion : ({ migrated.migrateV2ToV3 with version := protocolVersion } : DatabaseFile).Holds
      rooted := { hholds with }
  have hcheck : db.toFile.checkSchemaVersion true now =
      .ok { migrated.migrateV2ToV3 with version := protocolVersion } := by
    have hmajor : db.toFile.version.major = 0 := rfl
    rw [DatabaseFile.checkSchemaVersion_eq (by omega),
      DatabaseFile.migrateSchemaMajorToMajor_eq (by omega), if_pos hmajor, hmigrate]
    rfl
  refine ⟨_, ?_, hversion⟩
  rw [DatabaseFile.openFile, hcheck]
  exact hversion.initSchema_eq

end BlazeList
