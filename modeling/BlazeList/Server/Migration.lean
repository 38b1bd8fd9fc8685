import BlazeList.Server.Storage

/-!
# The migration from version 0

A database of version 0 has no stamps, no buckets and no implication lists. Opening it adds the columns
with their defaults, computes buckets and root, and takes the next sequence. The rows keep the default
stamp, which no sync request asks for.
-/

namespace BlazeList

/-! ### The old tables -/

/-- A tag without an implication list. Its hash is that of a tag whose list is empty. -/
structure LegacyTag where
  id : Uuid
  title : String
  color : Option Rgb8
  createdAt : DateTime
  modifiedAt : DateTime
  count : NonNegativeI64
  ancestorHash : Hash
  hash : Hash
  deriving DecidableEq

/-- Neither the priorities of cards nor the root tables need be there as they are now. -/
structure LegacyDatabase where
  cards : Table fun a b : Card => a.id = b.id
  cardVersions : Table fun a b : Card => a.id = b.id ∧ a.count = b.count
  tags : Table fun a b : LegacyTag => a.id = b.id
  tagVersions : Table fun a b : LegacyTag => a.id = b.id ∧ a.count = b.count
  deletedEntities : Table fun a b : DeletedEntity => a.id = b.id
  rootState : Option RootState
  rootHistory : Table historyConflict

def LegacyTag.ensureImplies (tag : LegacyTag) : Tag :=
  { id := tag.id, title := tag.title, color := tag.color, createdAt := tag.createdAt
    modifiedAt := tag.modifiedAt, count := tag.count, ancestorHash := tag.ancestorHash
    hash := tag.hash, implies := [] }

/-! ### Opening -/

/-- The tables with every column that a step adds, at its default. The unique index on the priorities is
created last, and opening fails when two cards share one. -/
def ensureColumns (db : LegacyDatabase) : Except StorageError Store :=
  if hpriority : db.cards.rows.Pairwise fun a b => a.priority ≠ b.priority then
    .ok
      { cards :=
          { live := ⟨db.cards.rows.map fun card => ⟨card, 0, 0⟩, by
              rw [List.pairwise_map]
              exact (db.cards.unique.and hpriority).imp fun h hconflict => hconflict.elim h.1 h.2⟩
            versions := db.cardVersions.map (fun card => ⟨card, 0⟩) fun _ _ h => h }
        tags :=
          { live := db.tags.map (fun tag => ⟨tag.ensureImplies, 0, 0⟩) fun _ _ h =>
              h.elim id False.elim
            versions := db.tagVersions.map (fun tag => ⟨tag.ensureImplies, 0⟩) fun _ _ h => h }
        deletedEntities := db.deletedEntities.map (fun deleted => ⟨deleted, 0, 0⟩) fun _ _ h => h
        rootState := db.rootState.getD .empty
        rootHistory := db.rootHistory
        rootBuckets := fun _ => zeroHash }
  else
    .error (.ofSql (.sqliteFailure "UNIQUE constraint failed: cards.priority"))

def EntityTables.backfillBucket {E : Type} [Stored E] (tables : EntityTables E) : EntityTables E where
  live := tables.live.update (fun row => { row with bucket := bucketOf (Entity.id row.entity) })
    fun _ _ h => h
  versions := tables.versions

def backfillBucketColumn (store : Store) : Store :=
  { store with
    cards := store.cards.backfillBucket
    tags := store.tags.backfillBucket
    deletedEntities := store.deletedEntities.update
      (fun row => { row with bucket := bucketOf row.entity.id }) fun _ _ h => h }

section

variable [Blake3]

def migrateV0ToV1 (store : Store) (now : Int) : Except SqlError Store := do
  let backfilled := backfillBucketColumn store
  let (rooted, _) ← recomputeRootFromBuckets ((List.finRange 256).foldl refreshBucket backfilled) now
  return rooted

/-- `open` with migration allowed, for a database of major version 0. The step from 1 to 2 does nothing,
and that from 2 to 3 adds the implication lists. -/
def openLegacy (db : LegacyDatabase) (now : Int) : Except StorageError Store := do
  let store ← ensureColumns db
  (migrateV0ToV1 store now).mapError .ofSql

/-! ### What a full sync finds -/

/-- The full sync returns the whole content of the database. -/
def SyncsAll (db : LegacyDatabase) (store : Store) : Prop :=
  ∃ changes, getChangesSince store .min zeroHash = .ok changes ∧
    (∀ card ∈ db.cards, card ∈ changes.cards) ∧
    (∀ tag ∈ db.tags, tag.ensureImplies ∈ changes.tags) ∧
    ∀ deleted ∈ db.deletedEntities, deleted ∈ changes.deleted

structure LegacyDatabase.Bare (db : LegacyDatabase) : Prop where
  cards : db.cards.rows = []
  tags : db.tags.rows = []
  deletedEntities : db.deletedEntities.rows = []
  initial : ∀ row ∈ db.rootHistory, row.sequence = .min → row.hash = zeroHash

structure Unstamped (store : Store) : Prop where
  cards : ∀ row ∈ store.cards.live, row.rootSequenceAt = 0
  tags : ∀ row ∈ store.tags.live, row.rootSequenceAt = 0
  deleted : ∀ row ∈ store.deletedEntities, row.rootSequenceAt = 0

theorem openLegacy_unstamped {db : LegacyDatabase} {now : Int} {store : Store}
    (h : openLegacy db now = .ok store) : Unstamped store ∧
      ∃ row : HistoryRow, row.sequence.val ≠ 0 ∧
        store.rootHistory.rows = db.rootHistory.rows ++ [row] := by
  simp only [openLegacy, ensureColumns, Except.bind_eq_ok_iff, Except.mapError_eq_ok_iff] at h
  obtain ⟨columns, hcolumns, hmigrate⟩ := h
  split at hcolumns
  · obtain rfl := Except.ok.inj hcolumns
    simp only [migrateV0ToV1, Except.bind_eq_ok_iff, Prod.exists, pure, Except.pure, Except.ok.injEq,
      foldl_refreshBucket, recomputeRootFromBuckets] at hmigrate
    obtain ⟨rooted, sequence, hroot, rfl⟩ := hmigrate
    split at hroot
    · simp at hroot
    · rename_i newSequence hsequence
      split at hroot
      · simp at hroot
      · rename_i rootHistory hinsert
        obtain ⟨rfl, -⟩ := Prod.mk.inj (Except.ok.inj hroot)
        refine ⟨⟨?_, ?_, ?_⟩, _, ?_, (Table.insert?_eq_some_iff.mp hinsert).2⟩
        · intro row hrow
          change row ∈ List.map _ (List.map _ _) at hrow
          obtain ⟨card, -, rfl⟩ := List.mem_map.mp (List.map_map ▸ hrow)
          rfl
        · intro row hrow
          change row ∈ List.map _ (List.map _ _) at hrow
          obtain ⟨tag, -, rfl⟩ := List.mem_map.mp (List.map_map ▸ hrow)
          rfl
        · intro row hrow
          change row ∈ List.map _ (List.map _ _) at hrow
          obtain ⟨deleted, -, rfl⟩ := List.mem_map.mp (List.map_map ▸ hrow)
          rfl
        · rw [NonNegativeI64.tryFrom_eq_some_iff.mp hsequence]
          exact Nat.succ_ne_zero _
  · simp at hcolumns

/-- On unstamped rows a full sync that passes the check of the root finds nothing. -/
theorem Unstamped.getChangesSince {store : Store} (h : Unstamped store) :
    getChangesSince store .min zeroHash =
      match store.rootHistory.find? fun row => row.sequence = .min with
      | some row =>
          if row.hash = zeroHash then .ok ⟨[], [], [], store.rootState⟩
          else .error (.rootHashMismatch .min row.hash)
      | none => .ok ⟨[], [], [], store.rootState⟩ := by
  have hcards : store.cards.changedSince 0 = [] := by
    simp only [EntityTables.changedSince, List.map_eq_nil_iff, List.filter_eq_nil_iff, decide_eq_true_eq]
    intro row hrow
    rw [h.cards row hrow]
    exact lt_irrefl 0
  have htags : store.tags.changedSince 0 = [] := by
    simp only [EntityTables.changedSince, List.map_eq_nil_iff, List.filter_eq_nil_iff, decide_eq_true_eq]
    intro row hrow
    rw [h.tags row hrow]
    exact lt_irrefl 0
  have hdeleted : (store.deletedEntities.rows.filter fun row => row.rootSequenceAt > 0) = [] := by
    simp only [List.filter_eq_nil_iff, decide_eq_true_eq]
    intro row hrow
    rw [h.deleted row hrow]
    exact lt_irrefl 0
  have hchanges : changesSince store 0 = .ok ⟨[], [], [], store.rootState⟩ := by
    simp [changesSince, hcards, htags, hdeleted, fromRows, pure, Except.pure, bind, Except.bind]
  unfold BlazeList.getChangesSince
  cases store.rootHistory.find? fun row => row.sequence = .min with
  | none => exact hchanges
  | some row =>
      exact congrArg (fun found => if row.hash = zeroHash then found
        else Except.error (.rootHashMismatch .min row.hash)) hchanges

theorem Unstamped.changes_eq {store : Store} (h : Unstamped store) {changes : ChangeSet}
    (hok : BlazeList.getChangesSince store .min zeroHash = .ok changes) :
    changes = ⟨[], [], [], store.rootState⟩ := by
  rw [h.getChangesSince] at hok
  split at hok
  · split at hok
    · exact (Except.ok.inj hok).symm
    · simp at hok
  · exact (Except.ok.inj hok).symm

/-- After a migration a full sync returns the content exactly when there is none. -/
theorem syncsAll_iff_bare {db : LegacyDatabase} {now : Int} {store : Store}
    (h : openLegacy db now = .ok store) : SyncsAll db store ↔ db.Bare := by
  obtain ⟨hunstamped, last, hlast, hhistory⟩ := openLegacy_unstamped h
  have hfind : ∀ row, store.rootHistory.find? (fun row => row.sequence = .min) = some row →
      row ∈ db.rootHistory ∧ row.sequence = .min := by
    intro row hrow
    have hmem := List.mem_of_find?_eq_some hrow
    have hholds := List.find?_some hrow
    have hsequence : row.sequence = .min := of_decide_eq_true hholds
    rw [hhistory, List.mem_append, List.mem_singleton] at hmem
    refine ⟨hmem.resolve_right ?_, hsequence⟩
    rintro rfl
    exact hlast (congrArg NonNegativeI64.val hsequence)
  constructor
  · rintro ⟨changes, hok, hcards, htags, hdeleted⟩
    obtain rfl := hunstamped.changes_eq hok
    refine ⟨?_, ?_, ?_, fun row hrow hsequence => ?_⟩
    · exact List.eq_nil_iff_forall_not_mem.mpr fun card hcard => List.not_mem_nil (hcards card hcard)
    · exact List.eq_nil_iff_forall_not_mem.mpr fun tag htag => List.not_mem_nil (htags tag htag)
    · exact List.eq_nil_iff_forall_not_mem.mpr fun deleted hmem =>
        List.not_mem_nil (hdeleted deleted hmem)
    · have hfound : store.rootHistory.find? (fun row => row.sequence = .min) = some row := by
        rw [Table.find?_eq_some_iff]
        · refine ⟨?_, decide_eq_true hsequence⟩
          rw [Table.mem_def, hhistory]
          exact List.mem_append_left _ hrow
        · exact fun a b ha hb => (of_decide_eq_true ha).trans (of_decide_eq_true hb).symm
      rw [hunstamped.getChangesSince, hfound] at hok
      by_contra hhash
      simp only [hhash, if_false, reduceCtorEq] at hok
  · rintro ⟨hcards, htags, hdeleted, hinitial⟩
    refine ⟨⟨[], [], [], store.rootState⟩, ?_, ?_, ?_, ?_⟩
    · rw [hunstamped.getChangesSince]
      split
      · rename_i row hrow
        obtain ⟨hmem, hsequence⟩ := hfind row hrow
        rw [if_pos (hinitial row hmem hsequence)]
      · rfl
    · intro card hcard
      rw [Table.mem_def, hcards] at hcard
      exact absurd hcard List.not_mem_nil
    · intro tag htag
      rw [Table.mem_def, htags] at htag
      exact absurd htag List.not_mem_nil
    · intro deleted hmem
      rw [Table.mem_def, hdeleted] at hmem
      exact absurd hmem List.not_mem_nil

end

def emptyLegacyDatabase : LegacyDatabase := ⟨.empty, .empty, .empty, .empty, .empty, none, .empty⟩

/-- The empty database at sequence 0 is synced in full. -/
theorem syncsAll_emptyLegacyDatabase :
    let _ := polynomialBlake3
    ∃ store, openLegacy emptyLegacyDatabase 0 = .ok store ∧ SyncsAll emptyLegacyDatabase store := by
  intro _
  have hopens : (openLegacy emptyLegacyDatabase 0).toOption.isSome = true := by decide +kernel
  obtain ⟨store, hstore⟩ := Option.isSome_iff_exists.mp hopens
  have hopen := Except.toOption_eq_some_iff.mp hstore
  refine ⟨store, hopen, (syncsAll_iff_bare hopen).mpr ⟨rfl, rfl, rfl, fun row hrow => ?_⟩⟩
  exact absurd hrow (Table.not_mem_empty row)

def cardLegacyDatabase : LegacyDatabase :=
  { emptyLegacyDatabase with
    cards := ⟨[sampleCard 1 ⟨7, seven_mem_i64⟩], List.pairwise_singleton _ _⟩
    cardVersions := ⟨[sampleCard 1 ⟨7, seven_mem_i64⟩], List.pairwise_singleton _ _⟩ }

/-- The card is there after the migration, and no full sync returns it. -/
theorem not_syncsAll_cardLegacyDatabase :
    let _ := polynomialBlake3
    ∃ store, openLegacy cardLegacyDatabase 0 = .ok store ∧
      store.cards.entities = [sampleCard 1 ⟨7, by decide⟩] ∧ ¬ SyncsAll cardLegacyDatabase store := by
  intro _
  have hopens : (openLegacy cardLegacyDatabase 0).toOption.map (fun store => store.cards.entities) =
      some [sampleCard 1 ⟨7, by decide⟩] := by decide +kernel
  obtain ⟨store, hstore, hentities⟩ := Option.map_eq_some_iff.mp hopens
  have hopen := Except.toOption_eq_some_iff.mp hstore
  refine ⟨store, hopen, hentities, ?_⟩
  rintro ⟨changes, hok, hcards, -, -⟩
  obtain rfl := (openLegacy_unstamped hopen).1.changes_eq hok
  exact List.not_mem_nil (hcards _ (List.mem_singleton_self (sampleCard 1 ⟨7, by decide⟩)))

end BlazeList
