import BlazeList.Lib.OrderBy
import BlazeList.Server.Effects

/-!
# The root hash

A two-level Merkle cache: each of the 256 buckets holds the hash of its rows, and the root is the hash
of the buckets. Only the buckets of the ids an operation reports are computed anew.
-/

namespace BlazeList

/-- `SELECT hash … WHERE bucket = ? ORDER BY id`. -/
def EntityTables.bucketHashes {E : Type} [Stored E] (tables : EntityTables E) (bucket : Fin 256) :
    List Hash :=
  ((tables.live.rows.filter fun row => row.bucket = bucket).orderBy fun row =>
    Entity.id row.entity).map fun row => Entity.hash row.entity

def deletedBucketHashes (deletedEntities : Table deletedConflict) (bucket : Fin 256) : List Hash :=
  ((deletedEntities.rows.filter fun row => row.bucket = bucket).orderBy fun row =>
    row.entity.id).map fun row => row.entity.hash

section

variable [Blake3]

def bucketHash (cardHashes tagHashes deletedHashes : List Hash) : Hash :=
  if cardHashes.isEmpty && tagHashes.isEmpty && deletedHashes.isEmpty then
    zeroHash
  else
    Blake3.digest ((cardHashes ++ tagHashes ++ deletedHashes).flatMap Hash.asBytes)

def recomputeBucketHash (store : Store) (bucket : Fin 256) : Hash :=
  bucketHash (store.cards.bucketHashes bucket) (store.tags.bucketHashes bucket)
    (deletedBucketHashes store.deletedEntities bucket)

def rootHash (buckets : Fin 256 → Hash) : Hash :=
  let bucketHashes := List.ofFn buckets
  if bucketHashes.all fun hash => hash = zeroHash then
    zeroHash
  else
    Blake3.digest (bucketHashes.flatMap Hash.asBytes)

theorem rootHash_of_zero {buckets : Fin 256 → Hash} (hzero : ∀ bucket, buckets bucket = zeroHash) :
    rootHash buckets = zeroHash := by
  have hall : ∀ hash ∈ List.ofFn buckets, hash = zeroHash := by
    intro hash hhash
    obtain ⟨bucket, rfl⟩ := List.mem_ofFn.mp hhash
    exact hzero bucket
  unfold rootHash
  rw [if_pos (List.all_eq_true.mpr fun hash hhash => decide_eq_true (hall hash hhash))]

/-- The next sequence and its row in the history. A sequence past the integer range turns into a
floating-point value, which does not read back. -/
def recomputeRootFromBuckets (store : Store) (now : Int) :
    Except SqlError (Store × NonNegativeI64) :=
  let hash := rootHash store.rootBuckets
  match NonNegativeI64.tryFrom (store.rootState.sequence.val + 1) with
  | none => .error (.invalidColumnType 0 "sequence" "Real")
  | some newSequence =>
      match store.rootHistory.insert? ⟨newSequence, hash, now⟩ with
      | none => .error (.sqliteFailure "UNIQUE constraint failed: root_history.sequence")
      | some rootHistory =>
          .ok ({ store with rootState := ⟨hash, newSequence⟩, rootHistory }, newSequence)

def refreshBucket (store : Store) (bucket : Fin 256) : Store :=
  { store with
    rootBuckets := Function.update store.rootBuckets bucket (recomputeBucketHash store bucket) }

def recomputeRootForIds (store : Store) (ids : List Uuid) (now : Int) :
    Except SqlError (Store × NonNegativeI64) :=
  let buckets := ((ids.map bucketOf).insertionSort (· ≤ ·)).dedup
  recomputeRootFromBuckets (buckets.foldl refreshBucket store) now

def refreshed (store : Store) (touched : Fin 256 → Prop) [DecidablePred touched] :
    Fin 256 → Hash :=
  fun bucket => if touched bucket then recomputeBucketHash store bucket else store.rootBuckets bucket

theorem foldl_refreshBucket (store : Store) (buckets : List (Fin 256)) :
    buckets.foldl refreshBucket store =
      { store with rootBuckets := refreshed store (· ∈ buckets) } := by
  suffices h : ∀ (hashes : Fin 256 → Hash),
      buckets.foldl refreshBucket { store with rootBuckets := hashes } =
        { store with
          rootBuckets := fun bucket =>
            if bucket ∈ buckets then recomputeBucketHash store bucket else hashes bucket } from
    h store.rootBuckets
  induction buckets with
  | nil => simp
  | cons first rest ih =>
      intro hashes
      rw [List.foldl_cons]
      apply (ih (Function.update hashes first (recomputeBucketHash store first))).trans
      congr 1
      funext bucket
      by_cases hrest : bucket ∈ rest
      · simp [hrest]
      · by_cases hfirst : bucket = first <;> simp [hrest, hfirst]

theorem recomputeRootForIds_eq_ok_iff {store after : Store} {ids : List Uuid} {now : Int}
    {sequence : NonNegativeI64} :
    recomputeRootForIds store ids now = .ok (after, sequence) ↔
      sequence.val = store.rootState.sequence.val + 1 ∧
        ∃ rootHistory : Table historyConflict,
          let rootBuckets := refreshed store (· ∈ ids.map bucketOf)
          rootHistory.rows =
            store.rootHistory.rows ++ [⟨sequence, rootHash rootBuckets, now⟩] ∧
          after = { store with
            rootBuckets, rootHistory, rootState := ⟨rootHash rootBuckets, sequence⟩ } := by
  have hbuckets : refreshed store (· ∈ ((ids.map bucketOf).insertionSort (· ≤ ·)).dedup) =
      refreshed store (· ∈ ids.map bucketOf) := by
    funext bucket
    simp [refreshed]
  unfold recomputeRootForIds recomputeRootFromBuckets
  simp only [foldl_refreshBucket, hbuckets]
  cases htry : NonNegativeI64.tryFrom (store.rootState.sequence.val + 1) with
  | none =>
      simp only [reduceCtorEq, false_iff, not_and]
      intro hsequence
      have hsome := NonNegativeI64.tryFrom_eq_some_iff.mpr hsequence
      simp [htry] at hsome
  | some newSequence =>
      have hnew : newSequence.val = store.rootState.sequence.val + 1 :=
        NonNegativeI64.tryFrom_eq_some_iff.mp htry
      have hnew' : sequence.val = store.rootState.sequence.val + 1 ↔ sequence = newSequence := by
        rw [NonNegativeI64.ext_iff, hnew]
      rw [hnew']
      dsimp only
      split
      · rename_i hinsert
        obtain ⟨other, hother, hconflict⟩ := Table.insert?_eq_none_iff.mp hinsert
        simp only [reduceCtorEq, false_iff, not_and, not_exists]
        rintro rfl rootHistory hrows -
        have hunique := rootHistory.unique
        rw [hrows, List.pairwise_append] at hunique
        exact hunique.2.2 other hother _ List.mem_cons_self hconflict
      · rename_i inserted hinsert
        obtain ⟨-, hrows⟩ := Table.insert?_eq_some_iff.mp hinsert
        simp only [Except.ok.injEq, Prod.mk.injEq]
        constructor
        · rintro ⟨rfl, rfl⟩
          exact ⟨rfl, inserted, hrows, rfl⟩
        · rintro ⟨rfl, rootHistory, hrows', rfl⟩
          have heq : rootHistory = inserted := Table.ext (hrows'.trans hrows.symm)
          rw [heq]
          exact ⟨rfl, rfl⟩

/-- The root cannot take another sequence: it is at the last one, or the next is in the history. -/
def Store.Exhausted (store : Store) : Prop :=
  store.rootState.sequence.val = 9223372036854775807 ∨
    ∃ row ∈ store.rootHistory, row.sequence.val = store.rootState.sequence.val + 1

theorem exists_recomputeRootForIds_iff {store : Store} {ids : List Uuid} {now : Int} :
    (∃ result, recomputeRootForIds store ids now = .ok result) ↔ ¬store.Exhausted := by
  constructor
  · rintro ⟨⟨after, sequence⟩, hok⟩
    obtain ⟨hsequence, rootHistory, hrows, -⟩ := recomputeRootForIds_eq_ok_iff.mp hok
    rintro (hlast | ⟨row, hrow, hnext⟩)
    · have hmax := sequence.le_max
      omega
    · have hunique := rootHistory.unique
      rw [hrows, List.pairwise_append] at hunique
      exact hunique.2.2 row hrow _ List.mem_cons_self
        (NonNegativeI64.ext_iff.mpr (hnext.trans hsequence.symm))
  · intro hfree
    obtain ⟨hlast, hnext⟩ := not_or.mp hfree
    have hmax : store.rootState.sequence.val + 1 ≤ 9223372036854775807 := by
      have hle := store.rootState.sequence.le_max
      omega
    obtain ⟨row, hrow⟩ : ∃ row : HistoryRow, row = ⟨⟨_, hmax⟩,
        rootHash (refreshed store (· ∈ ids.map bucketOf)), now⟩ := ⟨_, rfl⟩
    have hunique : (store.rootHistory.rows ++ [row]).Pairwise
        fun a b => ¬historyConflict a b := by
      refine List.pairwise_append.mpr ⟨store.rootHistory.unique, List.pairwise_singleton _ _, ?_⟩
      intro old hold other hother hconflict
      rw [List.mem_singleton.mp hother, hrow] at hconflict
      exact hnext ⟨old, hold, NonNegativeI64.ext_iff.mp hconflict⟩
    have hrows : (⟨_, hunique⟩ : Table historyConflict).rows = store.rootHistory.rows ++
        [⟨⟨_, hmax⟩, rootHash (refreshed store (· ∈ ids.map bucketOf)), now⟩] :=
      congrArg (store.rootHistory.rows ++ [·]) hrow
    exact ⟨_, recomputeRootForIds_eq_ok_iff.mpr ⟨rfl, _, hrows, rfl⟩⟩

end

/-! ### Buckets an operation leaves alone -/

section Frame

variable {E : Type} [Stored E]

def EntityTables.Filed (tables : EntityTables E) : Prop :=
  ∀ row ∈ tables.live, row.bucket = bucketOf (Entity.id row.entity)

def DeletedFiled (deletedEntities : Table deletedConflict) : Prop :=
  ∀ row ∈ deletedEntities, row.bucket = bucketOf row.entity.id

variable {tables before after : EntityTables E} {bucket : Fin 256} {id : Uuid} {sequence : Nat}

theorem EntityTables.Filed.empty : (EntityTables.empty : EntityTables E).Filed := by
  simp [EntityTables.Filed, EntityTables.empty]

section

variable [Blake3] {store : Store} {versions : List E} {first latest : E}

theorem Pushed.filed (h : Pushed store before versions first latest after)
    (hfiled : before.Filed) : after.Filed := by
  intro row hrow
  rcases h.mem_live.mp hrow with ⟨hrow, -⟩ | rfl
  · exact hfiled row hrow
  · rfl

theorem Pushed.bucketHashes (h : Pushed store before versions first latest after)
    (hfiled : before.Filed) (hbucket : bucket ≠ bucketOf (Entity.id latest)) :
    after.bucketHashes bucket = before.bucketHashes bucket := by
  unfold EntityTables.bucketHashes
  rw [h.live_eq, Table.rows_replace, List.filter_append, List.filter_filter,
    List.filter_cons_of_neg (by simpa using hbucket.symm), List.filter_nil, List.append_nil]
  congr 2
  refine List.filter_congr fun row hrow => ?_
  by_cases hrowBucket : row.bucket = bucket
  · have hid : Entity.id row.entity ≠ Entity.id latest := by
      intro hid
      rw [← hrowBucket, hfiled row hrow, hid] at hbucket
      exact hbucket rfl
    have hclash : ¬ Stored.clash row.entity latest := fun hclash => hid (h.unclashed row hrow hclash)
    simp [hrowBucket, liveConflict, hid, hclash]
  · simp [hrowBucket]

end

theorem DeletedFiled.buryRow {deletedEntities : Table deletedConflict}
    (hfiled : DeletedFiled deletedEntities) (deleted : DeletedEntity) :
    DeletedFiled (buryRow deletedEntities deleted) := by
  intro row hrow
  rcases Table.mem_replace.mp hrow with ⟨hrow, -⟩ | rfl
  · exact hfiled row hrow
  · rfl

theorem deletedBucketHashes_buryRow {deletedEntities : Table deletedConflict}
    (hfiled : DeletedFiled deletedEntities) (deleted : DeletedEntity)
    (hbucket : bucket ≠ bucketOf deleted.id) :
    deletedBucketHashes (buryRow deletedEntities deleted) bucket =
      deletedBucketHashes deletedEntities bucket := by
  unfold deletedBucketHashes BlazeList.buryRow
  rw [Table.rows_replace, List.filter_append, List.filter_filter,
    List.filter_cons_of_neg (by simpa using hbucket.symm), List.filter_nil, List.append_nil]
  congr 2
  refine List.filter_congr fun row hrow => ?_
  by_cases hrowBucket : row.bucket = bucket
  · have hid : row.entity.id ≠ deleted.id := by
      intro hid
      rw [← hrowBucket, hfiled row hrow, hid] at hbucket
      exact hbucket rfl
    simp [hrowBucket, deletedConflict, hid]
  · simp [hrowBucket]

theorem EntityTables.Filed.remove (hfiled : tables.Filed) (id : Uuid) :
    (tables.remove id).Filed :=
  fun row hrow => hfiled row (mem_live_remove.mp hrow).1

theorem EntityTables.bucketHashes_remove (hfiled : tables.Filed) (hbucket : bucket ≠ bucketOf id) :
    (tables.remove id).bucketHashes bucket = tables.bucketHashes bucket := by
  unfold bucketHashes EntityTables.remove
  rw [Table.rows_delete, List.filter_filter]
  congr 2
  refine List.filter_congr fun row hrow => ?_
  by_cases hrowBucket : row.bucket = bucket
  · have hid : Entity.id row.entity ≠ id := by
      intro hid
      rw [← hrowBucket, hfiled row hrow, hid] at hbucket
      exact hbucket rfl
    simp [hrowBucket, hid]
  · simp [hrowBucket]

theorem EntityTables.Filed.stamp (hfiled : tables.Filed) (id : Uuid) (sequence : Nat) :
    (tables.stamp id sequence).Filed := by
  intro row hrow
  obtain ⟨old, hold, rfl⟩ := mem_live_stamp.mp hrow
  simpa using hfiled old hold

theorem EntityTables.bucketHashes_stamp :
    (tables.stamp id sequence).bucketHashes bucket = tables.bucketHashes bucket := by
  unfold bucketHashes EntityTables.stamp
  rw [Table.rows_update, List.filter_map, List.orderBy_map, List.map_map]
  simp [Function.comp_def]

theorem deletedBucketHashes_stampDeleted {deletedEntities : Table deletedConflict} :
    deletedBucketHashes (stampDeleted deletedEntities id sequence) bucket =
      deletedBucketHashes deletedEntities bucket := by
  unfold deletedBucketHashes stampDeleted
  rw [Table.rows_update, List.filter_map, List.orderBy_map, List.map_map]
  simp [Function.comp_def]

end Frame

end BlazeList
