import BlazeList.Server.RootHistory

/-!
# Coherence of the Merkle cache

As long as each pushed chain carries a single entity id, the buckets that a call refreshes are all those
whose rows it changed. The cached root is then the root of the contents, whatever calls produced them.
-/

namespace BlazeList

/-! ### Chains of one entity -/

def SingleId {E : Type} [Entity E] (versions : List E) : Prop :=
  ∀ v ∈ versions, ∀ w ∈ versions, Entity.id v = Entity.id w

instance {E : Type} [Entity E] (versions : List E) : Decidable (SingleId versions) :=
  inferInstanceAs (Decidable (∀ v ∈ versions, ∀ w ∈ versions, _ = _))

def PushItem.SingleId : PushItem → Prop
  | .cards versions => BlazeList.SingleId versions
  | .tags versions => BlazeList.SingleId versions
  | .deleteCard _ | .deleteTag _ => True

instance : (item : PushItem) → Decidable item.SingleId
  | .cards versions => inferInstanceAs (Decidable (BlazeList.SingleId versions))
  | .tags versions => inferInstanceAs (Decidable (BlazeList.SingleId versions))
  | .deleteCard _ | .deleteTag _ => isTrue trivial

def Call.SingleId (call : Call) : Prop := ∀ item ∈ call.mutation.items, item.SingleId

instance (call : Call) : Decidable call.SingleId :=
  inferInstanceAs (Decidable (∀ item ∈ call.mutation.items, item.SingleId))

/-! ### The root of the contents -/

section Scratch

variable [Blake3]

def scratchBucketHash (cards : List Card) (tags : List Tag) (deleted : List DeletedEntity)
    (bucket : Fin 256) : Hash :=
  bucketHash
    (((cards.filter fun card => bucketOf card.id = bucket).orderBy Card.id).map Card.hash)
    (((tags.filter fun tag => bucketOf tag.id = bucket).orderBy Tag.id).map Tag.hash)
    (((deleted.filter fun entity => bucketOf entity.id = bucket).orderBy DeletedEntity.id).map
      DeletedEntity.hash)

def scratchRootHash (cards : List Card) (tags : List Tag) (deleted : List DeletedEntity) : Hash :=
  rootHash (scratchBucketHash cards tags deleted)

end Scratch

/-- The hashes of a bucket in id order, for entities given in any order. -/
theorem map_hash_orderBy_eq {α β : Type} (id : α → Uuid) (hash : α → Hash) (entity : β → α)
    (p : α → Bool) {rows : List β} {entities : List α}
    (hid : ∀ a ∈ rows, ∀ b ∈ rows, id (entity a) = id (entity b) → a = b)
    (hperm : entities.Perm (rows.map entity)) :
    ((rows.filter fun row => p (entity row)).orderBy fun row => id (entity row)).map
        (fun row => hash (entity row)) =
      ((entities.filter p).orderBy id).map hash := by
  have hkey : ∀ a ∈ (rows.map entity).filter p, ∀ b ∈ (rows.map entity).filter p,
      id a = id b → a = b := by
    simp only [List.mem_filter, List.mem_map]
    rintro _ ⟨⟨a, ha, rfl⟩, -⟩ _ ⟨⟨b, hb, rfl⟩, -⟩ heq
    rw [hid a ha b hb heq]
  rw [List.orderBy_congr hkey (hperm.filter p), List.filter_map, List.orderBy_map, List.map_map]
  rfl

section Contents

variable {E : Type} [Stored E] {tables : EntityTables E}

theorem EntityTables.bucketHashes_eq (hfiled : tables.Filed) {entities : List E}
    (hperm : entities.Perm tables.entities) (bucket : Fin 256) :
    tables.bucketHashes bucket =
      ((entities.filter fun entity => bucketOf (Entity.id entity) = bucket).orderBy Entity.id).map
        Entity.hash := by
  have hfilter : (tables.live.rows.filter fun row => row.bucket = bucket) =
      tables.live.rows.filter fun row => bucketOf (Entity.id row.entity) = bucket := by
    refine List.filter_congr fun row hrow => ?_
    rw [hfiled row hrow]
  rw [bucketHashes, hfilter]
  exact map_hash_orderBy_eq Entity.id Entity.hash EntityRow.entity
    (fun entity => bucketOf (Entity.id entity) = bucket) (fun a ha b hb => eq_of_id_eq ha hb) hperm

theorem deletedBucketHashes_eq {deletedEntities : Table deletedConflict}
    (hfiled : DeletedFiled deletedEntities) {deleted : List DeletedEntity}
    (hperm : deleted.Perm (deletedEntities.rows.map DeletedRow.entity)) (bucket : Fin 256) :
    deletedBucketHashes deletedEntities bucket =
      ((deleted.filter fun entity => bucketOf entity.id = bucket).orderBy DeletedEntity.id).map
        DeletedEntity.hash := by
  have hfilter : (deletedEntities.rows.filter fun row => row.bucket = bucket) =
      deletedEntities.rows.filter fun row => bucketOf row.entity.id = bucket := by
    refine List.filter_congr fun row hrow => ?_
    rw [hfiled row hrow]
  rw [deletedBucketHashes, hfilter]
  exact map_hash_orderBy_eq DeletedEntity.id DeletedEntity.hash DeletedRow.entity
    (fun entity => bucketOf entity.id = bucket)
    (fun a ha b hb hid => Table.eq_of_conflict ha hb hid) hperm

end Contents

/-! ### The invariant -/

structure Filed (store : Store) : Prop where
  cards : store.cards.Filed
  tags : store.tags.Filed
  deleted : DeletedFiled store.deletedEntities

section

variable [Blake3]

structure MerkleInvariant (store : Store) : Prop where
  filed : Filed store
  buckets : ∀ bucket, store.rootBuckets bucket = recomputeBucketHash store bucket
  root : store.rootState.hash = rootHash store.rootBuckets

theorem merkleInvariant_initSchema : MerkleInvariant initSchema where
  filed := ⟨.empty, .empty, fun row hrow => absurd hrow (Table.not_mem_empty row)⟩
  buckets _ := rfl
  root := (rootHash_of_zero fun _ => rfl).symm

theorem Filed.pushItem {store after : Store} {item : PushItem} (hfiled : Filed store)
    (h : pushItem store item = .ok after) : Filed after := by
  rcases pushItem_cases h with ⟨_, _, _, _, rfl, hpushed, rfl⟩ | ⟨_, _, _, _, rfl, hpushed, rfl⟩ |
    ⟨_, rfl, -, -, rfl⟩ | ⟨_, rfl, -, -, -, -, rfl⟩
  · exact ⟨hpushed.filed hfiled.cards, hfiled.tags, hfiled.deleted⟩
  · exact ⟨hfiled.cards, hpushed.filed hfiled.tags, hfiled.deleted⟩
  · exact ⟨hfiled.cards.remove _, hfiled.tags, hfiled.deleted.buryRow _⟩
  · exact ⟨hfiled.cards, hfiled.tags.remove _, hfiled.deleted.buryRow _⟩

/-- An item leaves the buckets of other ids than its own alone. -/
theorem pushItem_recomputeBucketHash {store after : Store} {item : PushItem} {bucket : Fin 256}
    (h : pushItem store item = .ok after) (hsingle : item.SingleId) (hfiled : Filed store)
    (hbucket : ∀ id ∈ (Affected.empty.add item).all, bucketOf id ≠ bucket) :
    recomputeBucketHash after bucket = recomputeBucketHash store bucket := by
  unfold recomputeBucketHash
  rcases pushItem_cases h with ⟨versions, cards, first, latest, rfl, hpushed, rfl⟩ |
    ⟨versions, tags, first, latest, rfl, hpushed, rfl⟩ | ⟨id, rfl, -, -, rfl⟩ |
    ⟨id, rfl, -, -, -, -, rfl⟩
  · have hid : latest.id = first.id :=
      hsingle latest hpushed.latest_mem first hpushed.first_mem
    have hlatest : bucket ≠ bucketOf (Entity.id latest) := by
      refine (hbucket latest.id ?_).symm
      simp [Affected.all, Affected.add, Affected.empty, hpushed.head, hid]
    rw [hpushed.bucketHashes hfiled.cards hlatest]
  · have hid : latest.id = first.id :=
      hsingle latest hpushed.latest_mem first hpushed.first_mem
    have hlatest : bucket ≠ bucketOf (Entity.id latest) := by
      refine (hbucket latest.id ?_).symm
      simp [Affected.all, Affected.add, Affected.empty, hpushed.head, hid]
    rw [hpushed.bucketHashes hfiled.tags hlatest]
  · have hid : bucket ≠ bucketOf id :=
      (hbucket id (by simp [Affected.all, Affected.add, Affected.empty])).symm
    rw [EntityTables.bucketHashes_remove hfiled.cards hid,
      deletedBucketHashes_buryRow hfiled.deleted (DeletedEntity.new id) hid]
  · have hid : bucket ≠ bucketOf id :=
      (hbucket id (by simp [Affected.all, Affected.add, Affected.empty])).symm
    rw [EntityTables.bucketHashes_remove hfiled.tags hid,
      deletedBucketHashes_buryRow hfiled.deleted (DeletedEntity.new id) hid]

theorem Writes.recomputeBucketHash {store written : Store} {items : List PushItem}
    {bucket : Fin 256} (h : Writes store items written)
    (hsingle : ∀ item ∈ items, item.SingleId) (hfiled : Filed store)
    (hbucket : bucket ∉ (affectedOf items).all.map bucketOf) :
    recomputeBucketHash written bucket = BlazeList.recomputeBucketHash store bucket := by
  have hkept := h.preserves (fun state => Filed state ∧
      BlazeList.recomputeBucketHash state bucket = BlazeList.recomputeBucketHash store bucket)
    ⟨hfiled, rfl⟩ fun before item after hitem hbefore hpush => by
      refine ⟨hbefore.1.pushItem hpush, ?_⟩
      refine (pushItem_recomputeBucketHash hpush (hsingle item hitem) hbefore.1 ?_).trans hbefore.2
      rintro id hid rfl
      exact hbucket (List.mem_map_of_mem (mem_affectedOf_all.mpr ⟨item, hitem, hid⟩))
  exact hkept.2

theorem Committed.recomputeBucketHash {store written after : Store} {items : List PushItem}
    {now : Int} (h : Committed store items now written after) (bucket : Fin 256) :
    recomputeBucketHash after bucket = BlazeList.recomputeBucketHash written bucket := by
  unfold BlazeList.recomputeBucketHash
  rw [h.cards_eq, h.tags_eq, h.deleted_eq, EntityTables.bucketHashes_stampAll,
    EntityTables.bucketHashes_stampAll, deletedBucketHashes_stampDeletedAll]

theorem MerkleInvariant.committed {store written after : Store} {items : List PushItem} {now : Int}
    (hinv : MerkleInvariant store) (h : Committed store items now written after)
    (hsingle : ∀ item ∈ items, item.SingleId) : MerkleInvariant after := by
  have hwritten : Filed written :=
    h.writes.preserves Filed hinv.filed fun _ _ _ _ hbefore => hbefore.pushItem
  refine ⟨⟨?_, ?_, ?_⟩, fun bucket => ?_, h.rootHash_eq⟩
  · rw [h.cards_eq]
    exact hwritten.cards.stampAll
  · rw [h.tags_eq]
    exact hwritten.tags.stampAll
  · rw [h.deleted_eq]
    intro row hrow
    obtain ⟨old, hold, rfl⟩ := mem_stampDeletedAll.mp hrow
    split <;> exact hwritten.deleted old hold
  · rw [h.recomputeBucketHash, h.rootBuckets_eq, refreshed]
    split
    · rfl
    · rename_i hbucket
      rw [h.writes.root.2.2, hinv.buckets, h.writes.recomputeBucketHash hsingle hinv.filed hbucket]

theorem MerkleInvariant.execute {store : Store} {call : Call} (hinv : MerkleInvariant store)
    (hsingle : call.SingleId) : MerkleInvariant (execute store call) := by
  obtain heq | ⟨-, written, hcommitted⟩ := execute_cases store call
  · rw [heq]
    exact hinv
  · exact hinv.committed hcommitted hsingle

/-- The cached buckets show the rows, so the root is a function of the contents. -/
theorem MerkleInvariant.rootHash_eq_scratch {store : Store} (hinv : MerkleInvariant store)
    {cards : List Card} {tags : List Tag} {deleted : List DeletedEntity}
    (hcards : cards.Perm store.cards.entities) (htags : tags.Perm store.tags.entities)
    (hdeleted : deleted.Perm (store.deletedEntities.rows.map DeletedRow.entity)) :
    store.rootState.hash = scratchRootHash cards tags deleted := by
  rw [hinv.root, scratchRootHash]
  congr 1
  funext bucket
  rw [hinv.buckets, recomputeBucketHash, scratchBucketHash,
    EntityTables.bucketHashes_eq hinv.filed.cards hcards,
    EntityTables.bucketHashes_eq hinv.filed.tags htags,
    deletedBucketHashes_eq hinv.filed.deleted hdeleted]
  rfl

/-- What the Merkle cache, the root and its history say about the store they belong to. -/
structure RootCoherent (store : Store) : Prop where
  /-- Each cached bucket hash is the one computed from the current rows. -/
  buckets : ∀ bucket, store.rootBuckets bucket = recomputeBucketHash store bucket
  /-- The root is the one computed from scratch, from the contents in any order. -/
  root : ∀ cards tags deleted, cards.Perm store.cards.entities → tags.Perm store.tags.entities →
    deleted.Perm (store.deletedEntities.rows.map DeletedRow.entity) →
    store.rootState.hash = scratchRootHash cards tags deleted
  /-- The history has one row for each sequence, and the last one holds the root hash. -/
  sequences : store.rootHistory.rows.map (·.sequence.val) =
    List.range' 1 store.rootState.sequence.val
  last : ∀ row ∈ store.rootHistory.rows.getLast?, row.hash = store.rootState.hash
  /-- A call moves the sequence by one when it succeeds with something to write, else not at all. -/
  step : ∀ call, (execute store call).rootState.sequence.val = store.rootState.sequence.val +
    if (perform store call).isSome ∧ call.mutation.items ≠ [] then 1 else 0

theorem rootCoherent_run (calls : List Call) (hsingle : ∀ call ∈ calls, call.SingleId) :
    RootCoherent (Run.after execute initSchema calls) := by
  have hmeets : Run.Meets execute (fun _ call => call.SingleId) initSchema calls :=
    Run.meets_of_forall fun _ call => hsingle call
  have hmerkle : MerkleInvariant (Run.after execute initSchema calls) :=
    hmeets.invariant _ merkleInvariant_initSchema fun _ _ hinv => hinv.execute
  have hhistory : RootHistoryInvariant (Run.after execute initSchema calls) :=
    Run.invariant _ rootHistoryInvariant_initSchema (fun _ call hinv => hinv.execute call) calls
  exact
    { buckets := hmerkle.buckets
      root := fun cards tags deleted => hmerkle.rootHash_eq_scratch
      sequences := hhistory.sequences
      last := fun row hrow => (hhistory.last row hrow).2
      step := execute_sequence _ }

end

/-- A card and a tag pushed together, and the card deleted again. -/
theorem rootCoherent_sample :
    @RootCoherent polynomialBlake3 (@Run.after _ _ (@execute polynomialBlake3) initSchema
      [⟨.pushBatch [.cards [sampleCard 1 ⟨0, by decide⟩], .tags [sampleTag 2 []]], 0⟩,
        ⟨.deleteCard 1, 1⟩]) :=
  @rootCoherent_run polynomialBlake3 _ (by decide)

end BlazeList
