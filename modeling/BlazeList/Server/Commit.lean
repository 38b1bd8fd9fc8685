import BlazeList.Lib.Run
import BlazeList.Server.Storage

/-!
# What a call commits

Every call that succeeds writes its items one by one, and then commits: the buckets it touched are
refreshed, the root takes the next sequence, and what was written is stamped with it.
-/

namespace BlazeList

/-! ### Stamping several ids -/

section StampAll

variable {E : Type} [Stored E]

def EntityTables.stampAll (tables : EntityTables E) (ids : List Uuid) (sequence : Nat) :
    EntityTables E :=
  ids.foldl (fun tables id => tables.stamp id sequence) tables

def stampDeletedAll (deletedEntities : Table deletedConflict) (ids : List Uuid) (sequence : Nat) :
    Table deletedConflict :=
  ids.foldl (fun deletedEntities id => stampDeleted deletedEntities id sequence) deletedEntities

variable {tables : EntityTables E} {ids : List Uuid} {sequence : Nat}

theorem EntityTables.mem_live_stampAll {row : EntityRow E} :
    row ∈ (tables.stampAll ids sequence).live ↔
      ∃ old ∈ tables.live,
        (if Entity.id old.entity ∈ ids then { old with rootSequenceAt := sequence } else old) = row := by
  induction ids generalizing tables with
  | nil => simp [stampAll]
  | cons id rest ih =>
      apply (@ih (tables.stamp id sequence)).trans
      simp only [mem_live_stamp, exists_exists_and_eq_and, EntityRow.stamp_entity]
      refine exists_congr fun old => and_congr_right fun _ => ?_
      by_cases hid : Entity.id old.entity = id <;>
        by_cases hrest : Entity.id old.entity ∈ rest <;> simp [EntityRow.stamp, hid, hrest]

theorem EntityTables.current_stampAll : (tables.stampAll ids sequence).current = tables.current := by
  induction ids generalizing tables with
  | nil => rfl
  | cons id rest ih => exact ih.trans current_stamp

theorem EntityTables.lineage_stampAll {x : Uuid} :
    (tables.stampAll ids sequence).lineage x = tables.lineage x := by
  induction ids generalizing tables with
  | nil => rfl
  | cons id rest ih => exact ih.trans lineage_stamp

theorem EntityTables.bucketHashes_stampAll {bucket : Fin 256} :
    (tables.stampAll ids sequence).bucketHashes bucket = tables.bucketHashes bucket := by
  induction ids generalizing tables with
  | nil => rfl
  | cons id rest ih => exact ih.trans bucketHashes_stamp

theorem EntityTables.Filed.stampAll (hfiled : tables.Filed) :
    (tables.stampAll ids sequence).Filed := by
  induction ids generalizing tables with
  | nil => exact hfiled
  | cons id rest ih => exact ih (hfiled.stamp id sequence)

variable {deletedEntities : Table deletedConflict}

theorem mem_stampDeletedAll {row : DeletedRow} :
    row ∈ stampDeletedAll deletedEntities ids sequence ↔
      ∃ old ∈ deletedEntities,
        (if old.entity.id ∈ ids then { old with rootSequenceAt := sequence } else old) = row := by
  induction ids generalizing deletedEntities with
  | nil => simp [stampDeletedAll]
  | cons id rest ih =>
      apply (@ih (stampDeleted deletedEntities id sequence)).trans
      simp only [stampDeleted, Table.mem_update, exists_exists_and_eq_and, DeletedRow.stamp_entity]
      refine exists_congr fun old => and_congr_right fun _ => ?_
      by_cases hid : old.entity.id = id <;>
        by_cases hrest : old.entity.id ∈ rest <;> simp [DeletedRow.stamp, hid, hrest]

theorem deletedBucketHashes_stampDeletedAll {bucket : Fin 256} :
    deletedBucketHashes (stampDeletedAll deletedEntities ids sequence) bucket =
      deletedBucketHashes deletedEntities bucket := by
  induction ids generalizing deletedEntities with
  | nil => rfl
  | cons id rest ih => exact ih.trans deletedBucketHashes_stampDeleted

theorem stampAffected_eq (store : Store) (affected : Affected) (sequence : Nat) :
    stampAffected store affected sequence =
      { store with
        cards := store.cards.stampAll affected.cardIds sequence
        tags := store.tags.stampAll affected.tagIds sequence
        deletedEntities :=
          stampDeletedAll store.deletedEntities affected.deletedIds sequence } := by
  have hcards : ∀ (ids : List Uuid) (store : Store),
      ids.foldl (fun store id => stampCardSequence store id sequence) store =
        { store with cards := store.cards.stampAll ids sequence } := by
    intro ids
    induction ids with
    | nil => exact fun store => rfl
    | cons id rest ih => exact fun store => ih (stampCardSequence store id sequence)
  have htags : ∀ (ids : List Uuid) (store : Store),
      ids.foldl (fun store id => stampTagSequence store id sequence) store =
        { store with tags := store.tags.stampAll ids sequence } := by
    intro ids
    induction ids with
    | nil => exact fun store => rfl
    | cons id rest ih => exact fun store => ih (stampTagSequence store id sequence)
  have hdeleted : ∀ (ids : List Uuid) (store : Store),
      ids.foldl (fun store id => stampDeleteSequence store id sequence) store =
        { store with
          deletedEntities := stampDeletedAll store.deletedEntities ids sequence } := by
    intro ids
    induction ids with
    | nil => exact fun store => rfl
    | cons id rest ih => exact fun store => ih (stampDeleteSequence store id sequence)
  simp only [stampAffected, hcards, htags, hdeleted]

end StampAll

/-! ### One item -/

variable [Blake3]

/-- What one item does to the tables, and to nothing else. -/
theorem pushItem_cases {store after : Store} {item : PushItem}
    (h : pushItem store item = .ok after) :
    (∃ versions cards first latest, item = .cards versions ∧
      Pushed store store.cards versions first latest cards ∧ after = { store with cards }) ∨
    (∃ versions tags first latest, item = .tags versions ∧
      Pushed store store.tags versions first latest tags ∧ after = { store with tags }) ∨
    (∃ id, item = .deleteCard id ∧ store.isDeleted id = false ∧
      (∃ row ∈ store.cards.live, row.entity.id = id) ∧
      after = { store with
        cards := store.cards.remove id
        deletedEntities := buryRow store.deletedEntities (DeletedEntity.new id) }) ∨
    (∃ id, item = .deleteTag id ∧ store.isDeleted id = false ∧
      (∃ row ∈ store.tags.live, row.entity.id = id) ∧
      (∀ row ∈ store.cards.live, id ∉ row.entity.tags) ∧
      (∀ row ∈ store.tags.live, row.entity.id ≠ id → id ∉ row.entity.implies) ∧
      after = { store with
        tags := store.tags.remove id
        deletedEntities := buryRow store.deletedEntities (DeletedEntity.new id) }) := by
  cases item with
  | cards versions =>
      obtain ⟨cards, first, latest, hpushed, rfl⟩ := pushCardVersionsInner_eq_ok_iff.mp h
      exact .inl ⟨versions, cards, first, latest, rfl, hpushed, rfl⟩
  | tags versions =>
      obtain ⟨tags, first, latest, hpushed, rfl⟩ := pushTagVersionsInner_eq_ok_iff.mp h
      exact .inr (.inl ⟨versions, tags, first, latest, rfl, hpushed, rfl⟩)
  | deleteCard id =>
      obtain ⟨⟨deleted, written⟩, hdelete, rfl⟩ :=
        Except.map_eq_ok_iff.mp (Except.mapError_eq_ok_iff.mp h)
      obtain ⟨hdeleted, hexists, -, rfl⟩ := deleteCardInner_eq_ok_iff.mp hdelete
      exact .inr (.inr (.inl ⟨id, rfl, hdeleted, hexists, rfl⟩))
  | deleteTag id =>
      obtain ⟨⟨deleted, written⟩, hdelete, rfl⟩ :=
        Except.map_eq_ok_iff.mp (Except.mapError_eq_ok_iff.mp h)
      obtain ⟨hdeleted, hexists, hcards, htags, -, rfl⟩ := deleteTagInner_eq_ok_iff.mp hdelete
      exact .inr (.inr (.inr ⟨id, rfl, hdeleted, hexists, hcards, htags, rfl⟩))

def Writes (store : Store) (items : List PushItem) (written : Store) : Prop :=
  items.foldlM pushItem store = .ok written

theorem writes_nil {store written : Store} : Writes store [] written ↔ written = store := by
  simp [Writes, pure, Except.pure, eq_comm]

theorem writes_cons {store written : Store} {item : PushItem} {items : List PushItem} :
    Writes store (item :: items) written ↔
      ∃ next, pushItem store item = .ok next ∧ Writes next items written := by
  simp [Writes, List.foldlM_cons]

/-- What every item keeps, a list of items keeps. -/
theorem Writes.preserves {store written : Store} {items : List PushItem}
    (h : Writes store items written) (inv : Store → Prop) (hstore : inv store)
    (hitem : ∀ store item after, item ∈ items → inv store → pushItem store item = .ok after →
      inv after) : inv written := by
  induction items generalizing store with
  | nil => exact writes_nil.mp h ▸ hstore
  | cons item rest ih =>
      obtain ⟨next, hnext, hrest⟩ := writes_cons.mp h
      exact ih hrest (hitem store item next List.mem_cons_self hstore hnext)
        fun s i a hi => hitem s i a (List.mem_cons_of_mem _ hi)

/-- What each item does to a keyed content, the items do in order. -/
theorem Writes.content {κ ν : Type} [DecidableEq κ] {view : Store → κ → Option ν}
    {writes : PushItem → List (κ × Option ν)} {store written : Store} {items : List PushItem}
    (h : Writes store items written)
    (hitem : ∀ store item after, pushItem store item = .ok after →
      view after = Overlay.applyAll (view store) (writes item)) :
    view written = Overlay.applyAll (view store) (items.flatMap writes) := by
  induction items generalizing store with
  | nil => rw [writes_nil.mp h, List.flatMap_nil, Overlay.applyAll_nil]
  | cons item rest ih =>
      obtain ⟨next, hnext, hrest⟩ := writes_cons.mp h
      rw [ih hrest, hitem store item next hnext, List.flatMap_cons, Overlay.applyAll_append]

theorem pushItem_cards_current {store after : Store} {item : PushItem}
    (h : pushItem store item = .ok after) :
    after.cards.current = Overlay.applyAll store.cards.current item.cardWrites := by
  rcases pushItem_cases h with ⟨versions, cards, first, latest, rfl, hpushed, rfl⟩ |
    ⟨versions, tags, first, latest, rfl, hpushed, rfl⟩ | ⟨id, rfl, -, -, rfl⟩ |
    ⟨id, rfl, -, -, -, -, rfl⟩
  · exact hpushed.current_eq_applyAll
  · rfl
  · exact EntityTables.current_remove
  · rfl

theorem pushItem_tags_current {store after : Store} {item : PushItem}
    (h : pushItem store item = .ok after) :
    after.tags.current = Overlay.applyAll store.tags.current item.tagWrites := by
  rcases pushItem_cases h with ⟨versions, cards, first, latest, rfl, hpushed, rfl⟩ |
    ⟨versions, tags, first, latest, rfl, hpushed, rfl⟩ | ⟨id, rfl, -, -, rfl⟩ |
    ⟨id, rfl, -, -, -, -, rfl⟩
  · rfl
  · exact hpushed.current_eq_applyAll
  · rfl
  · exact EntityTables.current_remove

theorem Writes.cards_current {store written : Store} {items : List PushItem}
    (h : Writes store items written) :
    written.cards.current =
      Overlay.applyAll store.cards.current (items.flatMap PushItem.cardWrites) :=
  h.content fun _ _ _ => pushItem_cards_current

theorem Writes.tags_current {store written : Store} {items : List PushItem}
    (h : Writes store items written) :
    written.tags.current =
      Overlay.applyAll store.tags.current (items.flatMap PushItem.tagWrites) :=
  h.content fun _ _ _ => pushItem_tags_current

def affectedOf (items : List PushItem) : Affected := items.foldl Affected.add .empty

omit [Blake3] in
theorem foldl_add (affected : Affected) (items : List PushItem) :
    items.foldl Affected.add affected =
      ⟨affected.cardIds ++ items.flatMap fun item => (Affected.empty.add item).cardIds,
        affected.tagIds ++ items.flatMap fun item => (Affected.empty.add item).tagIds,
        affected.deletedIds ++ items.flatMap fun item => (Affected.empty.add item).deletedIds⟩ := by
  induction items generalizing affected with
  | nil => simp
  | cons item rest ih =>
      rw [List.foldl_cons, ih]
      cases item <;> simp [Affected.add, Affected.empty]

omit [Blake3] in
/-- The affected ids are those of the items one by one. -/
theorem affectedOf_eq (items : List PushItem) :
    affectedOf items =
      ⟨items.flatMap fun item => (Affected.empty.add item).cardIds,
        items.flatMap fun item => (Affected.empty.add item).tagIds,
        items.flatMap fun item => (Affected.empty.add item).deletedIds⟩ := by
  rw [affectedOf, foldl_add]
  simp [Affected.empty]

omit [Blake3] in
theorem mem_affectedOf_all {items : List PushItem} {id : Uuid} :
    id ∈ (affectedOf items).all ↔ ∃ item ∈ items, id ∈ (Affected.empty.add item).all := by
  simp only [affectedOf_eq, Affected.all, List.mem_append, List.mem_flatMap]
  constructor
  · rintro ((⟨item, hitem, hid⟩ | ⟨item, hitem, hid⟩) | ⟨item, hitem, hid⟩)
    · exact ⟨item, hitem, .inl (.inl hid)⟩
    · exact ⟨item, hitem, .inl (.inr hid)⟩
    · exact ⟨item, hitem, .inr hid⟩
  · rintro ⟨item, hitem, (hid | hid) | hid⟩
    · exact .inl (.inl ⟨item, hitem, hid⟩)
    · exact .inl (.inr ⟨item, hitem, hid⟩)
    · exact .inr ⟨item, hitem, hid⟩

theorem pushItems_eq_ok_iff {store written : Store} {affected affected' : Affected} {index : Nat}
    {items : List PushItem} :
    pushItems store affected index items = .ok (written, affected') ↔
      Writes store items written ∧ affected' = items.foldl Affected.add affected := by
  induction items generalizing store affected index with
  | nil => simp [pushItems, writes_nil, eq_comm]
  | cons item rest ih =>
      simp only [pushItems, Except.bind_eq_ok_iff, Except.mapError_eq_ok_iff, ih, writes_cons,
        List.foldl_cons]
      constructor
      · rintro ⟨next, hnext, hwrites, rfl⟩
        exact ⟨⟨next, hnext, hwrites⟩, rfl⟩
      · rintro ⟨⟨next, hnext, hwrites⟩, rfl⟩
        exact ⟨next, hnext, hwrites, rfl⟩

/-! ### The commit -/

/-- `items`, written to `store`, gave `written`, and its commit at time `now` gave `after`. -/
structure Committed (store : Store) (items : List PushItem) (now : Int) (written after : Store) :
    Prop where
  writes : Writes store items written
  sequence_eq : after.rootState.sequence.val = written.rootState.sequence.val + 1
  cards_eq : after.cards =
    written.cards.stampAll (affectedOf items).cardIds after.rootState.sequence.val
  tags_eq : after.tags =
    written.tags.stampAll (affectedOf items).tagIds after.rootState.sequence.val
  deleted_eq : after.deletedEntities =
    stampDeletedAll written.deletedEntities (affectedOf items).deletedIds
      after.rootState.sequence.val
  rootBuckets_eq : after.rootBuckets =
    refreshed written (· ∈ (affectedOf items).all.map bucketOf)
  rootHash_eq : after.rootState.hash = rootHash after.rootBuckets
  history_rows : after.rootHistory.rows =
    written.rootHistory.rows ++ [⟨after.rootState.sequence, after.rootState.hash, now⟩]

theorem committed_iff {store written after : Store} {items : List PushItem} {now : Int} :
    Committed store items now written after ↔ Writes store items written ∧
      ∃ rooted sequence,
        recomputeRootForIds written (affectedOf items).all now = .ok (rooted, sequence) ∧
        after = stampAffected rooted (affectedOf items) sequence.val := by
  simp only [recomputeRootForIds_eq_ok_iff, stampAffected_eq]
  constructor
  · intro h
    refine ⟨h.writes, _, after.rootState.sequence, ⟨h.sequence_eq, after.rootHistory, ?_, rfl⟩, ?_⟩
    · rw [h.history_rows, h.rootHash_eq, h.rootBuckets_eq]
    · have hbuckets := h.rootBuckets_eq
      have hhash := h.rootHash_eq
      have hcards := h.cards_eq
      have htags := h.tags_eq
      have hdeleted := h.deleted_eq
      obtain ⟨cards, tags, deletedEntities, ⟨hash, sequence⟩, rootHistory, rootBuckets⟩ := after
      dsimp only at hbuckets hhash hcards htags hdeleted ⊢
      subst hbuckets hhash hcards htags hdeleted
      rfl
  · rintro ⟨hwrites, rooted, sequence, ⟨hsequence, rootHistory, hrows, rfl⟩, rfl⟩
    exact ⟨hwrites, hsequence, rfl, rfl, rfl, rfl, rfl, hrows⟩

theorem pushBatch_eq_ok_iff {store after : Store} {items : List PushItem} {now : Int} :
    pushBatch store items now = .ok after ↔
      items = [] ∧ after = store ∨
        items ≠ [] ∧ ∃ written, validateBatchImplications written items = .ok () ∧
          Committed store items now written after := by
  unfold pushBatch
  cases items with
  | nil => simp [eq_comm]
  | cons item rest =>
      simp only [List.isEmpty_cons, Bool.false_eq_true, if_false, Except.bind_eq_ok_iff,
        Except.mapError_eq_ok_iff, Prod.exists, pushItems_eq_ok_iff, pure, Except.pure,
        Except.ok.injEq, committed_iff, reduceCtorEq, false_and, false_or, ne_eq,
        not_false_eq_true, true_and]
      constructor
      · rintro ⟨written, affected, ⟨hwrites, rfl⟩, ⟨⟩, hvalid, rooted, sequence, hroot, rfl⟩
        exact ⟨written, hvalid, hwrites, rooted, sequence, hroot, rfl⟩
      · rintro ⟨written, hvalid, hwrites, rooted, sequence, hroot, rfl⟩
        exact ⟨written, _, ⟨hwrites, rfl⟩, (), hvalid, rooted, sequence, hroot, rfl⟩

theorem pushCardVersions_eq_ok_iff {store after : Store} {versions : List Card} {now : Int} :
    pushCardVersions store versions now = .ok after ↔
      ∃ written, validateBatchImplications written [.cards versions] = .ok () ∧
        Committed store [.cards versions] now written after := by
  cases versions with
  | nil => simp [pushCardVersions, committed_iff, writes_cons, pushItem, pushCardVersionsInner,
      acceptVersions]
  | cons first rest =>
      simp only [pushCardVersions, Except.bind_eq_ok_iff, Except.mapError_eq_ok_iff, Prod.exists,
        pure, Except.pure, Except.ok.injEq, committed_iff, writes_cons, writes_nil, pushItem]
      constructor
      · rintro ⟨written, hwrites, ⟨⟩, hvalid, rooted, sequence, hroot, rfl⟩
        exact ⟨written, hvalid, ⟨written, hwrites, rfl⟩, rooted, sequence, hroot, rfl⟩
      · rintro ⟨written, hvalid, ⟨_, hwrites, rfl⟩, rooted, sequence, hroot, rfl⟩
        exact ⟨written, hwrites, (), hvalid, rooted, sequence, hroot, rfl⟩

theorem pushTagVersions_eq_ok_iff {store after : Store} {versions : List Tag} {now : Int} :
    pushTagVersions store versions now = .ok after ↔
      ∃ written, validateBatchImplications written [.tags versions] = .ok () ∧
        Committed store [.tags versions] now written after := by
  cases versions with
  | nil => simp [pushTagVersions, committed_iff, writes_cons, pushItem, pushTagVersionsInner,
      acceptVersions]
  | cons first rest =>
      simp only [pushTagVersions, Except.bind_eq_ok_iff, Except.mapError_eq_ok_iff, Prod.exists,
        pure, Except.pure, Except.ok.injEq, committed_iff, writes_cons, writes_nil, pushItem]
      constructor
      · rintro ⟨written, hwrites, ⟨⟩, hvalid, rooted, sequence, hroot, rfl⟩
        exact ⟨written, hvalid, ⟨written, hwrites, rfl⟩, rooted, sequence, hroot, rfl⟩
      · rintro ⟨written, hvalid, ⟨_, hwrites, rfl⟩, rooted, sequence, hroot, rfl⟩
        exact ⟨written, hwrites, (), hvalid, rooted, sequence, hroot, rfl⟩

theorem deleteCard_eq_ok_iff {store after : Store} {id : Uuid} {now : Int} :
    (∃ deleted, deleteCard store id now = .ok (deleted, after)) ↔
      ∃ written, Committed store [.deleteCard id] now written after := by
  simp only [deleteCard, Except.bind_eq_ok_iff, Except.mapError_eq_ok_iff, Prod.exists, pure,
    Except.pure, Except.ok.injEq, committed_iff, writes_cons, writes_nil, pushItem,
    Except.map_eq_ok_iff, Prod.mk.injEq]
  constructor
  · rintro ⟨_, deleted, written, hdelete, rooted, sequence, hroot, -, rfl⟩
    exact ⟨written, ⟨written, ⟨deleted, written, hdelete, rfl⟩, rfl⟩, rooted, sequence, hroot, rfl⟩
  · rintro ⟨written, ⟨_, ⟨deleted, _, hdelete, rfl⟩, rfl⟩, rooted, sequence, hroot, rfl⟩
    exact ⟨deleted, deleted, written, hdelete, rooted, sequence, hroot, rfl, rfl⟩

theorem deleteTag_eq_ok_iff {store after : Store} {id : Uuid} {now : Int} :
    (∃ deleted, deleteTag store id now = .ok (deleted, after)) ↔
      ∃ written, Committed store [.deleteTag id] now written after := by
  simp only [deleteTag, Except.bind_eq_ok_iff, Except.mapError_eq_ok_iff, Prod.exists, pure,
    Except.pure, Except.ok.injEq, committed_iff, writes_cons, writes_nil, pushItem,
    Except.map_eq_ok_iff, Prod.mk.injEq]
  constructor
  · rintro ⟨_, deleted, written, hdelete, rooted, sequence, hroot, -, rfl⟩
    exact ⟨written, ⟨written, ⟨deleted, written, hdelete, rfl⟩, rfl⟩, rooted, sequence, hroot, rfl⟩
  · rintro ⟨written, ⟨_, ⟨deleted, _, hdelete, rfl⟩, rfl⟩, rooted, sequence, hroot, rfl⟩
    exact ⟨deleted, deleted, written, hdelete, rooted, sequence, hroot, rfl, rfl⟩

/-- A call that succeeds is the empty batch, which does nothing, or commits its items. -/
theorem perform_eq_some_iff {store after : Store} {call : Call} :
    perform store call = some after ↔
      call.mutation.items = [] ∧ after = store ∨
        call.mutation.items ≠ [] ∧ ∃ written,
          (call.mutation.validated = true →
            validateBatchImplications written call.mutation.items = .ok ()) ∧
          Committed store call.mutation.items call.now written after := by
  obtain ⟨mutation, now⟩ := call
  unfold perform
  cases mutation with
  | pushCardVersions versions =>
      simp [Mutation.items, Mutation.validated, Except.toOption_eq_some_iff,
        pushCardVersions_eq_ok_iff]
  | pushTagVersions versions =>
      simp [Mutation.items, Mutation.validated, Except.toOption_eq_some_iff,
        pushTagVersions_eq_ok_iff]
  | deleteCard id =>
      simp [Mutation.items, Mutation.validated, Except.toOption_eq_some_iff, deleteCard_eq_ok_iff]
  | deleteTag id =>
      simp [Mutation.items, Mutation.validated, Except.toOption_eq_some_iff, deleteTag_eq_ok_iff]
  | pushBatch items =>
      simp [Mutation.items, Mutation.validated, Except.toOption_eq_some_iff, pushBatch_eq_ok_iff]

/-- A call leaves the store alone or commits its items. -/
theorem execute_cases (store : Store) (call : Call) :
    execute store call = store ∨ (perform store call).isSome = true ∧
      ∃ written, Committed store call.mutation.items call.now written (execute store call) := by
  unfold execute
  cases hperform : perform store call with
  | none => exact .inl rfl
  | some after =>
      rcases perform_eq_some_iff.mp hperform with ⟨-, rfl⟩ | ⟨-, written, -, hcommitted⟩
      · exact .inl rfl
      · exact .inr ⟨rfl, written, hcommitted⟩

/-- What every item keeps, and the commit keeps, a call keeps. -/
theorem execute_preserves {store : Store} {call : Call} (inv : Store → Prop) (hstore : inv store)
    (hitem : ∀ before item after, item ∈ call.mutation.items → inv before →
      pushItem before item = .ok after → inv after)
    (hcommit : ∀ written after, Committed store call.mutation.items call.now written after →
      inv written → inv after) : inv (execute store call) := by
  obtain heq | ⟨-, written, hcommitted⟩ := execute_cases store call
  · rw [heq]
    exact hstore
  · exact hcommit written _ hcommitted (hcommitted.writes.preserves inv hstore hitem)

end BlazeList
