import BlazeList.Server.Changes

/-!
# Tombstones

Cards and tags live in tables of their own and share one table of tombstones. A push looks for a
tombstone of the first id of its chain, and a delete clears the tables of its own kind. So a tombstone
keeps its id away for good as long as no chain brings in the id of another entity and no id is used for
a card and for a tag. It does not keep the id of a deleted tag out of the tag lists.
-/

namespace BlazeList

section

variable [Blake3]

/-! ### Conditions on the items of a call -/

/-- Each item that is reached meets a condition in the state it is written to. -/
def ItemsMeet (condition : Store → PushItem → Prop) : Store → List PushItem → Prop
  | _, [] => True
  | store, item :: rest =>
      condition store item ∧
        match pushItem store item with
        | .ok next => ItemsMeet condition next rest
        | .error _ => True

instance {condition : Store → PushItem → Prop} [∀ store item, Decidable (condition store item)] :
    (store : Store) → (items : List PushItem) → Decidable (ItemsMeet condition store items)
  | _, [] => isTrue trivial
  | store, item :: rest =>
      have : Decidable (match pushItem store item with
          | .ok next => ItemsMeet condition next rest
          | .error _ => True) :=
        match pushItem store item with
        | .ok next => instDecidableItemsMeet next rest
        | .error _ => isTrue trivial
      inferInstanceAs (Decidable (_ ∧ _))

/-- What every item that meets the condition keeps, the items of a call keep. -/
theorem Writes.invariant {condition : Store → PushItem → Prop} {store written : Store}
    {items : List PushItem} (h : Writes store items written)
    (hmeets : ItemsMeet condition store items) (inv : Store → Prop) (hstore : inv store)
    (hitem : ∀ store item after, inv store → condition store item →
      pushItem store item = .ok after → inv after) : inv written := by
  induction items generalizing store with
  | nil => exact writes_nil.mp h ▸ hstore
  | cons item rest ih =>
      obtain ⟨next, hnext, hrest⟩ := writes_cons.mp h
      obtain ⟨hcondition, hmeetsRest⟩ := hmeets
      rw [hnext] at hmeetsRest
      exact ih hrest hmeetsRest (hitem store item next hstore hcondition hnext)

/-! ### Exclusive tombstones -/

section Tables

variable {E : Type} [Stored E] {tables : EntityTables E} {id : Uuid}

def EntityTables.Without (tables : EntityTables E) (id : Uuid) : Prop :=
  (∀ row ∈ tables.live, Entity.id row.entity ≠ id) ∧
    ∀ row ∈ tables.versions, Entity.id row.entity ≠ id

instance : Decidable (tables.Without id) :=
  decidable_of_iff
    (tables.live.rows.all (fun row => Entity.id row.entity ≠ id) = true ∧
      tables.versions.rows.all (fun row => Entity.id row.entity ≠ id) = true)
    (by simp [EntityTables.Without, Table.mem_def])

omit [Blake3] in
theorem EntityTables.without_remove : (tables.remove id).Without id :=
  ⟨fun _ hrow => (mem_live_remove.mp hrow).2, fun _ hrow => (mem_versions_remove.mp hrow).2⟩

omit [Blake3] in
theorem EntityTables.Without.remove (h : tables.Without id) (removed : Uuid) :
    (tables.remove removed).Without id :=
  ⟨fun row hrow => h.1 row (mem_live_remove.mp hrow).1,
    fun row hrow => h.2 row (mem_versions_remove.mp hrow).1⟩

omit [Blake3] in
theorem EntityTables.Without.stampAll (h : tables.Without id) (ids : List Uuid) (sequence : Nat) :
    (tables.stampAll ids sequence).Without id :=
  have hall : StoredAll (fun entity => Entity.id entity ≠ id) tables := ⟨h.1, h.2⟩
  ⟨(hall.stampAll ids sequence).live, (hall.stampAll ids sequence).versions⟩

/-- A chain keeps the id away exactly when none of its versions carries it. -/
theorem Pushed.without_iff {store : Store} {before after : EntityTables E} {versions : List E}
    {first latest : E} (h : Pushed store before versions first latest after)
    (hbefore : before.Without id) : after.Without id ↔ ∀ v ∈ versions, Entity.id v ≠ id := by
  constructor
  · intro hafter v hv
    exact hafter.2 ⟨v, 0⟩ (h.mem_versions.mpr (.inr ⟨v, hv, rfl⟩))
  · intro hversions
    have hall : StoredAll (fun entity => Entity.id entity ≠ id) before := ⟨hbefore.1, hbefore.2⟩
    exact ⟨(h.storedAll hall hversions).live, (h.storedAll hall hversions).versions⟩

end Tables

/-- An id with a tombstone has no other row. -/
def Exclusive (store : Store) : Prop :=
  ∀ buried ∈ store.deletedEntities,
    store.cards.Without buried.entity.id ∧ store.tags.Without buried.entity.id

/-- The versions of a chain carry ids without a tombstone, and an id that is deleted as an entity of one
kind is not in use as one of the other. -/
def PushItem.KeepsApart (store : Store) : PushItem → Prop
  | .cards versions => ∀ v ∈ versions, store.isDeleted v.id = false
  | .tags versions => ∀ v ∈ versions, store.isDeleted v.id = false
  | .deleteCard id => store.tags.Without id
  | .deleteTag id => store.cards.Without id

instance (store : Store) : (item : PushItem) → Decidable (item.KeepsApart store)
  | .cards versions => inferInstanceAs (Decidable (∀ v ∈ versions, _))
  | .tags versions => inferInstanceAs (Decidable (∀ v ∈ versions, _))
  | .deleteCard id => inferInstanceAs (Decidable (store.tags.Without id))
  | .deleteTag id => inferInstanceAs (Decidable (store.cards.Without id))

variable {store after : Store} {item : PushItem}

omit [Blake3] in
theorem exclusive_initSchema : Exclusive initSchema :=
  fun row hrow => absurd hrow (Table.not_mem_empty row)

omit [Blake3] in
theorem isDeleted_eq_false_iff {id : Uuid} :
    store.isDeleted id = false ↔ ∀ buried ∈ store.deletedEntities, buried.entity.id ≠ id := by
  rw [← Bool.not_eq_true, Store.isDeleted_iff]
  simp

omit [Blake3] in
/-- The rule for a new tombstone. -/
theorem exclusive_bury {deletedEntities : Table deletedConflict} {deleted : DeletedEntity}
    {cards : EntityTables Card} {tags : EntityTables Tag}
    (hold : ∀ buried ∈ deletedEntities,
      cards.Without buried.entity.id ∧ tags.Without buried.entity.id) :
    (∀ buried ∈ buryRow deletedEntities deleted,
        cards.Without buried.entity.id ∧ tags.Without buried.entity.id) ↔
      cards.Without deleted.id ∧ tags.Without deleted.id := by
  constructor
  · intro hall
    exact hall _ (mem_buryRow.mpr (.inr rfl))
  · intro hnew buried hburied
    rcases mem_buryRow.mp hburied with ⟨hburied, -⟩ | rfl
    · exact hold buried hburied
    · exact hnew

/-- An item keeps tombstones exclusive exactly when it keeps the entities apart. -/
theorem Exclusive.pushItem_iff (hinv : Exclusive store) (h : pushItem store item = .ok after) :
    Exclusive after ↔ item.KeepsApart store := by
  rcases pushItem_cases h with ⟨versions, _, _, _, rfl, hpushed, rfl⟩ |
    ⟨versions, _, _, _, rfl, hpushed, rfl⟩ | ⟨id, rfl, -, -, rfl⟩ | ⟨id, rfl, -, -, -, -, rfl⟩
  · simp only [PushItem.KeepsApart, isDeleted_eq_false_iff]
    constructor
    · intro hafter v hv buried hburied
      exact ((hpushed.without_iff (hinv buried hburied).1).mp (hafter buried hburied).1 v hv).symm
    · intro hapart buried hburied
      refine ⟨(hpushed.without_iff (hinv buried hburied).1).mpr fun v hv => ?_,
        (hinv buried hburied).2⟩
      exact (hapart v hv buried hburied).symm
  · simp only [PushItem.KeepsApart, isDeleted_eq_false_iff]
    constructor
    · intro hafter v hv buried hburied
      exact ((hpushed.without_iff (hinv buried hburied).2).mp (hafter buried hburied).2 v hv).symm
    · intro hapart buried hburied
      refine ⟨(hinv buried hburied).1,
        (hpushed.without_iff (hinv buried hburied).2).mpr fun v hv => ?_⟩
      exact (hapart v hv buried hburied).symm
  · refine (exclusive_bury fun buried hburied => ?_).trans (and_iff_right EntityTables.without_remove)
    exact ⟨(hinv buried hburied).1.remove id, (hinv buried hburied).2⟩
  · refine (exclusive_bury fun buried hburied => ?_).trans (and_iff_left EntityTables.without_remove)
    exact ⟨(hinv buried hburied).1, (hinv buried hburied).2.remove id⟩

def CallKeepsApart (store : Store) (call : Call) : Prop :=
  (perform store call).isSome →
    ItemsMeet (fun store item => item.KeepsApart store) store call.mutation.items

instance (store : Store) (call : Call) : Decidable (CallKeepsApart store call) :=
  inferInstanceAs (Decidable (_ → _))

theorem Exclusive.execute {call : Call} (hinv : Exclusive store) (hcall : CallKeepsApart store call) :
    Exclusive (execute store call) := by
  obtain heq | ⟨hsome, written, hcommitted⟩ := execute_cases store call
  · rw [heq]
    exact hinv
  · have hwritten : Exclusive written := hcommitted.writes.invariant (hcall hsome) Exclusive hinv
      fun _ _ _ hbefore hcondition hitem => (hbefore.pushItem_iff hitem).mpr hcondition
    intro buried hburied
    rw [hcommitted.deleted_eq] at hburied
    rw [hcommitted.cards_eq, hcommitted.tags_eq]
    obtain ⟨old, hold, rfl⟩ := mem_stampDeletedAll.mp hburied
    have hsame : ∀ sequence : Nat, (if old.entity.id ∈ (affectedOf call.mutation.items).deletedIds then
        { old with rootSequenceAt := sequence } else old).entity.id = old.entity.id := by
      intro sequence
      split <;> rfl
    rw [hsame]
    exact ⟨(hwritten old hold).1.stampAll _ _, (hwritten old hold).2.stampAll _ _⟩

/-! ### Permanent tombstones -/

theorem isDeleted_pushItem {id : Uuid} (hid : store.isDeleted id = true)
    (h : pushItem store item = .ok after) : after.isDeleted id = true := by
  have hbury : ∀ deleted : DeletedEntity,
      ∃ row ∈ buryRow store.deletedEntities deleted, row.entity.id = id := by
    intro deleted
    obtain ⟨row, hrow, hrowId⟩ := Store.isDeleted_iff.mp hid
    by_cases hsame : row.entity.id = deleted.id
    · exact ⟨_, mem_buryRow.mpr (.inr rfl), hsame.symm.trans hrowId⟩
    · exact ⟨row, mem_buryRow.mpr (.inl ⟨hrow, hsame⟩), hrowId⟩
  rcases pushItem_cases h with ⟨_, _, _, _, rfl, -, rfl⟩ | ⟨_, _, _, _, rfl, -, rfl⟩ |
    ⟨deleted, rfl, -, -, rfl⟩ | ⟨deleted, rfl, -, -, -, -, rfl⟩
  · exact hid
  · exact hid
  · exact Store.isDeleted_iff.mpr (hbury _)
  · exact Store.isDeleted_iff.mpr (hbury _)

theorem isDeleted_execute {id : Uuid} (hid : store.isDeleted id = true) (call : Call) :
    (execute store call).isDeleted id = true := by
  refine execute_preserves (fun store : Store => store.isDeleted id = true) hid
    (fun _ _ _ _ hbefore => isDeleted_pushItem hbefore) fun written after hcommitted hwritten => ?_
  obtain ⟨row, hrow, hrowId⟩ := Store.isDeleted_iff.mp hwritten
  refine Store.isDeleted_iff.mpr ⟨_, hcommitted.deleted_eq ▸ mem_stampDeletedAll.mpr ⟨row, hrow, rfl⟩, ?_⟩
  split <;> exact hrowId

/-- In a run whose accepted calls keep the entities apart, an id with a tombstone has no other row, and
it keeps its tombstone. -/
theorem tombstones_run {earlier later : List Call}
    (hmeets : Run.Meets execute CallKeepsApart initSchema (earlier ++ later)) :
    Exclusive (Run.after execute initSchema earlier) ∧
      ∀ id, (Run.after execute initSchema earlier).isDeleted id = true →
        (Run.after execute initSchema (earlier ++ later)).isDeleted id = true := by
  constructor
  · exact (Run.meets_append.mp hmeets).1.invariant Exclusive exclusive_initSchema
      fun _ _ hinv hcall => hinv.execute hcall
  · intro id hid
    rw [Run.after_append]
    exact Run.invariant (fun store : Store => store.isDeleted id = true) hid
      (fun _ call hinv => isDeleted_execute hinv call) later

end

/-- A card is pushed, deleted, and pushed once more in vain. -/
theorem tombstones_sample :
    let _ := polynomialBlake3
    let calls : List Call := [⟨.pushCardVersions [sampleCard 1 ⟨0, by decide⟩], 0⟩, ⟨.deleteCard 1, 1⟩,
      ⟨.pushCardVersions [sampleCard 1 ⟨0, by decide⟩], 2⟩]
    Exclusive (Run.after execute initSchema calls) ∧
      ∀ id, (Run.after execute initSchema calls).isDeleted id = true →
        (Run.after execute initSchema (calls ++ [])).isDeleted id = true :=
  @tombstones_run polynomialBlake3 _ [] (by decide +kernel)

/-- A tag that shares the id of a deleted card stays. -/
theorem not_exclusive_sharedId :
    let _ := polynomialBlake3
    ¬ Exclusive (Run.after execute initSchema
      [⟨.pushCardVersions [sampleCard 1 ⟨0, by decide⟩], 0⟩, ⟨.pushTagVersions [sampleTag 1 []], 1⟩,
        ⟨.deleteCard 1, 2⟩]) := by
  intro _ hexclusive
  have hburied : (Run.after execute initSchema
      [⟨.pushCardVersions [sampleCard 1 ⟨0, by decide⟩], 0⟩, ⟨.pushTagVersions [sampleTag 1 []], 1⟩,
        ⟨.deleteCard 1, 2⟩]).deletedEntities.rows.map (·.entity.id) = [1] := by decide +kernel
  have hlive : (Run.after execute initSchema
      [⟨.pushCardVersions [sampleCard 1 ⟨0, by decide⟩], 0⟩, ⟨.pushTagVersions [sampleTag 1 []], 1⟩,
        ⟨.deleteCard 1, 2⟩]).tags.live.rows.map (·.entity.id) = [1] := by decide +kernel
  obtain ⟨buried, hburiedMem, hburiedId⟩ := List.mem_map.mp
    (hburied ▸ List.mem_singleton_self (1 : Uuid))
  obtain ⟨row, hrow, hrowId⟩ := List.mem_map.mp (hlive ▸ List.mem_singleton_self (1 : Uuid))
  exact (hexclusive buried hburiedMem).2.1 row hrow (hrowId.trans hburiedId.symm)

end BlazeList
