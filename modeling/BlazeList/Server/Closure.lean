import BlazeList.Server.Commit

/-!
# The implication invariant over runs

Every call keeps the invariant: the validator establishes it for pushes and batches whatever held
before, and a single delete keeps it by its referential checks.
-/

namespace BlazeList

theorem impliesEdge_iff_current {store : Store} {tag parent : Uuid} :
    ImpliesEdge store tag parent ↔
      ∃ current, store.tags.current tag = some current ∧ parent ∈ current.implies := by
  simp only [ImpliesEdge, EntityTables.current_eq_some_iff, Tag.entity_id]
  constructor
  · rintro ⟨row, hrow, hid, hparent⟩
    exact ⟨row.entity, ⟨row, hrow, rfl, hid⟩, hparent⟩
  · rintro ⟨_, ⟨row, hrow, rfl, hid⟩, hparent⟩
    exact ⟨row, hrow, hid, hparent⟩

theorem exists_live_iff_current {E : Type} [Stored E] {tables : EntityTables E} {id : Uuid} :
    (∃ row ∈ tables.live, Entity.id row.entity = id) ↔ (tables.current id).isSome := by
  rw [Option.isSome_iff_exists]
  simp [EntityTables.current_eq_some_iff]

/-- Only the current entities matter to the invariant. -/
theorem ImplicationInvariant.congr {store after : Store} (hinv : ImplicationInvariant store)
    (hcards : after.cards.current = store.cards.current)
    (htags : after.tags.current = store.tags.current) : ImplicationInvariant after := by
  have hedge : ImpliesEdge after = ImpliesEdge store := by
    funext tag parent
    rw [eq_iff_iff, impliesEdge_iff_current, impliesEdge_iff_current, htags]
  refine ⟨fun row hrow parent hparent => ?_, hedge ▸ hinv.acyclic, fun row hrow => ?_⟩
  · have hcurrent := EntityTables.current_of_mem hrow
    rw [htags] at hcurrent
    obtain ⟨old, hold, heq, -⟩ := EntityTables.current_eq_some_iff.mp hcurrent
    have hlive := exists_live_iff_current.mp (hinv.parent_live old hold parent (heq ▸ hparent))
    rw [← htags] at hlive
    exact exists_live_iff_current.mpr hlive
  · have hcurrent := EntityTables.current_of_mem hrow
    rw [hcards] at hcurrent
    obtain ⟨old, hold, heq, -⟩ := EntityTables.current_eq_some_iff.mp hcurrent
    rw [hedge, ← heq]
    exact hinv.card_closed old hold

theorem implicationInvariant_initSchema : ImplicationInvariant initSchema := by
  have hedge : ∀ tag parent, ¬ ImpliesEdge initSchema tag parent := by
    rintro tag parent ⟨row, hrow, -⟩
    exact Table.not_mem_empty row hrow
  refine ⟨fun row hrow => absurd hrow (Table.not_mem_empty row), fun tag hcycle => ?_,
    fun row hrow => absurd hrow (Table.not_mem_empty row)⟩
  obtain ⟨parent, hparent, -⟩ := Relation.TransGen.head'_iff.mp hcycle
  exact hedge tag parent hparent

/-- Dropping cards. -/
theorem ImplicationInvariant.removeCard {store : Store} (hinv : ImplicationInvariant store)
    (id : Uuid) (deletedEntities : Table deletedConflict) :
    ImplicationInvariant { store with cards := store.cards.remove id, deletedEntities } where
  parent_live := hinv.parent_live
  acyclic := hinv.acyclic
  card_closed row hrow := hinv.card_closed row (EntityTables.mem_live_remove.mp hrow).1

/-- Dropping a tag that no card carries and no other tag implies. -/
theorem ImplicationInvariant.removeTag {store : Store} (hinv : ImplicationInvariant store)
    {id : Uuid} (deletedEntities : Table deletedConflict)
    (himplied : ∀ row ∈ store.tags.live, row.entity.id ≠ id → id ∉ row.entity.implies) :
    ImplicationInvariant { store with tags := store.tags.remove id, deletedEntities } := by
  obtain ⟨after, hafter⟩ : ∃ after, after =
      { store with tags := store.tags.remove id, deletedEntities } := ⟨_, rfl⟩
  have htags : ∀ row, row ∈ after.tags.live ↔ row ∈ store.tags.live ∧ row.entity.id ≠ id := by
    rw [hafter]
    exact fun row => EntityTables.mem_live_remove
  have hedge : ∀ tag parent, ImpliesEdge after tag parent → ImpliesEdge store tag parent := by
    rintro tag parent ⟨row, hrow, hid, hparent⟩
    exact ⟨row, ((htags row).mp hrow).1, hid, hparent⟩
  rw [← hafter]
  refine ⟨fun row hrow parent hparent => ?_, fun tag hcycle => ?_, fun row hrow tag htag parent hpath => ?_⟩
  · obtain ⟨hrow, hid⟩ := (htags row).mp hrow
    obtain ⟨target, htarget, rfl⟩ := hinv.parent_live row hrow parent hparent
    refine ⟨target, (htags target).mpr ⟨htarget, fun htargetId => ?_⟩, rfl⟩
    exact himplied row hrow hid (htargetId ▸ hparent)
  · exact hinv.acyclic tag (Relation.TransGen.mono hedge _ _ hcycle)
  · rw [hafter] at hrow
    exact hinv.card_closed row hrow tag htag parent (Relation.ReflTransGen.mono hedge _ _ hpath)

variable [Blake3]

theorem Committed.implicationInvariant {store written after : Store} {items : List PushItem}
    {now : Int} (h : Committed store items now written after)
    (hinv : ImplicationInvariant written) : ImplicationInvariant after := by
  refine hinv.congr ?_ ?_
  · rw [h.cards_eq, EntityTables.current_stampAll]
  · rw [h.tags_eq, EntityTables.current_stampAll]

/-- A single delete keeps the invariant without the validator. -/
theorem ImplicationInvariant.written {store written : Store} {mutation : Mutation}
    (hinv : ImplicationInvariant store) (hunvalidated : mutation.validated = false)
    (hwrites : Writes store mutation.items written) : ImplicationInvariant written := by
  cases mutation with
  | deleteCard id =>
      obtain ⟨_, hitem, hnil⟩ := writes_cons.mp hwrites
      rw [writes_nil.mp hnil]
      rcases pushItem_cases hitem with ⟨_, _, _, _, hkind, -⟩ | ⟨_, _, _, _, hkind, -⟩ |
        ⟨_, hkind, -, -, rfl⟩ | ⟨_, hkind, -⟩
      · cases hkind
      · cases hkind
      · exact hinv.removeCard _ _
      · cases hkind
  | deleteTag id =>
      obtain ⟨_, hitem, hnil⟩ := writes_cons.mp hwrites
      rw [writes_nil.mp hnil]
      rcases pushItem_cases hitem with ⟨_, _, _, _, hkind, -⟩ | ⟨_, _, _, _, hkind, -⟩ |
        ⟨_, hkind, -⟩ | ⟨_, hkind, -, -, -, himplied, rfl⟩
      · cases hkind
      · cases hkind
      · cases hkind
      · exact hinv.removeTag _ himplied
  | pushCardVersions versions => cases hunvalidated
  | pushTagVersions versions => cases hunvalidated
  | pushBatch items => cases hunvalidated

theorem ImplicationInvariant.perform {store after : Store} {call : Call}
    (hinv : ImplicationInvariant store) (h : perform store call = some after) :
    ImplicationInvariant after := by
  rcases perform_eq_some_iff.mp h with ⟨-, rfl⟩ | ⟨-, written, hvalid, hcommitted⟩
  · exact hinv
  · apply hcommitted.implicationInvariant
    have hwrites := hcommitted.writes
    by_cases hvalidated : call.mutation.validated = true
    · exact (validateBatchImplications_eq_ok_iff hwrites.tags_current hwrites.cards_current).mp
        (hvalid hvalidated)
    · exact hinv.written (eq_false_of_ne_true hvalidated) hwrites

theorem ImplicationInvariant.execute {store : Store} (hinv : ImplicationInvariant store)
    (call : Call) : ImplicationInvariant (execute store call) := by
  unfold BlazeList.execute
  cases hperform : BlazeList.perform store call with
  | none => exact hinv
  | some after => exact hinv.perform hperform

/-- After any calls, the parents of live tags are live, no live tag implies itself, and the tags of
every live card are closed under implication. -/
theorem implicationInvariant_run (calls : List Call) :
    ImplicationInvariant (Run.after execute initSchema calls) :=
  Run.invariant ImplicationInvariant implicationInvariant_initSchema
    (fun _ call hinv => hinv.execute call) calls

end BlazeList
