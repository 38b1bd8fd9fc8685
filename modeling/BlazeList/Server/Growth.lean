import BlazeList.Server.Tombstones

/-!
# What a store keeps

Between two moments of a run an entity keeps all its versions or gets a tombstone, a tombstone stays, and the
root history only gets more rows.
-/

namespace BlazeList

variable [Blake3]

structure Grows (before after : Store) : Prop where
  deleted : ∀ id, before.isDeleted id = true → after.isDeleted id = true
  cards : ∀ id, after.isDeleted id = true ∨ before.cards.lineage id <+: after.cards.lineage id
  tags : ∀ id, after.isDeleted id = true ∨ before.tags.lineage id <+: after.tags.lineage id
  rootHistory : before.rootHistory.rows <+: after.rootHistory.rows

variable {store written after : Store}

omit [Blake3] in
theorem Grows.refl (store : Store) : Grows store store where
  deleted _ h := h
  cards _ := .inr List.prefix_rfl
  tags _ := .inr List.prefix_rfl
  rootHistory := List.prefix_rfl

omit [Blake3] in
theorem Grows.trans {first second third : Store} (hfirst : Grows first second) (hsecond : Grows second third) :
    Grows first third where
  deleted id h := hsecond.deleted id (hfirst.deleted id h)
  cards id := by
    rcases hsecond.cards id with hdeleted | hlater
    · exact .inl hdeleted
    · exact (hfirst.cards id).imp (hsecond.deleted id) fun hearlier => hearlier.trans hlater
  tags id := by
    rcases hsecond.tags id with hdeleted | hlater
    · exact .inl hdeleted
    · exact (hfirst.tags id).imp (hsecond.deleted id) fun hearlier => hearlier.trans hlater
  rootHistory := hfirst.rootHistory.trans hsecond.rootHistory

theorem isDeleted_bury (id : Uuid) (cards : EntityTables Card) (tags : EntityTables Tag) :
    ({ store with cards, tags, deletedEntities := buryRow store.deletedEntities (DeletedEntity.new id) } :
      Store).isDeleted id = true :=
  Store.isDeleted_iff.mpr ⟨_, mem_buryRow.mpr (.inr rfl), rfl⟩

theorem grows_pushItem {item : PushItem} (h : pushItem store item = .ok after) : Grows store after := by
  have hdeleted : ∀ id, store.isDeleted id = true → after.isDeleted id = true :=
    fun id hid => isDeleted_pushItem hid h
  rcases pushItem_cases h with ⟨_, _, _, _, rfl, hpushed, rfl⟩ | ⟨_, _, _, _, rfl, hpushed, rfl⟩ |
    ⟨gone, rfl, -, -, rfl⟩ | ⟨gone, rfl, -, -, -, -, rfl⟩
  · refine ⟨hdeleted, fun id => .inr ?_, fun _ => .inr List.prefix_rfl, List.prefix_rfl⟩
    rw [hpushed.lineage]
    exact List.prefix_append _ _
  · refine ⟨hdeleted, fun _ => .inr List.prefix_rfl, fun id => .inr ?_, List.prefix_rfl⟩
    rw [hpushed.lineage]
    exact List.prefix_append _ _
  · refine ⟨hdeleted, fun id => ?_, fun _ => .inr List.prefix_rfl, List.prefix_rfl⟩
    by_cases hid : id = gone
    · subst hid
      exact .inl (isDeleted_bury id _ _)
    · right
      rw [EntityTables.lineage_remove, if_neg hid]
  · refine ⟨hdeleted, fun _ => .inr List.prefix_rfl, fun id => ?_, List.prefix_rfl⟩
    by_cases hid : id = gone
    · subst hid
      exact .inl (isDeleted_bury id _ _)
    · right
      rw [EntityTables.lineage_remove, if_neg hid]

theorem grows_writes {items : List PushItem} (h : Writes store items written) : Grows store written :=
  h.preserves (Grows store) (.refl store) fun _ _ _ _ hbefore hpush => hbefore.trans (grows_pushItem hpush)

theorem grows_committed {items : List PushItem} {now : Int} (h : Committed store items now written after) :
    Grows written after := by
  refine ⟨?_, fun id => .inr ?_, fun id => .inr ?_, ?_⟩
  · intro id hid
    obtain ⟨row, hrow, hrowId⟩ := Store.isDeleted_iff.mp hid
    refine Store.isDeleted_iff.mpr ⟨_, h.deleted_eq ▸ mem_stampDeletedAll.mpr ⟨row, hrow, rfl⟩, ?_⟩
    split <;> exact hrowId
  · rw [h.cards_eq, EntityTables.lineage_stampAll]
  · rw [h.tags_eq, EntityTables.lineage_stampAll]
  · rw [h.history_rows]
    exact List.prefix_append _ _

theorem grows_execute (store : Store) (call : Call) : Grows store (execute store call) := by
  apply execute_preserves (Grows store) (.refl store)
  · intro before item after _ hbefore hpush
    exact hbefore.trans (grows_pushItem hpush)
  · intro written after hcommitted hwritten
    exact hwritten.trans (grows_committed hcommitted)

theorem grows_run (store : Store) (calls : List Call) : Grows store (Run.after execute store calls) :=
  Run.invariant (Grows store) (.refl store) (fun before call hbefore => hbefore.trans (grows_execute before call))
    calls

end BlazeList
