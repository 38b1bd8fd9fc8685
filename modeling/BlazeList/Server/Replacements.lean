import BlazeList.Server.Pushes
import BlazeList.Server.SingleItem

/-!
# New versions in place

A version that follows the current one of its entity, on the same unique keys, is accepted unless its id
is buried. A batch of such versions of cards, with one more item after them, stands or falls with that,
with the last item and with the validator.
-/

namespace BlazeList

/-! ### One version in place -/

section Tables

variable {E : Type} [Stored E] [Blake3]

/-- `next` follows a live entity on whose keys it stays. -/
structure Replaces (tables : EntityTables E) (next : E) : Prop where
  verified : Entity.verify next = true
  follows : ∃ row ∈ tables.live, Entity.id row.entity = Entity.id next ∧
    Entity.ancestorHash next = Entity.hash row.entity ∧
    ∀ other, Stored.clash other next → Stored.clash other row.entity
  fresh : ∀ version ∈ tables.versions, Entity.id version.entity = Entity.id next →
    Entity.count version.entity ≠ Entity.count next

variable {store : Store} {tables after : EntityTables E} {next other : E}

theorem Replaces.exists_pushed_iff (h : Replaces tables next) :
    (∃ after, Pushed store tables [next] next next after) ↔
      store.isDeleted (Entity.id next) = false := by
  constructor
  · rintro ⟨after, hpushed⟩
    exact hpushed.notDeleted
  · intro hnotDeleted
    obtain ⟨row, hrow, hid, hancestor, hkeys⟩ := h.follows
    obtain ⟨versions, hversions⟩ : ∃ versions, tables.versions.insert? ⟨next, 0⟩ = some versions := by
      apply Option.ne_none_iff_exists'.mp
      intro hnone
      obtain ⟨version, hversion, hversionId, hcount⟩ := Table.insert?_eq_none_iff.mp hnone
      exact h.fresh version hversion hversionId hcount
    refine ⟨⟨tables.live.replace ⟨next, 0, bucketOf (Entity.id next)⟩, versions⟩, ?_⟩
    exact
      { head := rfl
        last := rfl
        verified := fun v hv => (List.mem_singleton.mp hv) ▸ h.verified
        notDeleted := hnotDeleted
        ancestor := by
          rw [← hid, EntityTables.current_of_mem hrow]
          exact hancestor
        linked := List.isChain_singleton next
        unclashed := fun clashing hclashing hclash => by
          -- the row that is replaced is the only one on these keys
          have hsame : clashing = row := Table.eq_of_conflict hclashing hrow (.inr (hkeys _ hclash))
          rw [hsame, hid]
        versions_rows := (Table.insert?_eq_some_iff.mp hversions).2
        live_eq := rfl }

/-- Versions of other entities stay in place. -/
theorem Replaces.pushed (h : Replaces tables other) (hne : Entity.id other ≠ Entity.id next)
    (hpushed : Pushed store tables [next] next next after) : Replaces after other := by
  refine ⟨h.verified, ?_, fun version hversion hid => ?_⟩
  · obtain ⟨row, hrow, hid, hfollows⟩ := h.follows
    refine ⟨row, hpushed.mem_live.mpr (.inl ⟨hrow, fun hsame => hne (hid.symm.trans hsame)⟩), hid,
      hfollows⟩
  · rcases hpushed.mem_versions.mp hversion with hold | ⟨v, hv, rfl⟩
    · exact h.fresh version hold hid
    · obtain rfl := List.mem_singleton.mp hv
      exact absurd hid.symm hne

end Tables

/-! ### Stores that can be edited -/

/-- What edits in place rely on. -/
structure Editable (store : Store) : Prop where
  implications : ImplicationInvariant store
  rootHistory : RootHistoryInvariant store
  counted : CountedInvariant store

variable [Blake3] {store written after : Store} {cards : List Card}

theorem editable_run {calls : List Call} (hsingle : ∀ call ∈ calls, call.SingleId)
    (hcounted : Run.Meets execute CountedCall initSchema calls) :
    Editable (Run.after execute initSchema calls) where
  implications := implicationInvariant_run calls
  rootHistory :=
    Run.invariant _ rootHistoryInvariant_initSchema (fun _ call hinv => hinv.execute call) calls
  counted := (hcounted.and (Run.meets_of_forall fun _ call => hsingle call)).invariant _
    countedInvariant_initSchema fun _ _ hinv hcall => hinv.execute hcall.1 hcall.2

/-! ### A batch in place -/

theorem writes_append {items more : List PushItem} :
    Writes store (items ++ more) written ↔
      ∃ between, Writes store items between ∧ Writes between more written := by
  unfold Writes
  rw [List.foldlM_append]
  exact Except.bind_eq_ok_iff

theorem writes_singleton {item : PushItem} :
    Writes store [item] written ↔ pushItem store item = .ok written := by
  rw [writes_cons]
  constructor
  · rintro ⟨next, hnext, hwritten⟩
    rwa [writes_nil.mp hwritten]
  · intro h
    exact ⟨written, h, writes_nil.mpr rfl⟩

theorem exists_writes_iff_notDeleted (hcards : ∀ card ∈ cards, Replaces store.cards card)
    (hnodup : (cards.map Card.id).Nodup) :
    (∃ written, Writes store (singles cards) written) ↔
      ∀ card ∈ cards, store.isDeleted card.id = false := by
  induction cards generalizing store with
  | nil => simp [singles, writes_nil]
  | cons card rest ih =>
      obtain ⟨hfresh, hrest⟩ := List.nodup_cons.mp hnodup
      have hfirst : (∃ next, pushItem store (.cards [card]) = .ok next) ↔
          store.isDeleted card.id = false := by
        rw [← Card.entity_id, ← (hcards card List.mem_cons_self).exists_pushed_iff]
        simp only [pushSingle_eq_ok_iff]
        constructor
        · rintro ⟨next, tables, hpushed, -⟩
          exact ⟨tables, hpushed⟩
        · rintro ⟨tables, hpushed⟩
          exact ⟨_, tables, hpushed, rfl⟩
      have hothers : ∀ next, pushItem store (.cards [card]) = .ok next →
          ((∃ written, Writes next (singles rest) written) ↔
            ∀ other ∈ rest, store.isDeleted other.id = false) := by
        intro next hpush
        obtain ⟨tables, hpushed, rfl⟩ := pushSingle_eq_ok_iff.mp hpush
        refine ih (fun other hother => ?_) hrest
        refine (hcards other (List.mem_cons_of_mem card hother)).pushed (fun hsame => ?_) hpushed
        exact hfresh (List.mem_map.mpr ⟨other, hother, hsame⟩)
      rw [List.forall_mem_cons, ← hfirst]
      simp only [singles, List.map_cons, writes_cons]
      constructor
      · rintro ⟨written, next, hpush, hwrites⟩
        exact ⟨⟨next, hpush⟩, (hothers next hpush).mp ⟨written, hwrites⟩⟩
      · rintro ⟨⟨next, hpush⟩, hrestAlive⟩
        obtain ⟨written, hwrites⟩ := (hothers next hpush).mpr hrestAlive
        exact ⟨written, next, hpush, hwrites⟩

theorem Writes.tags_singles (h : Writes store (singles cards) written) :
    written.tags = store.tags := by
  refine h.preserves (fun state => state.tags = store.tags) rfl
    fun before item after hitem hbefore hpush => ?_
  obtain ⟨card, -, rfl⟩ := List.mem_map.mp hitem
  obtain ⟨tables, -, rfl⟩ := pushSingle_eq_ok_iff.mp hpush
  exact hbefore

theorem Writes.isDeleted_singles (h : Writes store (singles cards) written) (id : Uuid) :
    written.isDeleted id = store.isDeleted id := by
  rw [Store.isDeleted, h.deletedEntities_singles, Store.isDeleted]

theorem Writes.current_singles (h : Writes store (singles cards) written) :
    written.cards.current = Overlay.applyAll store.cards.current (cards.map versionWrite) := by
  rw [h.cards_current, flatMap_cardWrites_singles]

/-- A batch is accepted when its items are written, the validator agrees and the root has room. -/
theorem exists_perform_batch_iff {items : List PushItem} (hne : items ≠ []) (now : Int) :
    (∃ after, perform store ⟨.pushBatch items, now⟩ = some after) ↔
      ¬ store.Exhausted ∧ ∃ written, Writes store items written ∧ ImplicationInvariant written := by
  have hroom : ∀ written, Writes store items written → (written.Exhausted ↔ store.Exhausted) := by
    intro written hwrites
    obtain ⟨hstate, hhistory, -⟩ := hwrites.root
    rw [Store.Exhausted, hstate, hhistory, Store.Exhausted]
  simp only [perform_batch_eq_some_iff hne]
  constructor
  · rintro ⟨after, written, hinv, hcommitted⟩
    obtain ⟨hwrites, rooted, sequence, hrooted, -⟩ := committed_iff.mp hcommitted
    have hfree := exists_recomputeRootForIds_iff.mp ⟨_, hrooted⟩
    exact ⟨fun hexhausted => hfree ((hroom written hwrites).mpr hexhausted), written, hwrites, hinv⟩
  · rintro ⟨hfree, written, hwrites, hinv⟩
    have hwrittenFree : ¬ written.Exhausted := fun h => hfree ((hroom written hwrites).mp h)
    obtain ⟨⟨rooted, sequence⟩, hrooted⟩ := exists_recomputeRootForIds_iff.mpr hwrittenFree
    exact ⟨_, written, hinv, committed_iff.mpr ⟨hwrites, rooted, sequence, hrooted, rfl⟩⟩

/-! ### Versions of a client -/

/-- The next version of a live card, at the same priority, is in place. -/
theorem Editable.replaces_card (h : Editable store) {card next : Card} {tags : List Uuid}
    {modifiedAt : DateTime} (hlive : store.cards.current card.id = some card)
    (hnext : card.next card.content card.priority tags card.blazed modifiedAt card.dueDate = some next) :
    Replaces store.cards next := by
  obtain ⟨hverified, hid, -, hpriority, -, -, -, -, -, hcount, hancestor⟩ :=
    Card.next_eq_some_iff.mp hnext
  obtain ⟨row, hrow, rfl, -⟩ := EntityTables.current_eq_some_iff.mp hlive
  refine ⟨hverified, ⟨row, hrow, hid.symm, hancestor, fun other hclash => ?_⟩, ?_⟩
  · exact Eq.trans hclash hpriority
  · intro version hversion hversionId hsame
    have hle := h.counted.cards.newest h.counted.lineages.cards row hrow version hversion
      (hversionId.trans hid)
    rw [hsame, Card.entity_count, hcount] at hle
    exact absurd hle (Nat.not_succ_le_self _)

theorem Editable.replaces_tag (h : Editable store) {tag next : Tag} (hlive : store.tags.current tag.id = some tag)
    (hnext : tag.Next next) : Replaces store.tags next := by
  obtain ⟨title, color, implies, modifiedAt, hnext⟩ := hnext
  obtain ⟨count, hcount, hmk⟩ := Option.bind_eq_some_iff.mp hnext
  obtain rfl := Option.some.inj hmk
  obtain ⟨row, hrow, rfl, -⟩ := EntityTables.current_eq_some_iff.mp hlive
  refine ⟨Entity.verify_iff.mpr rfl, ⟨row, hrow, rfl, rfl, fun other hclash => hclash⟩, ?_⟩
  intro version hversion hversionId hsame
  have hle := h.counted.tags.newest h.counted.lineages.tags row hrow version hversion hversionId
  have hnextCount : count.val = row.entity.count.val + 1 := NonNegativeI64.tryFrom_eq_some_iff.mp hcount
  rw [hsame] at hle
  exact absurd (hnextCount ▸ hle) (Nat.not_succ_le_self _)

end BlazeList
