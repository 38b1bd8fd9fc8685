import BlazeList.Server.Closure

/-!
# Single requests and batches of one item

A call with one item and the batch of that item commit the same writes. The single deletes skip the
implication validator, which could not have refused them.
-/

namespace BlazeList

/-- The call that sends the item on its own. -/
def PushItem.single : PushItem → Mutation
  | .cards versions => .pushCardVersions versions
  | .tags versions => .pushTagVersions versions
  | .deleteCard id => .deleteCard id
  | .deleteTag id => .deleteTag id

@[simp]
theorem PushItem.items_single (item : PushItem) : item.single.items = [item] := by
  cases item <;> rfl

/-- The stores agree on everything but the times in their root histories. -/
structure SameUpToTimes (store other : Store) : Prop where
  cards_eq : store.cards = other.cards
  tags_eq : store.tags = other.tags
  deletedEntities_eq : store.deletedEntities = other.deletedEntities
  rootState_eq : store.rootState = other.rootState
  rootBuckets_eq : store.rootBuckets = other.rootBuckets
  rootHistory_eq : (store.rootHistory.rows.map fun row => (row.sequence, row.hash)) =
    other.rootHistory.rows.map fun row => (row.sequence, row.hash)

variable [Blake3]

theorem Committed.written_eq {store written written' after after' : Store} {items : List PushItem}
    {now now' : Int} (h : Committed store items now written after)
    (h' : Committed store items now' written' after') : written = written' :=
  Except.ok.inj (h.writes.symm.trans h'.writes)

/-- The time of a commit is only in the history. -/
theorem Committed.sameUpToTimes {store written written' after after' : Store}
    {items : List PushItem} {now now' : Int} (h : Committed store items now written after)
    (h' : Committed store items now' written' after') : SameUpToTimes after after' := by
  obtain rfl := h.written_eq h'
  have hsequence : after.rootState.sequence = after'.rootState.sequence := by
    apply NonNegativeI64.ext_iff.mpr
    rw [h.sequence_eq, h'.sequence_eq]
  have hbuckets : after.rootBuckets = after'.rootBuckets := by
    rw [h.rootBuckets_eq, h'.rootBuckets_eq]
  have hhash : after.rootState.hash = after'.rootState.hash := by
    rw [h.rootHash_eq, h'.rootHash_eq, hbuckets]
  refine ⟨?_, ?_, ?_, ?_, hbuckets, ?_⟩
  · rw [h.cards_eq, h'.cards_eq, hsequence]
  · rw [h.tags_eq, h'.tags_eq, hsequence]
  · rw [h.deleted_eq, h'.deleted_eq, hsequence]
  · calc after.rootState = ⟨after.rootState.hash, after.rootState.sequence⟩ := rfl
      _ = ⟨after'.rootState.hash, after'.rootState.sequence⟩ := by rw [hhash, hsequence]
  · rw [h.history_rows, h'.history_rows, hsequence, hhash]
    simp

/-- A commit that succeeds at one time succeeds at any other. -/
theorem Committed.at_time {store written after : Store} {items : List PushItem} {now : Int}
    (h : Committed store items now written after) (now' : Int) :
    ∃ after', Committed store items now' written after' := by
  obtain ⟨hwrites, rooted, sequence, hroot, -⟩ := committed_iff.mp h
  have hfree := exists_recomputeRootForIds_iff.mp ⟨_, hroot⟩
  obtain ⟨⟨rooted', sequence'⟩, hroot'⟩ := exists_recomputeRootForIds_iff.mpr hfree
  exact ⟨_, committed_iff.mpr ⟨hwrites, rooted', sequence', hroot', rfl⟩⟩

/-- What the validator finds after a single call's item is written: nothing, if it is a delete. -/
theorem perform_single_eq_some_iff {store after : Store} {item : PushItem} {now : Int}
    (hinv : ImplicationInvariant store) :
    perform store ⟨item.single, now⟩ = some after ↔
      ∃ written, ImplicationInvariant written ∧ Committed store [item] now written after := by
  simp only [perform_eq_some_iff, PushItem.items_single, List.cons_ne_self, false_and,
    false_or, ne_eq, not_false_eq_true, true_and]
  refine exists_congr fun written => and_congr_left fun hcommitted => ?_
  have hwrites := hcommitted.writes
  have hvalid := validateBatchImplications_eq_ok_iff hwrites.tags_current hwrites.cards_current
  by_cases hvalidated : item.single.validated = true
  · rw [hvalid]
    exact ⟨fun h => h hvalidated, fun h _ => h⟩
  · constructor
    · intro _
      apply hinv.written (eq_false_of_ne_true hvalidated)
      rwa [PushItem.items_single]
    · intro _ hvalidated'
      exact absurd hvalidated' hvalidated

theorem perform_batch_eq_some_iff {store after : Store} {items : List PushItem} {now : Int}
    (hne : items ≠ []) :
    perform store ⟨.pushBatch items, now⟩ = some after ↔
      ∃ written, ImplicationInvariant written ∧ Committed store items now written after := by
  have hitems : (Mutation.pushBatch items).items = items := rfl
  simp only [perform_eq_some_iff, hitems, hne, false_and, false_or, ne_eq, not_false_eq_true,
    true_and]
  refine exists_congr fun written => and_congr_left fun hcommitted => ?_
  have hwrites := hcommitted.writes
  rw [← validateBatchImplications_eq_ok_iff hwrites.tags_current hwrites.cards_current]
  exact ⟨fun h => h rfl, fun h _ => h⟩

/-- Where the invariant holds, the batch of one item is accepted as the single call is. -/
theorem perform_single {store : Store} (hinv : ImplicationInvariant store) (item : PushItem)
    (now : Int) :
    perform store ⟨item.single, now⟩ = perform store ⟨.pushBatch [item], now⟩ := by
  ext after
  rw [perform_single_eq_some_iff hinv, perform_batch_eq_some_iff (List.cons_ne_nil item [])]

/-- A batch that is accepted is accepted at any time, and the result is the same up to the time. -/
theorem perform_batch_at_time {store after : Store} {items : List PushItem} {now : Int}
    (h : perform store ⟨.pushBatch items, now⟩ = some after) (now' : Int) :
    ∃ after', perform store ⟨.pushBatch items, now'⟩ = some after' ∧ SameUpToTimes after after' := by
  by_cases hne : items = []
  · subst hne
    have hnow : perform store ⟨.pushBatch [], now⟩ = some store := rfl
    obtain rfl : store = after := Option.some.inj (hnow.symm.trans h)
    exact ⟨store, rfl, rfl, rfl, rfl, rfl, rfl, rfl⟩
  · obtain ⟨written, hinv, hcommitted⟩ := (perform_batch_eq_some_iff hne).mp h
    obtain ⟨after', hcommitted'⟩ := hcommitted.at_time now'
    exact ⟨after', (perform_batch_eq_some_iff hne).mpr ⟨written, hinv, hcommitted'⟩,
      hcommitted.sameUpToTimes hcommitted'⟩

/-- In every reachable store, an item sent on its own and as a batch of one, at any two times, is
accepted in both or refused in both. Accepted at one time, it leaves one store; at different times, the
stores differ in their history's times at most. Refused, it leaves the store as it was. -/
theorem single_item_run (calls : List Call) (item : PushItem) (now now' : Int) :
    let store := Run.after execute initSchema calls
    perform store ⟨item.single, now⟩ = perform store ⟨.pushBatch [item], now⟩ ∧
      ((∃ after after', perform store ⟨item.single, now⟩ = some after ∧
          perform store ⟨.pushBatch [item], now'⟩ = some after' ∧ SameUpToTimes after after') ∨
        perform store ⟨item.single, now⟩ = none ∧ perform store ⟨.pushBatch [item], now'⟩ = none ∧
          execute store ⟨item.single, now⟩ = store ∧
          execute store ⟨.pushBatch [item], now'⟩ = store) := by
  intro store
  have hsame := perform_single (implicationInvariant_run calls) item
  refine ⟨hsame now, ?_⟩
  cases hsingle : perform store ⟨item.single, now⟩ with
  | some after =>
      obtain ⟨after', hbatch, hafter⟩ := perform_batch_at_time ((hsame now).symm.trans hsingle) now'
      exact .inl ⟨after, after', rfl, hbatch, hafter⟩
  | none =>
      have hbatch : perform store ⟨.pushBatch [item], now'⟩ = none := by
        rw [Option.eq_none_iff_forall_not_mem]
        intro after' hafter'
        obtain ⟨after, hafter, -⟩ := perform_batch_at_time hafter' now
        rw [← hsame now, hsingle] at hafter
        contradiction
      refine .inr ⟨rfl, hbatch, ?_, ?_⟩
      · rw [execute, hsingle, Option.getD_none]
      · rw [execute, hbatch, Option.getD_none]

end BlazeList
