import BlazeList.Server.Commit

/-!
# The root history

The history holds one row for each sequence the store has been at, and no row of the tables carries a
stamp from the future. Together they decide what the integrity check of a sync request can see: it tells
a true claim from a false one exactly for the sequences the server has reached.
-/

namespace BlazeList

/-- The history is numbered from 1 to the current sequence, and ends with the current root. -/
structure RootHistoryInvariant (store : Store) : Prop where
  sequences : store.rootHistory.rows.map (·.sequence.val) =
    List.range' 1 store.rootState.sequence.val
  last : ∀ row ∈ store.rootHistory.rows.getLast?,
    row.sequence = store.rootState.sequence ∧ row.hash = store.rootState.hash

structure StampsBounded (store : Store) : Prop where
  cards : ∀ row ∈ store.cards.live, row.rootSequenceAt ≤ store.rootState.sequence.val
  tags : ∀ row ∈ store.tags.live, row.rootSequenceAt ≤ store.rootState.sequence.val
  deleted : ∀ row ∈ store.deletedEntities, row.rootSequenceAt ≤ store.rootState.sequence.val

theorem rootHistoryInvariant_initSchema : RootHistoryInvariant initSchema where
  sequences := rfl
  last := by simp [initSchema]

theorem RootHistoryInvariant.bounds {store : Store} (h : RootHistoryInvariant store) {row : HistoryRow}
    (hrow : row ∈ store.rootHistory) :
    1 ≤ row.sequence.val ∧ row.sequence.val ≤ store.rootState.sequence.val := by
  have hmem : row.sequence.val ∈ List.range' 1 store.rootState.sequence.val := by
    rw [← h.sequences]
    exact List.mem_map_of_mem hrow
  have hrange := List.mem_range'_1.mp hmem
  omega

theorem RootHistoryInvariant.exhausted_iff {store : Store} (h : RootHistoryInvariant store) :
    store.Exhausted ↔ store.rootState.sequence.val = 9223372036854775807 := by
  refine ⟨fun hexhausted => hexhausted.resolve_right ?_, .inl⟩
  rintro ⟨row, hrow, hnext⟩
  have hle := (h.bounds hrow).2
  omega

theorem stampsBounded_initSchema : StampsBounded initSchema where
  cards row hrow := absurd hrow (Table.not_mem_empty row)
  tags row hrow := absurd hrow (Table.not_mem_empty row)
  deleted row hrow := absurd hrow (Table.not_mem_empty row)

section

variable [Blake3]

/-! ### The root fields -/

theorem pushItem_root {store after : Store} {item : PushItem}
    (h : pushItem store item = .ok after) :
    after.rootState = store.rootState ∧ after.rootHistory = store.rootHistory ∧
      after.rootBuckets = store.rootBuckets := by
  rcases pushItem_cases h with ⟨_, _, _, _, rfl, -, rfl⟩ | ⟨_, _, _, _, rfl, -, rfl⟩ |
    ⟨_, rfl, -, -, rfl⟩ | ⟨_, rfl, -, -, -, -, rfl⟩ <;>
  exact ⟨rfl, rfl, rfl⟩

/-- Writing items leaves the root alone until the commit. -/
theorem Writes.root {store written : Store} {items : List PushItem}
    (h : Writes store items written) :
    written.rootState = store.rootState ∧ written.rootHistory = store.rootHistory ∧
      written.rootBuckets = store.rootBuckets := by
  refine h.preserves (fun state => state.rootState = store.rootState ∧
    state.rootHistory = store.rootHistory ∧ state.rootBuckets = store.rootBuckets)
    ⟨rfl, rfl, rfl⟩ fun before item after _ hbefore hitem => ?_
  obtain ⟨hstate, hhistory, hbuckets⟩ := pushItem_root hitem
  exact ⟨hstate.trans hbefore.1, hhistory.trans hbefore.2.1, hbuckets.trans hbefore.2.2⟩

theorem Committed.sequence {store written after : Store} {items : List PushItem} {now : Int}
    (h : Committed store items now written after) :
    after.rootState.sequence.val = store.rootState.sequence.val + 1 := by
  rw [h.sequence_eq, h.writes.root.1]

theorem Committed.history {store written after : Store} {items : List PushItem} {now : Int}
    (h : Committed store items now written after) :
    after.rootHistory.rows =
      store.rootHistory.rows ++ [⟨after.rootState.sequence, after.rootState.hash, now⟩] := by
  rw [h.history_rows, h.writes.root.2.1]

/-- The sequence takes one step for a call that succeeds with something to write, and none otherwise. -/
theorem execute_sequence (store : Store) (call : Call) :
    (execute store call).rootState.sequence.val = store.rootState.sequence.val +
      if (perform store call).isSome ∧ call.mutation.items ≠ [] then 1 else 0 := by
  unfold execute
  cases hperform : perform store call with
  | none => simp
  | some after =>
      rcases perform_eq_some_iff.mp hperform with ⟨hempty, rfl⟩ | ⟨hitems, written, -, hcommitted⟩
      · simp [hempty]
      · simp [hitems, hcommitted.sequence]

theorem RootHistoryInvariant.execute {store : Store} (hinv : RootHistoryInvariant store)
    (call : Call) : RootHistoryInvariant (execute store call) := by
  obtain heq | ⟨-, written, hcommitted⟩ := execute_cases store call
  · rw [heq]
    exact hinv
  · constructor
    · rw [hcommitted.history, hcommitted.sequence, List.map_append, hinv.sequences,
        List.range'_1_concat]
      simp [hcommitted.sequence, Nat.add_comm]
    · rw [hcommitted.history]
      simp

/-! ### Stamps -/

section Bounded

variable {E : Type} [Stored E] {before after : EntityTables E} {bound : Nat}

theorem Pushed.bounded {store : Store} {versions : List E} {first latest : E}
    (h : Pushed store before versions first latest after)
    (hbefore : ∀ row ∈ before.live, row.rootSequenceAt ≤ bound) :
    ∀ row ∈ after.live, row.rootSequenceAt ≤ bound := by
  intro row hrow
  rcases h.mem_live.mp hrow with ⟨hrow, -⟩ | rfl
  · exact hbefore row hrow
  · exact Nat.zero_le bound

omit [Blake3] in
theorem EntityTables.bounded_remove (hbefore : ∀ row ∈ before.live, row.rootSequenceAt ≤ bound)
    (id : Uuid) : ∀ row ∈ (before.remove id).live, row.rootSequenceAt ≤ bound :=
  fun row hrow => hbefore row (mem_live_remove.mp hrow).1

omit [Blake3] in
theorem bounded_buryRow {deletedEntities : Table deletedConflict}
    (hbefore : ∀ row ∈ deletedEntities, row.rootSequenceAt ≤ bound) (deleted : DeletedEntity) :
    ∀ row ∈ buryRow deletedEntities deleted, row.rootSequenceAt ≤ bound := by
  intro row hrow
  rcases Table.mem_replace.mp hrow with ⟨hrow, -⟩ | rfl
  · exact hbefore row hrow
  · exact Nat.zero_le bound

omit [Blake3] in
theorem EntityTables.bounded_stampAll {ids : List Uuid}
    (hbefore : ∀ row ∈ before.live, row.rootSequenceAt ≤ bound) :
    ∀ row ∈ (before.stampAll ids (bound + 1)).live, row.rootSequenceAt ≤ bound + 1 := by
  intro row hrow
  obtain ⟨old, hold, rfl⟩ := mem_live_stampAll.mp hrow
  split
  · exact le_rfl
  · exact (hbefore old hold).trans (Nat.le_succ bound)

omit [Blake3] in
theorem bounded_stampDeletedAll {deletedEntities : Table deletedConflict} {ids : List Uuid}
    (hbefore : ∀ row ∈ deletedEntities, row.rootSequenceAt ≤ bound) :
    ∀ row ∈ stampDeletedAll deletedEntities ids (bound + 1), row.rootSequenceAt ≤ bound + 1 := by
  intro row hrow
  obtain ⟨old, hold, rfl⟩ := mem_stampDeletedAll.mp hrow
  split
  · exact le_rfl
  · exact (hbefore old hold).trans (Nat.le_succ bound)

end Bounded

theorem StampsBounded.pushItem {store after : Store} {item : PushItem} (hinv : StampsBounded store)
    (h : pushItem store item = .ok after) : StampsBounded after := by
  rcases pushItem_cases h with ⟨_, _, _, _, rfl, hpushed, rfl⟩ | ⟨_, _, _, _, rfl, hpushed, rfl⟩ |
    ⟨_, rfl, -, -, rfl⟩ | ⟨_, rfl, -, -, -, -, rfl⟩
  · exact ⟨hpushed.bounded hinv.cards, hinv.tags, hinv.deleted⟩
  · exact ⟨hinv.cards, hpushed.bounded hinv.tags, hinv.deleted⟩
  · exact ⟨EntityTables.bounded_remove hinv.cards _, hinv.tags, bounded_buryRow hinv.deleted _⟩
  · exact ⟨hinv.cards, EntityTables.bounded_remove hinv.tags _, bounded_buryRow hinv.deleted _⟩

theorem StampsBounded.execute {store : Store} (hinv : StampsBounded store) (call : Call) :
    StampsBounded (execute store call) := by
  refine execute_preserves StampsBounded hinv (fun _ _ _ _ hbefore => hbefore.pushItem)
    fun written after hcommitted hwritten => ⟨?_, ?_, ?_⟩
  · rw [hcommitted.cards_eq, hcommitted.sequence_eq]
    exact EntityTables.bounded_stampAll hwritten.cards
  · rw [hcommitted.tags_eq, hcommitted.sequence_eq]
    exact EntityTables.bounded_stampAll hwritten.tags
  · rw [hcommitted.deleted_eq, hcommitted.sequence_eq]
    exact bounded_stampDeletedAll hwritten.deleted

/-! ### The integrity check -/

def WasAt (calls : List Call) (sequence : NonNegativeI64) (hash : Hash) : Prop :=
  ∃ earlier, earlier <+: calls ∧
    (Run.after execute initSchema earlier).rootState = ⟨hash, sequence⟩

/-- What a sync request is promised: no change set unless the claimed root is a true one, and a
mismatch error for every other claim. -/
def ChecksRoot (calls : List Call) (sequence : NonNegativeI64) (hash : Hash) : Prop :=
  ((∃ changes, getChangesSince (Run.after execute initSchema calls) sequence hash = .ok changes) →
      WasAt calls sequence hash) ∧
    (¬ WasAt calls sequence hash → ∃ expected,
      getChangesSince (Run.after execute initSchema calls) sequence hash =
        .error (.rootHashMismatch sequence expected))

theorem WasAt.mono {calls more : List Call} {sequence : NonNegativeI64} {hash : Hash}
    (h : WasAt calls sequence hash) : WasAt (calls ++ more) sequence hash := by
  obtain ⟨earlier, hprefix, hroot⟩ := h
  exact ⟨earlier, hprefix.trans (List.prefix_append calls more), hroot⟩

/-- Each row of the history records a root the store had. -/
theorem wasAt_of_mem_rootHistory {calls : List Call} {row : HistoryRow}
    (hrow : row ∈ (Run.after execute initSchema calls).rootHistory) :
    WasAt calls row.sequence row.hash := by
  induction calls using List.reverseRecOn with
  | nil => exact absurd hrow (Table.not_mem_empty row)
  | append_singleton calls call ih =>
      rw [Run.after_append] at hrow
      unfold Run.after at hrow
      rw [List.foldl_cons, List.foldl_nil, execute] at hrow
      cases hperform : perform (calls.foldl execute initSchema) call with
      | none =>
          rw [hperform] at hrow
          exact (ih hrow).mono
      | some after =>
          rw [hperform, Option.getD_some] at hrow
          rcases perform_eq_some_iff.mp hperform with ⟨-, rfl⟩ | ⟨-, written, -, hcommitted⟩
          · exact (ih hrow).mono
          · rw [Table.mem_def, hcommitted.history, List.mem_append, List.mem_singleton] at hrow
            rcases hrow with hrow | rfl
            · exact (ih hrow).mono
            · refine ⟨calls ++ [call], List.prefix_rfl, ?_⟩
              rw [Run.after_append]
              simp [Run.after, execute, hperform]

theorem sequence_mono (store : Store) (calls : List Call) :
    store.rootState.sequence.val ≤ (Run.after execute store calls).rootState.sequence.val := by
  refine Run.invariant (fun state : Store => store.rootState.sequence.val ≤ state.rootState.sequence.val)
    le_rfl (fun state call h => h.trans ?_) calls
  rw [execute_sequence]
  exact Nat.le_add_right _ _

theorem WasAt.sequence_le {calls : List Call} {sequence : NonNegativeI64} {hash : Hash}
    (h : WasAt calls sequence hash) :
    sequence.val ≤ (Run.after execute initSchema calls).rootState.sequence.val := by
  obtain ⟨earlier, ⟨later, rfl⟩, hroot⟩ := h
  have hmono := sequence_mono (Run.after execute initSchema earlier) later
  rwa [hroot, ← Run.after_append] at hmono

/-- Beyond the current sequence nothing is stored, and the change set is empty. -/
theorem getChangesSince_ahead {store : Store} {sequence : NonNegativeI64} {hash : Hash}
    (hhistory : RootHistoryInvariant store) (hstamps : StampsBounded store)
    (hahead : store.rootState.sequence.val < sequence.val) :
    getChangesSince store sequence hash = .ok ⟨[], [], [], store.rootState⟩ := by
  have hnone : store.rootHistory.find? (fun row => row.sequence = sequence) = none := by
    refine Table.find?_eq_none_iff.mpr fun row hrow => ?_
    have hle := hhistory.bounds hrow
    simp only [decide_eq_false_iff_not, NonNegativeI64.ext_iff]
    omega
  have hcards : store.cards.changedSince sequence.val = [] := by
    simp only [EntityTables.changedSince, List.map_eq_nil_iff, List.filter_eq_nil_iff]
    intro row hrow
    have hle := hstamps.cards row hrow
    simp only [decide_eq_true_eq]
    omega
  have htags : store.tags.changedSince sequence.val = [] := by
    simp only [EntityTables.changedSince, List.map_eq_nil_iff, List.filter_eq_nil_iff]
    intro row hrow
    have hle := hstamps.tags row hrow
    simp only [decide_eq_true_eq]
    omega
  have hdeleted : (store.deletedEntities.rows.filter fun row =>
      row.rootSequenceAt > sequence.val) = [] := by
    rw [List.filter_eq_nil_iff]
    intro row hrow
    have hle := hstamps.deleted row hrow
    simp only [decide_eq_true_eq]
    omega
  rw [getChangesSince, hnone]
  simp [changesSince, hcards, htags, hdeleted, fromRows, pure, Except.pure, bind, Except.bind]

/-- The integrity check keeps its promise exactly for the sequences the server has reached. -/
theorem checksRoot_iff (calls : List Call) (sequence : NonNegativeI64) (hash : Hash)
    (hsequence : 1 ≤ sequence.val) :
    ChecksRoot calls sequence hash ↔
      sequence.val ≤ (Run.after execute initSchema calls).rootState.sequence.val := by
  have hhistory : RootHistoryInvariant (Run.after execute initSchema calls) :=
    Run.invariant _ rootHistoryInvariant_initSchema (fun _ call hinv => hinv.execute call) calls
  have hstamps : StampsBounded (Run.after execute initSchema calls) :=
    Run.invariant _ stampsBounded_initSchema (fun _ call hinv => hinv.execute call) calls
  constructor
  · intro hchecks
    by_contra hahead
    rw [not_le] at hahead
    have hwas := hchecks.1 ⟨_, getChangesSince_ahead hhistory hstamps hahead⟩
    exact absurd hwas.sequence_le (not_le.mpr hahead)
  · intro hreached
    obtain ⟨row, hrow, hrowSequence⟩ : ∃ row ∈ (Run.after execute initSchema calls).rootHistory,
        row.sequence = sequence := by
      have hmem : sequence.val ∈
          (Run.after execute initSchema calls).rootHistory.rows.map (·.sequence.val) := by
        rw [hhistory.sequences, List.mem_range'_1]
        omega
      obtain ⟨row, hrow, hval⟩ := List.mem_map.mp hmem
      exact ⟨row, hrow, NonNegativeI64.ext_iff.mpr hval⟩
    have hfind : (Run.after execute initSchema calls).rootHistory.find?
        (fun row => row.sequence = sequence) = some row := by
      rw [Table.find?_eq_some_iff]
      · exact ⟨hrow, decide_eq_true hrowSequence⟩
      · exact fun a b ha hb => (of_decide_eq_true ha).trans (of_decide_eq_true hb).symm
    have hwas : WasAt calls sequence row.hash := hrowSequence ▸ wasAt_of_mem_rootHistory hrow
    unfold ChecksRoot getChangesSince
    rw [hfind]
    by_cases hhash : row.hash = hash
    · subst hhash
      exact ⟨fun _ => hwas, fun hnot => absurd hwas hnot⟩
    · simp only [hhash, if_false]
      exact ⟨by simp, fun _ => ⟨row.hash, rfl⟩⟩

end

/-- One pushed card takes the server to sequence 1. -/
theorem checksRoot_sample :
    @ChecksRoot polynomialBlake3 [⟨.pushCardVersions [sampleCard 1 ⟨0, by decide⟩], 0⟩]
      ⟨1, by decide⟩ zeroHash :=
  (@checksRoot_iff polynomialBlake3 _ _ _ (by decide)).mpr (by decide +kernel)

/-- The empty server answers a client that claims to be at sequence 1. -/
theorem not_checksRoot_initial : ¬ @ChecksRoot polynomialBlake3 [] ⟨1, by decide⟩ zeroHash := by
  let _ := polynomialBlake3
  intro hchecks
  have hok : getChangesSince initSchema ⟨1, by decide⟩ zeroHash = .ok ⟨[], [], [], .empty⟩ :=
    getChangesSince_ahead rootHistoryInvariant_initSchema stampsBounded_initSchema (by decide)
  have hwas := (hchecks.1 ⟨_, hok⟩).sequence_le
  exact absurd hwas (by decide)

end BlazeList
