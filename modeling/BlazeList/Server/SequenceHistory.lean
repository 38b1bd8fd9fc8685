import BlazeList.Lib.Paging
import BlazeList.Server.History
import BlazeList.Server.Tombstones

/-!
# The sequence history

Every mutation adds a row to the root history and stamps what it wrote with the row's sequence. The
sequence history lists the rows from the newest to the oldest, each with what is still stored under its
stamp.
-/

namespace BlazeList

inductive SequenceOperationKind where
  | cardCreated
  | cardUpdated
  | tagCreated
  | tagUpdated
  | entityDeleted
  deriving DecidableEq

structure SequenceOperation where
  entityId : Uuid
  kind : SequenceOperationKind
  deriving DecidableEq

structure SequenceHistoryEntry where
  sequence : NonNegativeI64
  hash : Hash
  operations : List SequenceOperation
  createdAt : DateTime
  deriving DecidableEq

/-- Fails outside the calendar's range. -/
def DateTime.fromTimestampMillis (millis : Int) : Option DateTime :=
  if h : -8334601228800000 ≤ millis ∧ millis ≤ 8210266876799999 then some ⟨millis, h⟩ else none

/-! ### The read -/

abbrev StampedOperation := Nat × SequenceOperation

section

variable {E : Type} [Stored E]

/-- A version with count 1 is taken for the first. -/
def VersionRow.operation (created updated : SequenceOperationKind) (row : VersionRow E) :
    SequenceOperation :=
  ⟨Entity.id row.entity, if (Entity.count row.entity).val = 1 then created else updated⟩

def EntityTables.operations (created updated : SequenceOperationKind) (tables : EntityTables E) :
    List StampedOperation :=
  (tables.versions.rows.filter fun row => row.rootSequenceAt > 0).map fun row =>
    (row.rootSequenceAt, row.operation created updated)

end

def DeletedRow.operation (row : DeletedRow) : SequenceOperation := ⟨row.entity.id, .entityDeleted⟩

def deletedOperations (deletedEntities : Table deletedConflict) : List StampedOperation :=
  (deletedEntities.rows.filter fun row => row.rootSequenceAt > 0).map fun row =>
    (row.rootSequenceAt, row.operation)

def Store.stampedOperations (store : Store) : List StampedOperation :=
  store.cards.operations .cardCreated .cardUpdated ++
    store.tags.operations .tagCreated .tagUpdated ++ deletedOperations store.deletedEntities

def groupOperation (groups : Std.TreeMap Nat (List SequenceOperation))
    (operation : StampedOperation) : Std.TreeMap Nat (List SequenceOperation) :=
  groups.insert operation.1 (groups.getD operation.1 [] ++ [operation.2])

/-- Each row takes its operations out of the groups. -/
def attachOperations :
    Std.TreeMap Nat (List SequenceOperation) → List HistoryRow → List SequenceHistoryEntry
  | _, [] => []
  | groups, row :: rest =>
      { sequence := row.sequence
        hash := row.hash
        operations := groups.getD row.sequence.val []
        createdAt := (DateTime.fromTimestampMillis row.createdAt).getD .epoch } ::
          attachOperations (groups.erase row.sequence.val) rest

/-- `ORDER BY sequence DESC`, below an exclusive bound. -/
def Store.rootEntries (store : Store) (afterSequence : Option NonNegativeI64) (limit : Option Nat) :
    List HistoryRow :=
  limited limit ((store.rootHistory.rows.filter fun row =>
    afterSequence.all fun after => row.sequence.val < after.val).orderBy fun row =>
      - (row.sequence.val : Int))

def getSequenceHistory (store : Store) (afterSequence : Option NonNegativeI64)
    (limit : Option Nat) : List SequenceHistoryEntry :=
  let rootEntries := store.rootEntries afterSequence limit
  let sequences := rootEntries.map (·.sequence.val)
  let operations := store.stampedOperations.filter (·.1 ∈ sequences)
  attachOperations (operations.foldl groupOperation ∅) rootEntries

/-! ### One entry -/

def Store.entryOf (store : Store) (row : HistoryRow) : SequenceHistoryEntry where
  sequence := row.sequence
  hash := row.hash
  operations := (store.stampedOperations.filter (·.1 = row.sequence.val)).map Prod.snd
  createdAt := (DateTime.fromTimestampMillis row.createdAt).getD .epoch

theorem getD_foldl_groupOperation (operations : List StampedOperation)
    (groups : Std.TreeMap Nat (List SequenceOperation)) (sequence : Nat) :
    (operations.foldl groupOperation groups).getD sequence [] =
      groups.getD sequence [] ++ (operations.filter (·.1 = sequence)).map Prod.snd := by
  induction operations generalizing groups with
  | nil => simp
  | cons operation rest ih =>
      rw [List.foldl_cons, ih, groupOperation, Std.TreeMap.getD_insert, List.filter_cons]
      simp only [Std.LawfulEqCmp.compare_eq_iff_eq]
      by_cases hsame : operation.1 = sequence
      · simp [hsame]
      · simp [hsame]

theorem attachOperations_eq {groups : Std.TreeMap Nat (List SequenceOperation)}
    {rows : List HistoryRow} (hnodup : (rows.map (·.sequence.val)).Nodup) :
    attachOperations groups rows = rows.map fun row =>
      { sequence := row.sequence
        hash := row.hash
        operations := groups.getD row.sequence.val []
        createdAt := (DateTime.fromTimestampMillis row.createdAt).getD .epoch } := by
  induction rows generalizing groups with
  | nil => rfl
  | cons row rest ih =>
      obtain ⟨hfresh, hrest⟩ := List.nodup_cons.mp hnodup
      rw [attachOperations, ih hrest, List.map_cons]
      congr 1
      apply List.map_congr_left
      intro other hother
      have hne : row.sequence.val ≠ other.sequence.val := fun heq =>
        hfresh (List.mem_map.mpr ⟨other, hother, heq.symm⟩)
      rw [Std.TreeMap.getD_erase]
      simp [hne]

theorem getSequenceHistory_eq {store : Store} {afterSequence : Option NonNegativeI64}
    {limit : Option Nat}
    (hnodup : ((store.rootEntries afterSequence limit).map (·.sequence.val)).Nodup) :
    getSequenceHistory store afterSequence limit =
      (store.rootEntries afterSequence limit).map store.entryOf := by
  unfold getSequenceHistory
  dsimp only
  rw [attachOperations_eq hnodup]
  apply List.map_congr_left
  intro row hrow
  have hmem : row.sequence.val ∈ (store.rootEntries afterSequence limit).map (·.sequence.val) :=
    List.mem_map_of_mem hrow
  have hfilter : (store.stampedOperations.filter
        (·.1 ∈ (store.rootEntries afterSequence limit).map (·.sequence.val))).filter
      (·.1 = row.sequence.val) = store.stampedOperations.filter (·.1 = row.sequence.val) := by
    rw [List.filter_filter]
    apply List.filter_congr
    intro operation _
    by_cases hsame : operation.1 = row.sequence.val
    · simp [hsame, hmem]
    · simp [hsame]
  rw [getD_foldl_groupOperation, hfilter]
  simp [Store.entryOf]

/-! ### Pages -/

instance : LinearOrder NonNegativeI64 :=
  LinearOrder.lift' NonNegativeI64.val fun _ _ => NonNegativeI64.ext_iff.mpr

theorem RootHistoryInvariant.pairwise {store : Store} (hinv : RootHistoryInvariant store) :
    store.rootHistory.rows.reverse.Pairwise fun a b => b.sequence < a.sequence := by
  have hsorted : (store.rootHistory.rows.map (·.sequence.val)).Pairwise (· < ·) := by
    rw [hinv.sequences]
    exact List.pairwise_lt_range'
  have hpairs : store.rootHistory.rows.Pairwise fun a b => a.sequence.val < b.sequence.val :=
    List.pairwise_map.mp hsorted
  rw [List.pairwise_reverse]
  exact hpairs

/-- The rows come in the order of their sequences, so the newest come first when they are reversed. -/
theorem RootHistoryInvariant.rootEntries {store : Store} (hinv : RootHistoryInvariant store)
    (afterSequence : Option NonNegativeI64) (limit : Option Nat) :
    store.rootEntries afterSequence limit =
      limited limit (Paging.below HistoryRow.sequence afterSequence store.rootHistory.rows.reverse) := by
  have hsorted := hinv.pairwise
  unfold Store.rootEntries
  congr 1
  symm
  apply List.eq_orderBy_of_perm
  · intro a ha b hb heq
    have hsequence : a.sequence = b.sequence := by
      apply NonNegativeI64.ext_iff.mpr
      omega
    exact Table.eq_of_conflict (List.mem_of_mem_filter ha) (List.mem_of_mem_filter hb) hsequence
  · exact (List.reverse_perm _).filter _
  · refine (hsorted.sublist List.filter_sublist).imp fun {a b} hlt => ?_
    have hval : b.sequence.val < a.sequence.val := hlt
    omega

theorem RootHistoryInvariant.getSequenceHistory {store : Store} (hinv : RootHistoryInvariant store)
    (afterSequence : Option NonNegativeI64) (limit : Option Nat) :
    getSequenceHistory store afterSequence limit =
      limited limit (Paging.below SequenceHistoryEntry.sequence afterSequence
        (store.rootHistory.rows.reverse.map store.entryOf)) := by
  have hsublist : (store.rootEntries afterSequence limit).Sublist store.rootHistory.rows.reverse := by
    rw [hinv.rootEntries]
    cases limit with
    | none => exact List.filter_sublist
    | some limit => exact (List.take_sublist _ _).trans List.filter_sublist
  have hnodup : ((store.rootEntries afterSequence limit).map (·.sequence.val)).Nodup := by
    refine List.pairwise_map.mpr ((hinv.pairwise.sublist hsublist).imp fun {a b} hlt heq => ?_)
    have hval : b.sequence.val < a.sequence.val := hlt
    omega
  rw [getSequenceHistory_eq hnodup, hinv.rootEntries]
  have hbelow : (Paging.below HistoryRow.sequence afterSequence store.rootHistory.rows.reverse).map
      store.entryOf = Paging.below SequenceHistoryEntry.sequence afterSequence
        (store.rootHistory.rows.reverse.map store.entryOf) := by
    rw [Paging.below, Paging.below, List.filter_map]
    rfl
  cases limit with
  | none => exact hbelow
  | some limit => exact List.map_take.trans (congrArg (List.take limit) hbelow)

/-- Every sequence from the root's down to 1 has one entry, and reading page by page, from the last
sequence of a page on, gives the same entries as reading all at once. -/
structure PagesExactly (store : Store) (size : Nat) : Prop where
  sequences : (getSequenceHistory store none none).map (·.sequence.val) =
    (List.range' 1 store.rootState.sequence.val).reverse
  paged : ∀ fuel, store.rootState.sequence.val < fuel →
    Paging.readAll SequenceHistoryEntry.sequence
      (fun afterSequence => getSequenceHistory store afterSequence (some size)) fuel none =
        getSequenceHistory store none none

theorem RootHistoryInvariant.pagesExactly {store : Store} (hinv : RootHistoryInvariant store)
    {size : Nat} (hsize : 0 < size) : PagesExactly store size := by
  have hall : BlazeList.getSequenceHistory store none none =
      store.rootHistory.rows.reverse.map store.entryOf := by
    rw [hinv.getSequenceHistory, Paging.below_none]
    rfl
  have hsorted : (store.rootHistory.rows.reverse.map store.entryOf).Pairwise
      fun a b => b.sequence < a.sequence :=
    List.pairwise_map.mpr hinv.pairwise
  have hlength : store.rootHistory.rows.length = store.rootState.sequence.val := by
    have hlengths := congrArg List.length hinv.sequences
    rwa [List.length_map, List.length_range'] at hlengths
  constructor
  · rw [hall, List.map_map, List.map_reverse, ← hinv.sequences]
    rfl
  · intro fuel hfuel
    rw [Paging.readAll_eq hsorted hsize fun after => hinv.getSequenceHistory after (some size)]
    · rw [hall, Paging.below_none]
    · rw [Paging.below_none, List.length_map, List.length_reverse, hlength]
      exact hfuel

/-! ### What a call writes -/

section Tables

variable {E : Type} [Stored E] {tables before now after : EntityTables E} {ids : List Uuid}
  {sequence : Nat} {gone : Uuid → Prop}

theorem EntityTables.mem_versions_stampAll {row : VersionRow E} :
    row ∈ (tables.stampAll ids sequence).versions ↔
      ∃ old ∈ tables.versions,
        (if Entity.id old.entity ∈ ids ∧ old.rootSequenceAt = 0 then
          { old with rootSequenceAt := sequence } else old) = row := by
  induction ids generalizing tables with
  | nil => simp [stampAll]
  | cons id rest ih =>
      apply (@ih (tables.stamp id sequence)).trans
      simp only [mem_versions_stamp, exists_exists_and_eq_and, VersionRow.stamp_entity]
      refine exists_congr fun old => and_congr_right fun _ => ?_
      by_cases hid : Entity.id old.entity = id <;> by_cases hzero : old.rootSequenceAt = 0 <;>
        by_cases hrest : Entity.id old.entity ∈ rest <;> simp [VersionRow.stamp, hid, hzero, hrest]

/-- What is stored now was stored before or is a new version, not yet stamped, of an id in `ids`. What
is not stored any more is `gone`. -/
structure VersionsWritten (before now : EntityTables E) (ids : List Uuid) (gone : Uuid → Prop) :
    Prop where
  kept : ∀ row ∈ now.versions, row ∈ before.versions ∨
    row.rootSequenceAt = 0 ∧ Entity.id row.entity ∈ ids ∧
      ∀ old ∈ before.versions, old.entity ≠ row.entity
  lost : ∀ row ∈ before.versions, row ∈ now.versions ∨ gone (Entity.id row.entity)

theorem VersionsWritten.refl : VersionsWritten before before [] gone :=
  ⟨fun _ => .inl, fun _ => .inl⟩

theorem VersionsWritten.mono (h : VersionsWritten before now ids gone) {more : List Uuid}
    {gone' : Uuid → Prop} (hids : ids ⊆ more) (hgone : ∀ id, gone id → gone' id) :
    VersionsWritten before now more gone' := by
  refine ⟨fun row hrow => (h.kept row hrow).imp_right ?_, fun row hrow => (h.lost row hrow).imp_right
    (hgone _)⟩
  rintro ⟨hzero, hid, hnew⟩
  exact ⟨hzero, hids hid, hnew⟩

theorem VersionsWritten.remove (h : VersionsWritten before now ids gone) {id : Uuid}
    (hgone : gone id) : VersionsWritten before (now.remove id) ids gone := by
  refine ⟨fun row hrow => h.kept row (EntityTables.mem_versions_remove.mp hrow).1, fun row hrow => ?_⟩
  rcases h.lost row hrow with hnow | hlost
  · by_cases hid : Entity.id row.entity = id
    · exact .inr (hid ▸ hgone)
    · exact .inl (EntityTables.mem_versions_remove.mpr ⟨hnow, hid⟩)
  · exact .inr hlost

theorem VersionsWritten.pushed [Blake3] {store : Store} {versions : List E} {first latest : E}
    (h : VersionsWritten before now ids gone) (hpushed : Pushed store now versions first latest after)
    (hsingle : SingleId versions) (hfirst : Entity.id first ∈ ids) (hgone : ¬gone (Entity.id first)) :
    VersionsWritten before after ids gone := by
  refine ⟨fun row hrow => ?_, fun row hrow => ?_⟩
  · rcases hpushed.mem_versions.mp hrow with hold | ⟨v, hv, rfl⟩
    · exact h.kept row hold
    · have hid : Entity.id v = Entity.id first := hsingle v hv first hpushed.first_mem
      refine .inr ⟨rfl, hid ▸ hfirst, fun old hold heq => ?_⟩
      obtain rfl : old.entity = v := heq
      rcases h.lost old hold with hnow | hlost
      · -- it would be stored twice
        have hunique := after.versions.unique
        rw [hpushed.versions_rows, List.pairwise_append] at hunique
        exact hunique.2.2 old hnow _ (List.mem_map_of_mem hv) ⟨rfl, rfl⟩
      · exact hgone (hid ▸ hlost)
  · exact (h.lost row hrow).imp_left fun hnow => hpushed.mem_versions.mpr (.inl hnow)

/-- A stamp reaches the new versions and no other. -/
theorem VersionsWritten.stampAll (h : VersionsWritten before now ids gone)
    (hstamped : ∀ row ∈ before.versions, row.rootSequenceAt ≠ 0) {row : VersionRow E}
    (hrow : row ∈ (now.stampAll ids sequence).versions) :
    row ∈ before.versions ∨
      row.rootSequenceAt = sequence ∧ ∀ old ∈ before.versions, old.entity ≠ row.entity := by
  obtain ⟨written, hwritten, rfl⟩ := EntityTables.mem_versions_stampAll.mp hrow
  rcases h.kept written hwritten with hold | ⟨hzero, hid, hnew⟩
  · rw [if_neg fun hboth => hstamped written hold hboth.2]
    exact .inl hold
  · rw [if_pos ⟨hid, hzero⟩]
    exact .inr ⟨rfl, hnew⟩

end Tables

section

variable [Blake3]

structure CallWritten (before now : Store) (affected : Affected) : Prop where
  cards : VersionsWritten before.cards now.cards affected.cardIds (now.isDeleted · = true)
  tags : VersionsWritten before.tags now.tags affected.tagIds (now.isDeleted · = true)
  deleted : ∀ row ∈ now.deletedEntities,
    row ∈ before.deletedEntities ∧ row.entity.id ∉ affected.deletedIds ∨
      row.rootSequenceAt = 0 ∧ row.entity.id ∈ affected.deletedIds ∧
        before.isDeleted row.entity.id = false
  buried : ∀ id, before.isDeleted id = true → now.isDeleted id = true

omit [Blake3] in
theorem CallWritten.refl {before : Store} : CallWritten before before .empty :=
  ⟨.refl, .refl, fun _ hrow => .inl ⟨hrow, List.not_mem_nil⟩, fun _ => id⟩

/-- A delete buries its id, which was not buried before. -/
theorem deleted_buryRow {before now : Store} {deletedIds : List Uuid} {id : Uuid}
    (hdeleted : ∀ row ∈ now.deletedEntities,
      row ∈ before.deletedEntities ∧ row.entity.id ∉ deletedIds ∨
        row.rootSequenceAt = 0 ∧ row.entity.id ∈ deletedIds ∧ before.isDeleted row.entity.id = false)
    (hburied : ∀ id, before.isDeleted id = true → now.isDeleted id = true)
    (hid : now.isDeleted id = false) :
    ∀ row ∈ buryRow now.deletedEntities (DeletedEntity.new id),
      row ∈ before.deletedEntities ∧ row.entity.id ∉ deletedIds ++ [id] ∨
        row.rootSequenceAt = 0 ∧ row.entity.id ∈ deletedIds ++ [id] ∧
          before.isDeleted row.entity.id = false := by
  intro row hrow
  rcases mem_buryRow.mp hrow with ⟨hold, hne⟩ | rfl
  · refine (hdeleted row hold).imp ?_ ?_
    · rintro ⟨hbefore, hnotMem⟩
      refine ⟨hbefore, fun hmem => ?_⟩
      rcases List.mem_append.mp hmem with hmem | hmem
      · exact hnotMem hmem
      · exact hne (List.mem_singleton.mp hmem)
    · rintro ⟨hzero, hmem, hnew⟩
      exact ⟨hzero, List.mem_append_left _ hmem, hnew⟩
  · refine .inr ⟨rfl, List.mem_append_right _ (List.mem_singleton_self id), ?_⟩
    apply eq_false_of_ne_true
    intro htrue
    exact absurd (hburied id htrue) (ne_true_of_eq_false hid)

theorem isDeleted_buryRow {store : Store} {deletedEntities : Table deletedConflict} {id : Uuid}
    (h : store.deletedEntities = buryRow deletedEntities (DeletedEntity.new id)) :
    store.isDeleted id = true :=
  Store.isDeleted_iff.mpr ⟨_, h ▸ mem_buryRow.mpr (.inr rfl), rfl⟩

theorem CallWritten.pushItem {before now after : Store} {affected : Affected} {item : PushItem}
    (h : CallWritten before now affected) (hsingle : item.SingleId)
    (hitem : pushItem now item = .ok after) : CallWritten before after (affected.add item) := by
  have hburied : ∀ id, now.isDeleted id = true → after.isDeleted id = true :=
    fun id hid => isDeleted_pushItem hid hitem
  have hadded : ∀ {versions : List Card} {first : Card}, versions.head? = some first →
      first.id ∈ affected.cardIds ++ versions.head?.toList.map Card.id := by
    intro versions first hhead
    rw [hhead]
    exact List.mem_append_right _ (List.mem_singleton_self _)
  have haddedTag : ∀ {versions : List Tag} {first : Tag}, versions.head? = some first →
      first.id ∈ affected.tagIds ++ versions.head?.toList.map Tag.id := by
    intro versions first hhead
    rw [hhead]
    exact List.mem_append_right _ (List.mem_singleton_self _)
  have hmonotone := fun id hid => hburied id (h.buried id hid)
  rcases pushItem_cases hitem with ⟨_, _, first, _, rfl, hpushed, rfl⟩ |
    ⟨_, _, first, _, rfl, hpushed, rfl⟩ | ⟨id, rfl, hdeleted, -, rfl⟩ |
    ⟨id, rfl, hdeleted, -, -, -, rfl⟩
  · refine ⟨?_, h.tags, h.deleted, h.buried⟩
    exact (h.cards.mono (List.subset_append_left _ _) fun _ => id).pushed hpushed hsingle
      (hadded hpushed.head) (ne_true_of_eq_false hpushed.notDeleted)
  · refine ⟨h.cards, ?_, h.deleted, h.buried⟩
    exact (h.tags.mono (List.subset_append_left _ _) fun _ => id).pushed hpushed hsingle
      (haddedTag hpushed.head) (ne_true_of_eq_false hpushed.notDeleted)
  · have hgone : Store.isDeleted { now with
        cards := now.cards.remove id
        deletedEntities := buryRow now.deletedEntities (DeletedEntity.new id) } id = true :=
      isDeleted_buryRow rfl
    exact ⟨(h.cards.mono (List.Subset.refl _) hburied).remove hgone,
      h.tags.mono (List.Subset.refl _) hburied, deleted_buryRow h.deleted h.buried hdeleted, hmonotone⟩
  · have hgone : Store.isDeleted { now with
        tags := now.tags.remove id
        deletedEntities := buryRow now.deletedEntities (DeletedEntity.new id) } id = true :=
      isDeleted_buryRow rfl
    exact ⟨h.cards.mono (List.Subset.refl _) hburied,
      (h.tags.mono (List.Subset.refl _) hburied).remove hgone,
      deleted_buryRow h.deleted h.buried hdeleted, hmonotone⟩

theorem Writes.callWritten {store written : Store} {items : List PushItem}
    (h : Writes store items written) (hsingle : ∀ item ∈ items, item.SingleId) :
    CallWritten store written (affectedOf items) := by
  suffices hfold : ∀ (now : Store) (affected : Affected), CallWritten store now affected →
      Writes now items written → CallWritten store written (items.foldl Affected.add affected) from
    hfold store .empty .refl h
  clear h
  induction items with
  | nil =>
      intro now affected hnow hnil
      rw [writes_nil.mp hnil]
      exact hnow
  | cons item rest ih =>
      intro now affected hnow hwrites
      obtain ⟨next, hnext, hrest⟩ := writes_cons.mp hwrites
      exact ih (fun other hother => hsingle other (List.mem_cons_of_mem item hother)) next _
        (hnow.pushItem (hsingle item List.mem_cons_self) hnext) hrest

/-! ### Stamps over a run -/

def WrittenAt (calls : List Call) (held : Store → Prop) (sequence : Nat) : Prop :=
  ∃ earlier call, earlier ++ [call] <+: calls ∧
    ¬held (Run.after execute initSchema earlier) ∧
    held (Run.after execute initSchema (earlier ++ [call])) ∧
    (Run.after execute initSchema earlier).rootState.sequence.val + 1 = sequence ∧
    (Run.after execute initSchema (earlier ++ [call])).rootState.sequence.val = sequence

theorem WrittenAt.mono {calls more : List Call} {held : Store → Prop} {sequence : Nat}
    (h : WrittenAt calls held sequence) : WrittenAt (calls ++ more) held sequence := by
  obtain ⟨earlier, call, hprefix, hrest⟩ := h
  exact ⟨earlier, call, hprefix.trans (List.prefix_append calls more), hrest⟩

theorem WrittenAt.bounds {calls : List Call} {held : Store → Prop} {sequence : Nat}
    (h : WrittenAt calls held sequence) :
    1 ≤ sequence ∧ sequence ≤ (Run.after execute initSchema calls).rootState.sequence.val := by
  obtain ⟨earlier, call, ⟨later, rfl⟩, -, -, hnext, hsequence⟩ := h
  have hmono := sequence_mono (Run.after execute initSchema (earlier ++ [call])) later
  rw [← Run.after_append, hsequence] at hmono
  exact ⟨by omega, hmono⟩

def Store.HoldsCard (version : Card) (store : Store) : Prop :=
  ∃ row ∈ store.cards.versions, row.entity = version

def Store.HoldsTag (version : Tag) (store : Store) : Prop :=
  ∃ row ∈ store.tags.versions, row.entity = version

def Store.HoldsTombstone (id : Uuid) (store : Store) : Prop := store.isDeleted id = true

/-- Every version and every tombstone carries the sequence of the call that wrote it. -/
structure StampedRun (calls : List Call) (store : Store) : Prop where
  cards : ∀ row ∈ store.cards.versions,
    WrittenAt calls (Store.HoldsCard row.entity) row.rootSequenceAt
  tags : ∀ row ∈ store.tags.versions,
    WrittenAt calls (Store.HoldsTag row.entity) row.rootSequenceAt
  deleted : ∀ row ∈ store.deletedEntities,
    WrittenAt calls (Store.HoldsTombstone row.entity.id) row.rootSequenceAt

theorem StampedRun.mono {calls : List Call} {store : Store} (h : StampedRun calls store)
    (more : List Call) : StampedRun (calls ++ more) store :=
  ⟨fun row hrow => (h.cards row hrow).mono, fun row hrow => (h.tags row hrow).mono,
    fun row hrow => (h.deleted row hrow).mono⟩

/-- What a call that commits made true. -/
theorem writtenAt_of_committed {calls : List Call} {call : Call} {items : List PushItem}
    {written after : Store}
    (hafter : Run.after execute initSchema (calls ++ [call]) = after)
    (hcommitted : Committed (Run.after execute initSchema calls) items call.now written after)
    {held : Store → Prop} (hnot : ¬held (Run.after execute initSchema calls)) (hheld : held after) :
    WrittenAt (calls ++ [call]) held after.rootState.sequence.val := by
  refine ⟨calls, call, List.prefix_rfl, hnot, ?_, hcommitted.sequence.symm, ?_⟩
  · rw [hafter]
    exact hheld
  · rw [hafter]

/-- The versions of one kind, where the new ones have been written at the sequence that stamps them. -/
theorem VersionsWritten.writtenAt {E : Type} [Stored E] {before now : EntityTables E} {ids : List Uuid}
    {gone : Uuid → Prop} {calls more : List Call} {sequence : Nat} {held : E → Store → Prop}
    (h : VersionsWritten before now ids gone)
    (hbefore : ∀ row ∈ before.versions, WrittenAt calls (held row.entity) row.rootSequenceAt)
    (hnew : ∀ row ∈ (now.stampAll ids sequence).versions,
      (∀ old ∈ before.versions, old.entity ≠ row.entity) →
        WrittenAt (calls ++ more) (held row.entity) sequence) :
    ∀ row ∈ (now.stampAll ids sequence).versions,
      WrittenAt (calls ++ more) (held row.entity) row.rootSequenceAt := by
  intro row hrow
  have hstamped : ∀ row ∈ before.versions, row.rootSequenceAt ≠ 0 := fun row hrow =>
    Nat.one_le_iff_ne_zero.mp (hbefore row hrow).bounds.1
  rcases h.stampAll hstamped hrow with hold | ⟨hsequence, hfresh⟩
  · exact (hbefore row hold).mono
  · rw [hsequence]
    exact hnew row hrow hfresh

theorem StampedRun.perform {calls : List Call} {call : Call} {after : Store}
    (hbefore : StampedRun calls (Run.after execute initSchema calls)) (hsingle : call.SingleId)
    (hperform : perform (Run.after execute initSchema calls) call = some after)
    (hafter : Run.after execute initSchema (calls ++ [call]) = after) :
    StampedRun (calls ++ [call]) after := by
  rcases perform_eq_some_iff.mp hperform with ⟨-, rfl⟩ | ⟨-, written, -, hcommitted⟩
  · exact hbefore.mono [call]
  · have hwritten := hcommitted.writes.callWritten hsingle
    refine ⟨?_, ?_, fun row hrow => ?_⟩
    · rw [hcommitted.cards_eq]
      refine hwritten.cards.writtenAt hbefore.cards fun row hrow hfresh => ?_
      rw [← hcommitted.cards_eq] at hrow
      refine writtenAt_of_committed hafter hcommitted ?_ ⟨row, hrow, rfl⟩
      rintro ⟨old, hold, heq⟩
      exact hfresh old hold heq
    · rw [hcommitted.tags_eq]
      refine hwritten.tags.writtenAt hbefore.tags fun row hrow hfresh => ?_
      rw [← hcommitted.tags_eq] at hrow
      refine writtenAt_of_committed hafter hcommitted ?_ ⟨row, hrow, rfl⟩
      rintro ⟨old, hold, heq⟩
      exact hfresh old hold heq
    · have hmem := hrow
      rw [hcommitted.deleted_eq] at hmem
      obtain ⟨old, hold, heq⟩ := mem_stampDeletedAll.mp hmem
      rcases hwritten.deleted old hold with ⟨hkept, hid⟩ | ⟨-, hid, hfresh⟩
      · rw [if_neg hid] at heq
        exact heq ▸ (hbefore.deleted old hkept).mono
      · rw [if_pos hid] at heq
        subst heq
        apply writtenAt_of_committed hafter hcommitted (ne_true_of_eq_false hfresh)
        exact Store.isDeleted_iff.mpr ⟨_, hrow, rfl⟩

theorem stampedRun_run {calls : List Call} (hsingle : ∀ call ∈ calls, call.SingleId) :
    StampedRun calls (Run.after execute initSchema calls) := by
  induction calls using List.reverseRecOn with
  | nil =>
      exact ⟨fun row hrow => absurd hrow (Table.not_mem_empty row),
        fun row hrow => absurd hrow (Table.not_mem_empty row),
        fun row hrow => absurd hrow (Table.not_mem_empty row)⟩
  | append_singleton calls call ih =>
      have hbefore := ih fun other hother => hsingle other (List.mem_append_left _ hother)
      have hcall : call.SingleId :=
        hsingle call (List.mem_append_right _ (List.mem_singleton_self call))
      have hlast : Run.after execute initSchema (calls ++ [call]) =
          execute (Run.after execute initSchema calls) call := by
        rw [Run.after_append]
        rfl
      cases hperform : perform (Run.after execute initSchema calls) call with
      | none =>
          rw [hlast, execute, hperform, Option.getD_none]
          exact hbefore.mono [call]
      | some after =>
          have hafter : Run.after execute initSchema (calls ++ [call]) = after := by
            rw [hlast, execute, hperform, Option.getD_some]
          rw [hafter]
          exact hbefore.perform hcall hperform hafter

/-! ### The whole history -/

/-- The entries list every stored version and every tombstone once, under the sequence of the call that
wrote it, and name a version as created exactly when it is the first of its entity. -/
structure ListsOperations (calls : List Call) (store : Store) : Prop where
  listed : ((getSequenceHistory store none none).flatMap fun entry =>
      entry.operations.map fun operation => (entry.sequence.val, operation)).Perm
    ((store.cards.versions.rows.map fun row =>
        (row.rootSequenceAt, row.operation .cardCreated .cardUpdated)) ++
      (store.tags.versions.rows.map fun row =>
        (row.rootSequenceAt, row.operation .tagCreated .tagUpdated)) ++
      store.deletedEntities.rows.map fun row => (row.rootSequenceAt, row.operation))
  stamped : StampedRun calls store
  cardCreated : ∀ row ∈ store.cards.versions,
    (row.operation .cardCreated .cardUpdated).kind = .cardCreated ↔
      (store.cards.lineage row.entity.id).head? = some row.entity
  tagCreated : ∀ row ∈ store.tags.versions,
    (row.operation .tagCreated .tagUpdated).kind = .tagCreated ↔
      (store.tags.lineage row.entity.id).head? = some row.entity

omit [Blake3] in
/-- The counts of a line run from 1, so count 1 is that of its first version. -/
theorem Counted.count_eq_one_iff {E : Type} [Stored E] {tables : EntityTables E}
    (hcounted : Counted tables) {row : VersionRow E} (hrow : row ∈ tables.versions) :
    countOf row.entity = 1 ↔
      (tables.lineage (Entity.id row.entity)).head? = some row.entity := by
  have hmem : row.entity ∈ tables.lineage (Entity.id row.entity) :=
    EntityTables.mem_lineage.mpr ⟨row, hrow, rfl, rfl⟩
  have hcounts := hcounted (Entity.id row.entity)
  have hnodup := nodup_countOf_lineage tables (Entity.id row.entity)
  cases hline : tables.lineage (Entity.id row.entity) with
  | nil =>
      rw [hline] at hmem
      cases hmem
  | cons first rest =>
      rw [hline] at hmem hcounts hnodup
      have hfirst : countOf first = 1 := by
        rw [List.map_cons, List.length_cons, List.range'_succ] at hcounts
        exact (List.cons.inj hcounts).1
      rw [List.head?_cons, Option.some.injEq]
      constructor
      · intro hone
        exact List.inj_on_of_nodup_map hnodup List.mem_cons_self hmem (hfirst.trans hone.symm)
      · rintro rfl
        exact hfirst

omit [Blake3] in
theorem operation_created_iff {E : Type} [Stored E] {created updated : SequenceOperationKind}
    (hne : updated ≠ created) (row : VersionRow E) :
    (row.operation created updated).kind = created ↔ countOf row.entity = 1 := by
  unfold VersionRow.operation countOf
  by_cases hone : (Entity.count row.entity).val = 1
  · simp [hone]
  · simp [hone, hne]

theorem StampedRun.stampedOperations {calls : List Call} {store : Store}
    (h : StampedRun calls store) :
    store.stampedOperations =
      (store.cards.versions.rows.map fun row =>
          (row.rootSequenceAt, row.operation .cardCreated .cardUpdated)) ++
        (store.tags.versions.rows.map fun row =>
          (row.rootSequenceAt, row.operation .tagCreated .tagUpdated)) ++
        store.deletedEntities.rows.map fun row => (row.rootSequenceAt, row.operation) := by
  have hcards : store.cards.versions.rows.filter (fun row => row.rootSequenceAt > 0) =
      store.cards.versions.rows :=
    List.filter_eq_self.mpr fun row hrow => decide_eq_true (h.cards row hrow).bounds.1
  have htags : store.tags.versions.rows.filter (fun row => row.rootSequenceAt > 0) =
      store.tags.versions.rows :=
    List.filter_eq_self.mpr fun row hrow => decide_eq_true (h.tags row hrow).bounds.1
  have hdeleted : store.deletedEntities.rows.filter (fun row => row.rootSequenceAt > 0) =
      store.deletedEntities.rows :=
    List.filter_eq_self.mpr fun row hrow => decide_eq_true (h.deleted row hrow).bounds.1
  unfold Store.stampedOperations EntityTables.operations deletedOperations
  rw [hcards, htags, hdeleted]

/-- Every stamp is a sequence of the root history. -/
theorem StampedRun.stamp_mem {calls : List Call}
    (h : StampedRun calls (Run.after execute initSchema calls)) :
    ∀ operation ∈ (Run.after execute initSchema calls).stampedOperations,
      1 ≤ operation.1 ∧ operation.1 ≤
        (Run.after execute initSchema calls).rootState.sequence.val := by
  intro operation hoperation
  rw [h.stampedOperations] at hoperation
  rcases List.mem_append.mp hoperation with hversion | htombstone
  · rcases List.mem_append.mp hversion with hcard | htag
    · obtain ⟨row, hrow, rfl⟩ := List.mem_map.mp hcard
      exact (h.cards row hrow).bounds
    · obtain ⟨row, hrow, rfl⟩ := List.mem_map.mp htag
      exact (h.tags row hrow).bounds
  · obtain ⟨row, hrow, rfl⟩ := List.mem_map.mp htombstone
    exact (h.deleted row hrow).bounds

theorem listsOperations_run {calls : List Call} (hbuilt : ∀ call ∈ calls, call.Built)
    (hcounted : Run.Meets execute CountedCall initSchema calls) :
    ListsOperations calls (Run.after execute initSchema calls) := by
  obtain ⟨store, hstore⟩ : ∃ store, store = Run.after execute initSchema calls := ⟨_, rfl⟩
  have hsingle : ∀ call ∈ calls, call.SingleId :=
    fun call hcall item hitem => (hbuilt call hcall item hitem).singleId
  have hstamped := stampedRun_run hsingle
  have hcountedInv : CountedInvariant (Run.after execute initSchema calls) :=
    (hcounted.and (Run.meets_of_forall fun _ call => hsingle call)).invariant _
      countedInvariant_initSchema fun _ _ hinv hcall => hinv.execute hcall.1 hcall.2
  have hhistory : RootHistoryInvariant (Run.after execute initSchema calls) :=
    Run.invariant _ rootHistoryInvariant_initSchema (fun _ call hinv => hinv.execute call) calls
  have hmem := hstamped.stamp_mem
  rw [← hstore] at hstamped hcountedInv hhistory hmem ⊢
  refine ⟨?_, hstamped, fun row hrow => ?_, fun row hrow => ?_⟩
  · have hentries : getSequenceHistory store none none =
        store.rootHistory.rows.reverse.map store.entryOf := by
      rw [hhistory.getSequenceHistory, Paging.below_none]
      rfl
    have hkeys : (store.rootHistory.rows.reverse.map (·.sequence.val)) =
        (List.range' 1 store.rootState.sequence.val).reverse := by
      rw [List.map_reverse, hhistory.sequences]
    have hnodup : (store.rootHistory.rows.reverse.map (·.sequence.val)).Nodup := by
      rw [hkeys]
      exact List.nodup_reverse.mpr List.nodup_range'
    have hcovered : ∀ operation ∈ store.stampedOperations,
        operation.1 ∈ store.rootHistory.rows.reverse.map (·.sequence.val) := by
      intro operation hoperation
      have hbounds := hmem operation hoperation
      rw [hkeys, List.mem_reverse, List.mem_range'_1]
      omega
    have hgroups := (List.flatMap_filter_perm hnodup Prod.fst hcovered).map Prod.snd
    rw [List.map_map, List.map_flatMap] at hgroups
    have hall : store.stampedOperations.map (Prod.snd ∘ fun operation => (operation.1, operation)) =
        store.stampedOperations := List.map_id _
    -- under one sequence, the operations with their stamps are those that are stamped with it
    have hentry : ∀ sequence : Nat,
        ((store.stampedOperations.filter fun operation => operation.1 = sequence).map
            fun operation => (sequence, operation)).map Prod.snd =
          ((store.stampedOperations.filter fun operation => operation.1 = sequence).map
            Prod.snd).map fun operation => (sequence, operation) := by
      intro sequence
      rw [List.map_map, List.map_map]
      apply List.map_congr_left
      intro operation hoperation
      have hsequence := of_decide_eq_true (List.mem_filter.mp hoperation).2
      exact Prod.ext hsequence rfl
    rw [← hstamped.stampedOperations, hentries, List.flatMap_map]
    rw [hall, List.flatMap_map] at hgroups
    simp only [hentry] at hgroups
    exact hgroups
  · rw [operation_created_iff (by decide), hcountedInv.cards.count_eq_one_iff hrow]
    rfl
  · rw [operation_created_iff (by decide), hcountedInv.tags.count_eq_one_iff hrow]
    rfl

/-- After any calls, pages of any positive size give every sequence once, from the newest to the first.
If the chains are built and count on from the current versions, the entries list every stored version
and every tombstone once. -/
theorem sequenceHistory_run (calls : List Call) (size : Nat) (hsize : 1 ≤ size) :
    PagesExactly (Run.after execute initSchema calls) size ∧
      ((∀ call ∈ calls, call.Built) → Run.Meets execute CountedCall initSchema calls →
        ListsOperations calls (Run.after execute initSchema calls)) := by
  have hhistory : RootHistoryInvariant (Run.after execute initSchema calls) :=
    Run.invariant _ rootHistoryInvariant_initSchema (fun _ call hinv => hinv.execute call) calls
  exact ⟨hhistory.pagesExactly hsize, listsOperations_run⟩

end

def sampleHistory : List Call :=
  [⟨.pushCardVersions [sampleCard 1 ⟨0, zero_mem_i64⟩], 0⟩,
    ⟨.pushCardVersions [sampleCard 2 ⟨1, one_mem_i64⟩], 1⟩, ⟨.deleteCard 1, 2⟩]

theorem sampleHistory_built : ∀ call ∈ sampleHistory, @Call.Built polynomialBlake3 call := by
  have hpush : ∀ (id : Uuid) (priority : I64) (now : Int),
      @Call.Built polynomialBlake3 ⟨.pushCardVersions [sampleCard id priority], now⟩ := by
    intro id priority now item hitem
    obtain rfl := List.mem_singleton.mp hitem
    exact sampleCard_built id priority
  have hdelete : @Call.Built polynomialBlake3 ⟨.deleteCard 1, 2⟩ := by
    intro item hitem
    obtain rfl := List.mem_singleton.mp hitem
    trivial
  intro call hcall
  simp only [sampleHistory, List.mem_cons, List.not_mem_nil, or_false] at hcall
  rcases hcall with rfl | rfl | rfl
  · exact hpush 1 ⟨0, by decide⟩ 0
  · exact hpush 2 ⟨1, by decide⟩ 1
  · exact hdelete

theorem sequenceHistory_sample :
    let _ := polynomialBlake3
    PagesExactly (Run.after execute initSchema sampleHistory) 2 ∧
      ListsOperations sampleHistory (Run.after execute initSchema sampleHistory) := by
  have hrun := @sequenceHistory_run polynomialBlake3 sampleHistory 2 (by decide)
  exact ⟨hrun.1, hrun.2 sampleHistory_built (by decide +kernel)⟩

end BlazeList
