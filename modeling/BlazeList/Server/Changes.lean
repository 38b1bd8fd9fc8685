import BlazeList.Protocol.Chain
import BlazeList.Server.Reads

/-!
# What a sync request finds

How the tables stand to the same tables at an earlier point of the run: a row that carries no stamp from
after that point was there already, and an id that was live is live still or has been buried since.
-/

namespace BlazeList

/-! ### Tracking a pair of tables -/

/-- A row counts as changed when its id is about to be stamped, or its stamp is later than `since`. -/
def Marked (ids : List Uuid) (since : Nat) (id : Uuid) (stamp : Nat) : Prop :=
  id ∈ ids ∨ since < stamp

section Tables

variable {E : Type} [Stored E]

structure Tracked (ids deletedIds : List Uuid) (since : Nat) (before after : EntityTables E)
    (deletedEntities : Table deletedConflict) : Prop where
  unmarked : ∀ row ∈ after.live,
    Marked ids since (Entity.id row.entity) row.rootSequenceAt ∨ row ∈ before.live
  kept : ∀ row ∈ before.live,
    (∃ new ∈ after.live, Entity.id new.entity = Entity.id row.entity) ∨
      ∃ buried ∈ deletedEntities, buried.entity.id = Entity.id row.entity ∧
        Marked deletedIds since buried.entity.id buried.rootSequenceAt

variable {ids deletedIds : List Uuid} {since : Nat} {base before after : EntityTables E}
  {deletedEntities : Table deletedConflict} {id : Uuid}

theorem Tracked.refl (tables : EntityTables E) :
    Tracked [] [] since tables tables deletedEntities where
  unmarked _ hrow := .inr hrow
  kept row hrow := .inl ⟨row, hrow, rfl⟩

/-- A call may stamp more ids than are marked so far. -/
theorem Tracked.widen (h : Tracked [] [] since base after deletedEntities)
    (ids deletedIds : List Uuid) : Tracked ids deletedIds since base after deletedEntities where
  unmarked row hrow := (h.unmarked row hrow).imp_left fun hmarked => .inr (by simpa [Marked] using hmarked)
  kept row hrow := by
    apply (h.kept row hrow).imp_right
    rintro ⟨buried, hburied, hid, hmarked⟩
    exact ⟨buried, hburied, hid, .inr (by simpa [Marked] using hmarked)⟩

theorem Tracked.pushed [Blake3] (h : Tracked ids deletedIds since base before deletedEntities)
    {store : Store} {versions : List E} {first latest : E}
    (hpushed : Pushed store before versions first latest after) (hlatest : Entity.id latest ∈ ids) :
    Tracked ids deletedIds since base after deletedEntities where
  unmarked row hrow := by
    rcases hpushed.mem_live.mp hrow with ⟨hold, -⟩ | rfl
    · exact h.unmarked row hold
    · exact .inl (.inl hlatest)
  kept row hrow := by
    apply (h.kept row hrow).imp_left
    rintro ⟨new, hnew, hid⟩
    by_cases hreplaced : Entity.id new.entity = Entity.id latest
    · exact ⟨_, hpushed.mem_live.mpr (.inr rfl), hreplaced.symm.trans hid⟩
    · exact ⟨new, hpushed.mem_live.mpr (.inl ⟨hnew, hreplaced⟩), hid⟩

theorem mem_buryRow {deleted : DeletedEntity} {row : DeletedRow} :
    row ∈ buryRow deletedEntities deleted ↔
      row ∈ deletedEntities ∧ row.entity.id ≠ deleted.id ∨ row = ⟨deleted, 0, bucketOf deleted.id⟩ := by
  rw [buryRow, Table.mem_replace]
  rfl

variable [Blake3]

/-- A deletion elsewhere only adds a tombstone. -/
theorem Tracked.buried (h : Tracked ids deletedIds since base after deletedEntities)
    (hid : id ∈ deletedIds) :
    Tracked ids deletedIds since base after (buryRow deletedEntities (DeletedEntity.new id)) where
  unmarked := h.unmarked
  kept row hrow := by
    apply (h.kept row hrow).imp_right
    rintro ⟨buried, hburied, hrowId, hmarked⟩
    by_cases hsame : buried.entity.id = id
    · exact ⟨_, mem_buryRow.mpr (.inr rfl), hsame.symm.trans hrowId, .inl hid⟩
    · exact ⟨buried, mem_buryRow.mpr (.inl ⟨hburied, hsame⟩), hrowId, hmarked⟩

theorem Tracked.removed (h : Tracked ids deletedIds since base before deletedEntities)
    (hid : id ∈ deletedIds) :
    Tracked ids deletedIds since base (before.remove id)
      (buryRow deletedEntities (DeletedEntity.new id)) where
  unmarked row hrow := h.unmarked row (EntityTables.mem_live_remove.mp hrow).1
  kept row hrow := by
    by_cases hremoved : Entity.id row.entity = id
    · exact .inr ⟨_, mem_buryRow.mpr (.inr rfl), hremoved.symm, .inl hid⟩
    · apply ((h.buried hid).kept row hrow).imp_left
      rintro ⟨new, hnew, hnewId⟩
      exact ⟨new, EntityTables.mem_live_remove.mpr ⟨hnew, fun heq => hremoved (hnewId.symm.trans heq)⟩,
        hnewId⟩

omit [Blake3] in
/-- The commit turns the marked ids into stamps. -/
theorem Tracked.committed (h : Tracked ids deletedIds since base before deletedEntities)
    {sequence : Nat} (hsequence : since < sequence) :
    Tracked [] [] since base (before.stampAll ids sequence)
      (stampDeletedAll deletedEntities deletedIds sequence) where
  unmarked row hrow := by
    obtain ⟨old, hold, rfl⟩ := EntityTables.mem_live_stampAll.mp hrow
    split
    · exact .inl (.inr hsequence)
    · rename_i hfresh
      exact (h.unmarked old hold).imp_left fun hmarked => .inr (hmarked.resolve_left hfresh)
  kept row hrow := by
    apply (h.kept row hrow).imp
    · rintro ⟨new, hnew, hid⟩
      refine ⟨_, EntityTables.mem_live_stampAll.mpr ⟨new, hnew, rfl⟩, ?_⟩
      split <;> exact hid
    · rintro ⟨buried, hburied, hid, hmarked⟩
      refine ⟨_, mem_stampDeletedAll.mpr ⟨buried, hburied, rfl⟩, ?_⟩
      split
      · exact ⟨hid, .inr hsequence⟩
      · rename_i hfresh
        exact ⟨hid, .inr (hmarked.resolve_left hfresh)⟩

end Tables

/-! ### Tracking a store -/

structure StoreTracked (affected : Affected) (since : Nat) (base after : Store) : Prop where
  cards : Tracked affected.cardIds affected.deletedIds since base.cards after.cards
    after.deletedEntities
  tags : Tracked affected.tagIds affected.deletedIds since base.tags after.tags
    after.deletedEntities

variable [Blake3]

theorem StoreTracked.pushItem {affected : Affected} {since : Nat} {base store after : Store}
    {item : PushItem} (h : StoreTracked affected since base store) (hsingle : item.SingleId)
    (hcards : ∀ id ∈ (Affected.empty.add item).cardIds, id ∈ affected.cardIds)
    (htags : ∀ id ∈ (Affected.empty.add item).tagIds, id ∈ affected.tagIds)
    (hdeleted : ∀ id ∈ (Affected.empty.add item).deletedIds, id ∈ affected.deletedIds)
    (hpush : pushItem store item = .ok after) : StoreTracked affected since base after := by
  rcases pushItem_cases hpush with ⟨_, _, first, latest, rfl, hpushed, rfl⟩ |
    ⟨_, _, first, latest, rfl, hpushed, rfl⟩ | ⟨id, rfl, -, -, rfl⟩ | ⟨id, rfl, -, -, -, -, rfl⟩
  · have hid : latest.id = first.id := hsingle latest hpushed.latest_mem first hpushed.first_mem
    refine ⟨h.cards.pushed hpushed (hcards latest.id ?_), h.tags⟩
    simp [Affected.add, Affected.empty, hpushed.head, hid]
  · have hid : latest.id = first.id := hsingle latest hpushed.latest_mem first hpushed.first_mem
    refine ⟨h.cards, h.tags.pushed hpushed (htags latest.id ?_)⟩
    simp [Affected.add, Affected.empty, hpushed.head, hid]
  · have hid : id ∈ affected.deletedIds := hdeleted id (by simp [Affected.add, Affected.empty])
    exact ⟨h.cards.removed hid, h.tags.buried hid⟩
  · have hid : id ∈ affected.deletedIds := hdeleted id (by simp [Affected.add, Affected.empty])
    exact ⟨h.cards.buried hid, h.tags.removed hid⟩

theorem StoreTracked.committed {since : Nat} {base store written after : Store}
    {items : List PushItem} {now : Int} (h : StoreTracked .empty since base store)
    (hsince : since ≤ store.rootState.sequence.val) (hsingle : ∀ item ∈ items, item.SingleId)
    (hcommitted : Committed store items now written after) :
    StoreTracked .empty since base after := by
  have hwritten : StoreTracked (affectedOf items) since base written := by
    refine hcommitted.writes.preserves (StoreTracked (affectedOf items) since base)
      ⟨h.cards.widen _ _, h.tags.widen _ _⟩ fun before item after hitem hbefore hpush => ?_
    refine hbefore.pushItem (hsingle item hitem) ?_ ?_ ?_ hpush
    all_goals
      intro id hid
      rw [affectedOf_eq]
      exact List.mem_flatMap.mpr ⟨item, hitem, hid⟩
  have hsequence : since < after.rootState.sequence.val := by
    rw [hcommitted.sequence]
    omega
  constructor
  · rw [hcommitted.cards_eq, hcommitted.deleted_eq]
    exact hwritten.cards.committed hsequence
  · rw [hcommitted.tags_eq, hcommitted.deleted_eq]
    exact hwritten.tags.committed hsequence

theorem StoreTracked.execute {since : Nat} {base store : Store} {call : Call}
    (h : StoreTracked .empty since base store) (hsince : since ≤ store.rootState.sequence.val)
    (hsingle : (perform store call).isSome → call.SingleId) :
    StoreTracked .empty since base (execute store call) := by
  obtain heq | ⟨hsome, written, hcommitted⟩ := execute_cases store call
  · rw [heq]
    exact h
  · exact h.committed hsince (hsingle hsome) hcommitted

/-! ### Ids of cards and ids of tags -/

def PushItem.cardIds : PushItem → List Uuid
  | .cards versions => versions.map Card.id
  | .tags _ | .deleteCard _ | .deleteTag _ => []

def PushItem.tagIds : PushItem → List Uuid
  | .tags versions => versions.map Tag.id
  | .cards _ | .deleteCard _ | .deleteTag _ => []

/-- Each chain carries one id, which is the id of a card for a chain of cards only. -/
def PushItem.Apart (isCard : Uuid → Prop) (item : PushItem) : Prop :=
  item.SingleId ∧ (∀ id ∈ item.cardIds, isCard id) ∧ ∀ id ∈ item.tagIds, ¬ isCard id

instance (isCard : Uuid → Prop) [DecidablePred isCard] (item : PushItem) :
    Decidable (item.Apart isCard) :=
  decidable_of_iff
    (item.SingleId ∧ item.cardIds.all (isCard ·) = true ∧ item.tagIds.all (! isCard ·) = true)
    (by simp [PushItem.Apart])

def AcceptsApart (isCard : Uuid → Prop) (store : Store) (call : Call) : Prop :=
  (perform store call).isSome → ∀ item ∈ call.mutation.items, item.Apart isCard

instance (isCard : Uuid → Prop) [DecidablePred isCard] (store : Store) (call : Call) :
    Decidable (AcceptsApart isCard store call) :=
  inferInstanceAs (Decidable (_ → ∀ item ∈ call.mutation.items, item.Apart isCard))

/-- The ids of cards and tags are kept apart, and what is buried is not live. -/
structure ApartInvariant (isCard : Uuid → Prop) (store : Store) : Prop where
  cards : StoredAll (fun card => isCard card.id) store.cards
  tags : StoredAll (fun tag => ¬ isCard tag.id) store.tags
  buried : ∀ row ∈ store.deletedEntities,
    store.cards.current row.entity.id = none ∧ store.tags.current row.entity.id = none

omit [Blake3] in
theorem apartInvariant_initSchema (isCard : Uuid → Prop) : ApartInvariant isCard initSchema where
  cards := .empty
  tags := .empty
  buried row hrow := absurd hrow (Table.not_mem_empty row)

theorem Pushed.current_eq_none {E : Type} [Stored E] {store : Store}
    {before after : EntityTables E} {versions : List E} {first latest : E} {id : Uuid}
    (h : Pushed store before versions first latest after)
    (hlatest : Entity.id latest = Entity.id first) (hnone : before.current id = none)
    (hburied : store.isDeleted id = true) : after.current id = none := by
  rw [h.current, Function.update_of_ne, hnone]
  rintro rfl
  rw [hlatest, h.notDeleted] at hburied
  exact Bool.false_ne_true hburied

theorem ApartInvariant.pushItem {isCard : Uuid → Prop} {store after : Store} {item : PushItem}
    (hinv : ApartInvariant isCard store) (hitem : item.Apart isCard)
    (h : pushItem store item = .ok after) : ApartInvariant isCard after := by
  obtain ⟨hsingle, hcards, htags⟩ := hitem
  rcases pushItem_cases h with ⟨versions, _, first, latest, rfl, hpushed, rfl⟩ |
    ⟨versions, _, first, latest, rfl, hpushed, rfl⟩ | ⟨id, rfl, -, ⟨live, hlive, rfl⟩, rfl⟩ |
    ⟨id, rfl, -, ⟨live, hlive, rfl⟩, -, -, rfl⟩
  · refine ⟨hpushed.storedAll hinv.cards fun v hv => hcards v.id (List.mem_map_of_mem hv),
      hinv.tags, fun row hrow => ⟨?_, (hinv.buried row hrow).2⟩⟩
    exact hpushed.current_eq_none (hsingle latest hpushed.latest_mem first hpushed.first_mem)
      (hinv.buried row hrow).1 (Store.isDeleted_iff.mpr ⟨row, hrow, rfl⟩)
  · refine ⟨hinv.cards, hpushed.storedAll hinv.tags fun v hv => htags v.id (List.mem_map_of_mem hv),
      fun row hrow => ⟨(hinv.buried row hrow).1, ?_⟩⟩
    exact hpushed.current_eq_none (hsingle latest hpushed.latest_mem first hpushed.first_mem)
      (hinv.buried row hrow).2 (Store.isDeleted_iff.mpr ⟨row, hrow, rfl⟩)
  · refine ⟨hinv.cards.remove _, hinv.tags, fun row hrow => ?_⟩
    rw [EntityTables.current_remove]
    rcases mem_buryRow.mp hrow with ⟨hold, hne⟩ | rfl
    · exact ⟨(Function.update_of_ne hne _ _).trans (hinv.buried row hold).1,
        (hinv.buried row hold).2⟩
    · refine ⟨Function.update_self _ _ _, EntityTables.current_eq_none_iff.mpr fun tag htag heq => ?_⟩
      apply hinv.tags.live tag htag
      rw [← Tag.entity_id, heq]
      exact hinv.cards.live live hlive
  · refine ⟨hinv.cards, hinv.tags.remove _, fun row hrow => ?_⟩
    rw [EntityTables.current_remove]
    rcases mem_buryRow.mp hrow with ⟨hold, hne⟩ | rfl
    · exact ⟨(hinv.buried row hold).1,
        (Function.update_of_ne hne _ _).trans (hinv.buried row hold).2⟩
    · refine ⟨EntityTables.current_eq_none_iff.mpr fun card hcard heq => ?_, Function.update_self _ _ _⟩
      apply hinv.tags.live live hlive
      have hcardId : isCard (Entity.id card.entity) := hinv.cards.live card hcard
      rw [heq] at hcardId
      exact hcardId

theorem ApartInvariant.execute {isCard : Uuid → Prop} {store : Store} {call : Call}
    (hinv : ApartInvariant isCard store) (hcall : AcceptsApart isCard store call) :
    ApartInvariant isCard (execute store call) := by
  by_cases haccepted : (perform store call).isSome
  · refine execute_preserves (ApartInvariant isCard) hinv
      (fun _ item _ hitem hbefore => hbefore.pushItem (hcall haccepted item hitem))
      fun written after hcommitted hwritten => ⟨?_, ?_, fun row hrow => ?_⟩
    · rw [hcommitted.cards_eq]
      exact hwritten.cards.stampAll _ _
    · rw [hcommitted.tags_eq]
      exact hwritten.tags.stampAll _ _
    · rw [hcommitted.deleted_eq] at hrow
      obtain ⟨old, hold, rfl⟩ := mem_stampDeletedAll.mp hrow
      rw [hcommitted.cards_eq, hcommitted.tags_eq, EntityTables.current_stampAll,
        EntityTables.current_stampAll]
      split <;> exact hwritten.buried old hold
  · rw [BlazeList.execute, Option.not_isSome_iff_eq_none.mp haccepted]
    exact hinv

/-! ### Along a run -/

/-- A point of a run is tracked to the end of the run. -/
theorem storeTracked_run {isCard : Uuid → Prop} {store : Store} {calls : List Call}
    (hmeets : Run.Meets execute (AcceptsApart isCard) store calls) :
    StoreTracked .empty store.rootState.sequence.val store (Run.after execute store calls) := by
  refine (hmeets.invariant (fun state => store.rootState.sequence.val ≤ state.rootState.sequence.val ∧
    StoreTracked .empty store.rootState.sequence.val store state)
    ⟨le_rfl, .refl _, .refl _⟩ fun state call hinv hcall => ⟨?_, ?_⟩).2
  · rw [execute_sequence]
    exact hinv.1.trans (Nat.le_add_right _ _)
  · exact hinv.2.execute hinv.1 fun haccepted item hitem => (hcall haccepted item hitem).1

theorem apartInvariant_run {isCard : Uuid → Prop} {calls : List Call}
    (hmeets : Run.Meets execute (AcceptsApart isCard) initSchema calls) :
    ApartInvariant isCard (Run.after execute initSchema calls) :=
  hmeets.invariant _ (apartInvariant_initSchema isCard) fun _ _ hinv => hinv.execute

/-- A call that leaves the sequence where it was changed nothing. -/
theorem execute_eq_self {store : Store} {call : Call}
    (h : (execute store call).rootState.sequence.val ≤ store.rootState.sequence.val) :
    execute store call = store := by
  rw [execute_sequence] at h
  unfold execute
  cases hperform : perform store call with
  | none => rfl
  | some after =>
      rcases perform_eq_some_iff.mp hperform with ⟨-, rfl⟩ | ⟨hitems, -⟩
      · rfl
      · simp [hperform, hitems] at h

theorem after_eq_self {store : Store} {calls : List Call}
    (h : (Run.after execute store calls).rootState.sequence.val ≤ store.rootState.sequence.val) :
    Run.after execute store calls = store := by
  induction calls with
  | nil => rfl
  | cons call rest ih =>
      have hfirst : execute store call = store :=
        execute_eq_self ((sequence_mono (execute store call) rest).trans h)
      rw [Run.after_cons, hfirst] at h ⊢
      exact ih h

/-- Of two points of a run, the one with the smaller sequence is tracked to the other. -/
theorem storeTracked_of_le {isCard : Uuid → Prop} {calls earlier later : List Call}
    (hmeets : Run.Meets execute (AcceptsApart isCard) initSchema calls) (hearlier : earlier <+: calls)
    (hlater : later <+: calls)
    (hle : (Run.after execute initSchema earlier).rootState.sequence.val ≤
      (Run.after execute initSchema later).rootState.sequence.val) :
    StoreTracked .empty (Run.after execute initSchema earlier).rootState.sequence.val
      (Run.after execute initSchema earlier) (Run.after execute initSchema later) := by
  rcases List.prefix_or_prefix_of_prefix hearlier hlater with ⟨between, rfl⟩ | ⟨between, rfl⟩
  · obtain ⟨rest, rfl⟩ := hlater
    rw [Run.after_append]
    exact storeTracked_run (Run.meets_append.mp (Run.meets_append.mp hmeets).1).2
  · rw [Run.after_append] at hle ⊢
    rw [after_eq_self hle]
    exact ⟨.refl _, .refl _⟩

theorem mem_rootHistory_execute {store : Store} {row : HistoryRow} (hrow : row ∈ store.rootHistory)
    (call : Call) : row ∈ (execute store call).rootHistory := by
  obtain heq | ⟨-, written, hcommitted⟩ := execute_cases store call
  · rw [heq]
    exact hrow
  · rw [Table.mem_def, hcommitted.history]
    exact List.mem_append_left _ hrow

/-- The history of a later store records the root of an earlier one. -/
theorem hash_of_mem_rootHistory {earlier later : List Call} {row : HistoryRow} :
    let store := Run.after execute initSchema earlier
    row ∈ (Run.after execute store later).rootHistory → row.sequence = store.rootState.sequence →
      row.hash = store.rootState.hash := by
  intro store hrow hsequence
  have hhistory : RootHistoryInvariant store :=
    Run.invariant _ rootHistoryInvariant_initSchema (fun _ call hinv => hinv.execute call) earlier
  have hcurrent : RootHistoryInvariant (Run.after execute store later) :=
    Run.invariant _ hhistory (fun _ call hinv => hinv.execute call) later
  -- the history is numbered from 1, so the earlier one is not empty
  have hpositive : 1 ≤ store.rootState.sequence.val := by
    have hmem := List.mem_map_of_mem (f := fun row : HistoryRow => row.sequence.val) hrow
    rw [hcurrent.sequences, hsequence] at hmem
    exact (List.mem_range'_1.mp hmem).1
  have hlength := congrArg List.length hhistory.sequences
  rw [List.length_map, List.length_range'] at hlength
  have hne : store.rootHistory.rows ≠ [] := List.ne_nil_of_length_pos (by omega)
  obtain ⟨hlastSequence, hlastHash⟩ :=
    hhistory.last _ (List.getLast?_eq_some_getLast hne)
  have hkept : store.rootHistory.rows.getLast hne ∈ (Run.after execute store later).rootHistory :=
    Run.invariant (fun state : Store => store.rootHistory.rows.getLast hne ∈ state.rootHistory)
      (List.getLast_mem hne) (fun _ call hinv => mem_rootHistory_execute hinv call) later
  rw [Table.eq_of_conflict hrow hkept (hsequence.trans hlastSequence.symm), hlastHash]

/-- A client that was in step with the server at an earlier point of the run passes the check. -/
theorem getChangesSince_later (earlier later : List Call) :
    let store := Run.after execute initSchema earlier
    getChangesSince (Run.after execute store later) store.rootState.sequence store.rootState.hash =
      changesSince (Run.after execute store later) store.rootState.sequence.val := by
  intro store
  unfold getChangesSince
  split
  · rename_i row hfind
    have hsequence : row.sequence = store.rootState.sequence := by
      simpa using List.find?_some hfind
    rw [if_pos (hash_of_mem_rootHistory (List.mem_of_find?_eq_some hfind) hsequence)]
  · rfl

/-! ### Built chains are stored as they read back -/

theorem PushItem.Built.singleId {item : PushItem} (hbuilt : item.Built) : item.SingleId := by
  cases item with
  | cards versions => exact key_eq_of_isChain hbuilt.2 fun _ _ => Card.Next.id_eq
  | tags versions => exact key_eq_of_isChain hbuilt.2 fun _ _ => Tag.Next.id_eq
  | deleteCard id => trivial
  | deleteTag id => trivial

def ReadsBack {E : Type} [Stored E] (entity : E) : Prop := Stored.fromRow entity = .ok entity

theorem fromRows_of_readsBack {E : Type} [Stored E] {rows : List E}
    (h : ∀ row ∈ rows, ReadsBack row) : fromRows rows = .ok rows := by
  refine Except.mapM_eq_ok_iff.mpr (List.forall₂_same.mpr fun row hrow => ?_)
  exact Except.mapError_eq_ok_iff.mpr (h row hrow)

theorem fromRows_entities {E : Type} [Stored E] {tables : EntityTables E}
    (h : StoredAll ReadsBack tables) : fromRows tables.entities = .ok tables.entities := by
  refine fromRows_of_readsBack fun entity hentity => ?_
  obtain ⟨row, hrow, rfl⟩ := List.mem_map.mp hentity
  exact h.live row hrow

structure ReadsBackInvariant (store : Store) : Prop where
  cards : StoredAll ReadsBack store.cards
  tags : StoredAll ReadsBack store.tags

theorem readsBackInvariant_initSchema : ReadsBackInvariant initSchema := ⟨.empty, .empty⟩

theorem ReadsBackInvariant.pushItem {store after : Store} {item : PushItem}
    (hinv : ReadsBackInvariant store) (hbuilt : item.Built) (h : pushItem store item = .ok after) :
    ReadsBackInvariant after := by
  rcases pushItem_cases h with ⟨_, _, _, _, rfl, hpushed, rfl⟩ | ⟨_, _, _, _, rfl, hpushed, rfl⟩ |
    ⟨_, rfl, -, -, rfl⟩ | ⟨_, rfl, -, -, -, -, rfl⟩
  · refine ⟨hpushed.storedAll hinv.cards fun v hv => ?_, hinv.tags⟩
    exact cardFromRow_eq_ok_iff.mpr ⟨hpushed.verified v hv, rfl⟩
  · refine ⟨hinv.cards, hpushed.storedAll hinv.tags fun v hv => ?_⟩
    refine tagFromRow_eq_ok_iff.mpr ⟨hpushed.verified v hv, ?_⟩
    rw [normalized_of_chain hbuilt.1 hbuilt.2 v hv]
  · exact ⟨hinv.cards.remove _, hinv.tags⟩
  · exact ⟨hinv.cards, hinv.tags.remove _⟩

def Call.Built (call : Call) : Prop := ∀ item ∈ call.mutation.items, item.Built

theorem ReadsBackInvariant.execute {store : Store} {call : Call} (hinv : ReadsBackInvariant store)
    (hbuilt : call.Built) : ReadsBackInvariant (execute store call) := by
  refine execute_preserves ReadsBackInvariant hinv
    (fun _ item _ hitem hbefore => hbefore.pushItem (hbuilt item hitem))
    fun written after hcommitted hwritten => ⟨?_, ?_⟩
  · rw [hcommitted.cards_eq]
    exact hwritten.cards.stampAll _ _
  · rw [hcommitted.tags_eq]
    exact hwritten.tags.stampAll _ _

def pushedCardIds (calls : List Call) : List Uuid :=
  calls.flatMap fun call => call.mutation.items.flatMap PushItem.cardIds

def pushedTagIds (calls : List Call) : List Uuid :=
  calls.flatMap fun call => call.mutation.items.flatMap PushItem.tagIds

/-- All chains are built, and no id is used for a card and for a tag. -/
structure BuiltRun (calls : List Call) : Prop where
  built : ∀ call ∈ calls, call.Built
  disjoint : ∀ id ∈ pushedCardIds calls, id ∉ pushedTagIds calls

theorem BuiltRun.acceptsApart {calls : List Call} (hrun : BuiltRun calls) (store : Store) :
    Run.Meets execute (AcceptsApart (· ∈ pushedCardIds calls)) store calls := by
  refine Run.meets_of_forall fun state call hcall _ item hitem => ⟨?_, ?_, ?_⟩
  · exact (hrun.built call hcall item hitem).singleId
  · intro id hid
    exact List.mem_flatMap.mpr ⟨call, hcall, List.mem_flatMap.mpr ⟨item, hitem, hid⟩⟩
  · intro id hid hcard
    exact hrun.disjoint id hcard
      (List.mem_flatMap.mpr ⟨call, hcall, List.mem_flatMap.mpr ⟨item, hitem, hid⟩⟩)

theorem BuiltRun.readsBackInvariant {calls : List Call} (hrun : BuiltRun calls) :
    ReadsBackInvariant (Run.after execute initSchema calls) := by
  have hmeets : Run.Meets execute (fun _ call => call.Built) initSchema calls :=
    Run.meets_of_forall fun _ => hrun.built
  exact hmeets.invariant _ readsBackInvariant_initSchema fun _ _ hinv => hinv.execute

end BlazeList
