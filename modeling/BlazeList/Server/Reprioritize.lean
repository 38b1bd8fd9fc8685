import BlazeList.Lib.Reassign
import BlazeList.Server.Changes
import BlazeList.Server.Closure
import BlazeList.Server.History
import BlazeList.Server.RootHistory

/-!
# Batches of single versions

A client that gives new priorities to several cards pushes one version of each, one item a card. On a
sound store every check of such a push passes but the one for a duplicate priority, which is made
against what the items before it have left.
-/

namespace BlazeList

/-! ### Sound stores -/

/-- What the checks of a push rely on, apart from room for one more sequence. -/
structure SoundStore (store : Store) : Prop where
  implications : ImplicationInvariant store
  rootHistory : RootHistoryInvariant store
  notDeleted : ∀ row ∈ store.cards.live, store.isDeleted row.entity.id = false
  newest : ∀ row ∈ store.cards.live, ∀ version ∈ store.cards.versions,
    version.entity.id = row.entity.id → version.entity.count.val ≤ row.entity.count.val

structure Continues [Blake3] (store : Store) (card : Card) : Prop where
  verified : Entity.verify card = true
  notDeleted : store.isDeleted card.id = false
  ancestor : card.ancestorHash = ((store.cards.current card.id).map Card.hash).getD zeroHash
  fresh : ∀ row ∈ store.cards.versions, row.entity.id = card.id → row.entity.count ≠ card.count
  closed : ∀ tag ∈ card.tags, ∀ parent,
    Relation.ReflTransGen (ImpliesEdge store) tag parent → parent ∈ card.tags

def Store.priorities (store : Store) (id : Uuid) : Option I64 :=
  (store.cards.current id).map Card.priority

def singles (cards : List Card) : List PushItem := cards.map fun card => .cards [card]

def priorityWrites (cards : List Card) : List (Uuid × I64) :=
  cards.map fun card => (card.id, card.priority)

variable [Blake3] {store after : Store} {card : Card}

/-! ### One version -/

theorem pushSingle_eq_ok_iff :
    pushItem store (.cards [card]) = .ok after ↔
      ∃ cards, Pushed store store.cards [card] card card cards ∧ after = { store with cards } := by
  refine pushCardVersionsInner_eq_ok_iff.trans ⟨?_, ?_⟩
  · rintro ⟨cards, first, latest, hpushed, rfl⟩
    obtain rfl : card = first := Option.some.inj hpushed.head
    obtain rfl : card = latest := Option.some.inj hpushed.last
    exact ⟨cards, hpushed, rfl⟩
  · rintro ⟨cards, hpushed, rfl⟩
    exact ⟨cards, card, card, hpushed, rfl⟩

omit [Blake3] in
theorem free_priorities_iff :
    Reassign.Free store.priorities (card.id, card.priority) ↔
      ∀ row ∈ store.cards.live, row.entity.priority = card.priority → row.entity.id = card.id := by
  constructor
  · intro hfree row hrow hpriority
    by_contra hne
    apply hfree row.entity.id hne
    rw [Store.priorities, ← Card.entity_id, EntityTables.current_of_mem hrow]
    exact congrArg some hpriority
  · intro hrows key hne hsome
    obtain ⟨other, hother, hpriority⟩ := Option.map_eq_some_iff.mp hsome
    obtain ⟨row, hrow, rfl, hid⟩ := EntityTables.current_eq_some_iff.mp hother
    exact hne (hid.symm.trans (hrows row hrow hpriority))

theorem Continues.exists_pushItem_iff (hcard : Continues store card) :
    (∃ after, pushItem store (.cards [card]) = .ok after) ↔
      Reassign.Free store.priorities (card.id, card.priority) := by
  rw [free_priorities_iff]
  constructor
  · rintro ⟨after, h⟩ row hrow hpriority
    obtain ⟨cards, hpushed, -⟩ := pushSingle_eq_ok_iff.mp h
    exact hpushed.unclashed row hrow hpriority
  · intro hfree
    obtain ⟨versions, hversions⟩ : ∃ versions, store.cards.versions.insert? ⟨card, 0⟩ = some versions := by
      apply Option.ne_none_iff_exists'.mp
      intro hnone
      obtain ⟨row, hrow, hid, hcount⟩ := Table.insert?_eq_none_iff.mp hnone
      exact hcard.fresh row hrow hid hcount
    refine ⟨_, pushSingle_eq_ok_iff.mpr
      ⟨⟨store.cards.live.replace ⟨card, 0, bucketOf card.id⟩, versions⟩, ?_, rfl⟩⟩
    exact
      { head := rfl
        last := rfl
        verified := fun v hv => (List.mem_singleton.mp hv) ▸ hcard.verified
        notDeleted := hcard.notDeleted
        ancestor := hcard.ancestor
        linked := List.isChain_singleton card
        unclashed := fun row hrow hclash => hfree row hrow hclash
        versions_rows := (Table.insert?_eq_some_iff.mp hversions).2
        live_eq := rfl }

theorem priorities_pushItem (h : pushItem store (.cards [card]) = .ok after) :
    after.priorities = Function.update store.priorities card.id (some card.priority) := by
  obtain ⟨cards, hpushed, rfl⟩ := pushSingle_eq_ok_iff.mp h
  funext id
  unfold Store.priorities
  dsimp only
  rw [hpushed.current, Card.entity_id]
  by_cases hid : id = card.id
  · rw [hid, Function.update_self, Function.update_self]
    rfl
  · rw [Function.update_of_ne hid, Function.update_of_ne hid]

/-- The other items of the batch are as acceptable as before. -/
theorem Continues.pushItem {other : Card} (hother : Continues store other)
    (h : pushItem store (.cards [card]) = .ok after) (hne : other.id ≠ card.id) :
    Continues after other := by
  obtain ⟨cards, hpushed, rfl⟩ := pushSingle_eq_ok_iff.mp h
  refine ⟨hother.verified, hother.notDeleted, ?_, fun row hrow hid => ?_, hother.closed⟩
  · dsimp only
    rw [hpushed.current, Card.entity_id, Function.update_of_ne hne]
    exact hother.ancestor
  · rcases hpushed.mem_versions.mp hrow with hold | ⟨v, hv, rfl⟩
    · exact hother.fresh row hold hid
    · obtain rfl := List.mem_singleton.mp hv
      exact absurd hid.symm hne

theorem ImplicationInvariant.pushSingle (hinv : ImplicationInvariant store)
    (hcard : Continues store card) (h : BlazeList.pushItem store (.cards [card]) = .ok after) :
    ImplicationInvariant after := by
  obtain ⟨cards, hpushed, rfl⟩ := pushSingle_eq_ok_iff.mp h
  refine ⟨hinv.parent_live, hinv.acyclic, fun row hrow => ?_⟩
  rcases hpushed.mem_live.mp hrow with ⟨hold, -⟩ | rfl
  · exact hinv.card_closed row hold
  · exact hcard.closed

/-! ### A batch -/

/-- The items go through when the priorities do. -/
theorem exists_writes_iff {cards : List Card} (hcards : ∀ card ∈ cards, Continues store card)
    (hnodup : (cards.map Card.id).Nodup) :
    (∃ written, Writes store (singles cards) written) ↔
      Reassign.Clear store.priorities (priorityWrites cards) := by
  induction cards generalizing store with
  | nil => simp [singles, priorityWrites, writes_nil, Reassign.Clear]
  | cons card rest ih =>
      obtain ⟨hfresh, hrest⟩ := List.nodup_cons.mp hnodup
      have hnext : ∀ next, pushItem store (.cards [card]) = .ok next →
          ((∃ written, Writes next (singles rest) written) ↔
            Reassign.Clear (Function.update store.priorities card.id (some card.priority))
              (priorityWrites rest)) := by
        intro next hpush
        rw [← priorities_pushItem hpush]
        refine ih (fun other hother => ?_) hrest
        refine (hcards other (List.mem_cons_of_mem card hother)).pushItem hpush fun heq => ?_
        exact hfresh (heq ▸ List.mem_map_of_mem hother)
      have hfree := (hcards card List.mem_cons_self).exists_pushItem_iff
      simp only [singles, priorityWrites, List.map_cons, Reassign.Clear, writes_cons, ← hfree]
      constructor
      · rintro ⟨written, next, hpush, hwrites⟩
        exact ⟨⟨next, hpush⟩, (hnext next hpush).mp ⟨written, hwrites⟩⟩
      · rintro ⟨⟨next, hpush⟩, hclear⟩
        obtain ⟨written, hwrites⟩ := (hnext next hpush).mpr hclear
        exact ⟨written, next, hpush, hwrites⟩

theorem Writes.implicationInvariant_singles {cards : List Card} {written : Store}
    (h : Writes store (singles cards) written) (hinv : ImplicationInvariant store)
    (hcards : ∀ card ∈ cards, Continues store card) (hnodup : (cards.map Card.id).Nodup) :
    ImplicationInvariant written := by
  induction cards generalizing store with
  | nil => exact writes_nil.mp h ▸ hinv
  | cons card rest ih =>
      obtain ⟨hfresh, hrest⟩ := List.nodup_cons.mp hnodup
      obtain ⟨next, hpush, hwrites⟩ := writes_cons.mp h
      refine ih hwrites (hinv.pushSingle (hcards card List.mem_cons_self) hpush)
        (fun other hother => ?_) hrest
      refine (hcards other (List.mem_cons_of_mem card hother)).pushItem hpush fun heq => ?_
      exact hfresh (heq ▸ List.mem_map_of_mem hother)

/-- On a sound store nothing but a duplicate priority stops a batch of single versions. -/
theorem SoundStore.exists_pushBatch_iff (hsound : SoundStore store)
    (hroom : store.rootState.sequence.val < 9223372036854775807) {cards : List Card}
    (hcards : ∀ card ∈ cards, Continues store card) (hnodup : (cards.map Card.id).Nodup)
    (now : Int) :
    (∃ after, pushBatch store (singles cards) now = .ok after) ↔
      Reassign.Clear store.priorities (priorityWrites cards) := by
  rw [← exists_writes_iff hcards hnodup]
  simp only [pushBatch_eq_ok_iff]
  constructor
  · rintro ⟨after, ⟨hempty, -⟩ | ⟨-, written, -, hcommitted⟩⟩
    · exact ⟨store, hempty ▸ writes_nil.mpr rfl⟩
    · exact ⟨written, hcommitted.writes⟩
  · rintro ⟨written, hwrites⟩
    by_cases hempty : singles cards = []
    · exact ⟨store, .inl ⟨hempty, rfl⟩⟩
    · obtain ⟨hstate, hrootHistory, -⟩ := hwrites.root
      have hhistory : RootHistoryInvariant written := by
        refine ⟨?_, ?_⟩
        · rw [hrootHistory, hstate]
          exact hsound.rootHistory.sequences
        · rw [hrootHistory, hstate]
          exact hsound.rootHistory.last
      have hfree : ¬ written.Exhausted := by
        rw [hhistory.exhausted_iff, hstate]
        exact hroom.ne
      obtain ⟨⟨rooted, sequence⟩, hrooted⟩ := exists_recomputeRootForIds_iff.mpr hfree
      refine ⟨_, .inr ⟨hempty, written, ?_, committed_iff.mpr ⟨hwrites, rooted, sequence, hrooted, rfl⟩⟩⟩
      exact (validateBatchImplications_eq_ok_iff hwrites.tags_current hwrites.cards_current).mpr
        (hwrites.implicationInvariant_singles hsound.implications hcards hnodup)

/-! ### Sound stores in runs -/

/-- The next version of a live card with the same tags. -/
theorem SoundStore.continues_next (hsound : SoundStore store) {row : EntityRow Card}
    (hrow : row ∈ store.cards.live) {content : String} {priority : I64} {blazed : Bool}
    {modifiedAt : DateTime} {dueDate : Option DateTime}
    (hnext : row.entity.next content priority row.entity.tags blazed modifiedAt dueDate = some card) :
    Continues store card := by
  obtain ⟨hverified, hid, -, -, htags, -, -, -, -, hcount, hancestor⟩ := Card.next_eq_some_iff.mp hnext
  refine ⟨hverified, hid ▸ hsound.notDeleted row hrow, ?_, fun version hversion hversionId => ?_, ?_⟩
  · rw [hancestor, hid, ← Card.entity_id, EntityTables.current_of_mem hrow]
    rfl
  · intro hsame
    have hle := hsound.newest row hrow version hversion (hversionId.trans hid)
    rw [hsame, hcount] at hle
    omega
  · intro tag htag parent hpath
    rw [htags, List.mem_insertionSort] at htag ⊢
    exact hsound.implications.card_closed row hrow tag htag parent hpath

omit [Blake3] in
/-- The count of a live entity is the highest among its versions. -/
theorem Counted.newest {E : Type} [Stored E] {tables : EntityTables E} (hcounted : Counted tables)
    (hinv : LineageInvariant tables) :
    ∀ row ∈ tables.live, ∀ version ∈ tables.versions,
      Entity.id version.entity = Entity.id row.entity →
        (Entity.count version.entity).val ≤ (Entity.count row.entity).val := by
  intro row hrow version hversion hid
  have hcurrent := hcounted.count_current hinv (Entity.id row.entity)
  rw [EntityTables.current_of_mem hrow, Option.map_some, Option.getD_some] at hcurrent
  have hmem : countOf version.entity ∈ (tables.lineage (Entity.id row.entity)).map countOf :=
    List.mem_map_of_mem (EntityTables.mem_lineage.mpr ⟨version, hversion, rfl, hid⟩)
  rw [hcounted, List.mem_range'_1] at hmem
  have hcount : countOf version.entity ≤ countOf row.entity := by omega
  exact hcount

/-- The stores of a run of built chains whose counts run on. -/
theorem soundStore_run {calls : List Call} (hbuilt : BuiltRun calls)
    (hcounted : Run.Meets execute CountedCall initSchema calls) :
    SoundStore (Run.after execute initSchema calls) := by
  have hapart : ApartInvariant (· ∈ pushedCardIds calls) (Run.after execute initSchema calls) :=
    apartInvariant_run (hbuilt.acceptsApart initSchema)
  have hsingle : ∀ call ∈ calls, call.SingleId :=
    fun call hcall item hitem => (hbuilt.built call hcall item hitem).singleId
  have hcountedInv : CountedInvariant (Run.after execute initSchema calls) :=
    (hcounted.and (Run.meets_of_forall fun _ call => hsingle call)).invariant _
      countedInvariant_initSchema fun _ _ hinv hcall => hinv.execute hcall.1 hcall.2
  refine ⟨?_, ?_, fun row hrow => ?_, hcountedInv.cards.newest hcountedInv.lineages.cards⟩
  · exact Run.invariant _ implicationInvariant_initSchema (fun _ call hinv => hinv.execute call) calls
  · exact Run.invariant _ rootHistoryInvariant_initSchema (fun _ call hinv => hinv.execute call) calls
  · by_contra hdeleted
    rw [Bool.not_eq_false] at hdeleted
    obtain ⟨buried, hburied, hid⟩ := Store.isDeleted_iff.mp hdeleted
    have hnone := (hapart.buried buried hburied).1
    rw [hid, ← Card.entity_id, EntityTables.current_of_mem hrow] at hnone
    exact Option.some_ne_none _ hnone

end BlazeList
