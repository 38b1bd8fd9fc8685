import BlazeList.Lib.IndexMap
import BlazeList.Server.Changes

/-!
# Merging a change set

An incremental sync merges what the server says has changed into the cards and tags of the client. The
result is the contents of the server, whatever the run did between the two points.
-/

namespace BlazeList

/-! ### The merge -/

/-- Index by id, remove what was deleted, then upsert what was changed. -/
def mergeChanges {E : Type} (id : E → Uuid) (current : List E) (deleted : List DeletedEntity)
    (changed : List E) : IndexMap id :=
  changed.foldl IndexMap.insert
    (deleted.foldl (fun entities entity => entities.swapRemove entity.id)
      (IndexMap.ofList id current))

def applyCardChangeset (currentCards : List Card) (changes : ChangeSet) : List Card :=
  (mergeChanges Card.id currentCards changes.deleted changes.cards).values.orderBy fun card =>
    - card.priority.val

def applyTagChangeset (currentTags : List Tag) (changes : ChangeSet) : List Tag :=
  (mergeChanges Tag.id currentTags changes.deleted changes.tags).values

theorem mergeChanges_eq {E : Type} (id : E → Uuid) (current : List E) (deleted : List DeletedEntity)
    (changed : List E) :
    mergeChanges id current deleted changed = changed.foldl IndexMap.insert
      ((deleted.map DeletedEntity.id).foldl IndexMap.swapRemove (IndexMap.ofList id current)) := by
  rw [mergeChanges, List.foldl_map]

theorem mem_mergeChanges {E : Type} {id : E → Uuid} {current changed : List E}
    {deleted : List DeletedEntity} (hcurrent : (current.map id).Nodup)
    (hchanged : (changed.map id).Nodup) {entity : E} :
    entity ∈ (mergeChanges id current deleted changed).values ↔
      entity ∈ changed ∨ entity ∈ current ∧ id entity ∉ deleted.map DeletedEntity.id ∧
        id entity ∉ changed.map id := by
  rw [mergeChanges_eq, IndexMap.mem_foldl_insert hchanged, IndexMap.mem_foldl_swapRemove,
    IndexMap.mem_ofList hcurrent, and_assoc]

theorem mem_of_mem_mergeChanges {E : Type} {id : E → Uuid} {current changed : List E} {deleted : List DeletedEntity}
    {entity : E} (h : entity ∈ (mergeChanges id current deleted changed).values) :
    entity ∈ changed ∨ entity ∈ current := by
  rw [mergeChanges_eq] at h
  refine (IndexMap.mem_of_mem_foldl_insert h).imp_right fun hkept => ?_
  exact IndexMap.mem_of_mem_ofList ((IndexMap.mem_foldl_swapRemove _ _).mp hkept).1

/-! ### Merging the changes of a run -/

/-- Lists without repeated keys that have the same elements are permutations. -/
theorem perm_of_nodup_map {α κ : Type} {key : α → κ} {left right : List α}
    (hleft : (left.map key).Nodup) (hright : (right.map key).Nodup)
    (hmem : ∀ a, a ∈ left ↔ a ∈ right) : left.Perm right :=
  (List.perm_ext_iff_of_nodup hleft.of_map hright.of_map).mpr hmem

section Tables

variable {E : Type} [Stored E] {tables : EntityTables E}

theorem EntityTables.mem_entities {entity : E} :
    entity ∈ tables.entities ↔ ∃ row ∈ tables.live, row.entity = entity := by
  simp [entities, Table.mem_def]

theorem EntityTables.mem_changedSince {since : Nat} {entity : E} :
    entity ∈ tables.changedSince since ↔
      ∃ row ∈ tables.live, since < row.rootSequenceAt ∧ row.entity = entity := by
  simp [changedSince, Table.mem_def, and_assoc]

theorem EntityTables.nodup_map_id : (tables.entities.map Entity.id).Nodup := by
  rw [List.Nodup, entities, List.map_map, List.pairwise_map]
  exact tables.live.unique.imp fun hfree heq => hfree (.inl heq)

theorem EntityTables.nodup_map_id_changedSince {since : Nat} :
    ((tables.changedSince since).map Entity.id).Nodup :=
  nodup_map_id.sublist ((List.filter_sublist.map _).map _)

/-- A row that is not marked later than `since` was there before. -/
theorem Tracked.mem_before {point since : Nat} {before after : EntityTables E}
    {deletedEntities : Table deletedConflict} (h : Tracked [] [] point before after deletedEntities)
    (hsince : since ≤ point) {row : EntityRow E} (hrow : row ∈ after.live) (hold : ¬ since < row.rootSequenceAt) :
    row ∈ before.live := by
  refine (h.unmarked row hrow).resolve_left fun hmarked => hold ?_
  exact hsince.trans_lt (hmarked.resolve_left List.not_mem_nil)

/-- The new contents are what has changed, and of the contents before what was neither changed nor deleted. -/
theorem Tracked.mem_entities_iff {point since : Nat} {before after : EntityTables E}
    {deletedEntities : Table deletedConflict} (h : Tracked [] [] point before after deletedEntities)
    (hsince : since ≤ point) (hburied : ∀ row ∈ deletedEntities, after.current row.entity.id = none) (entity : E) :
    entity ∈ after.entities ↔ entity ∈ after.changedSince since ∨ entity ∈ before.entities ∧
      Entity.id entity ∉ ((deletedEntities.rows.filter fun row => row.rootSequenceAt > since).map
        DeletedRow.entity).map DeletedEntity.id ∧
      Entity.id entity ∉ (after.changedSince since).map Entity.id := by
  constructor
  · intro hafter
    obtain ⟨row, hrow, rfl⟩ := EntityTables.mem_entities.mp hafter
    by_cases hlater : since < row.rootSequenceAt
    · exact .inl (EntityTables.mem_changedSince.mpr ⟨row, hrow, hlater, rfl⟩)
    · refine .inr ⟨EntityTables.mem_entities.mpr ⟨row, h.mem_before hsince hrow hlater, rfl⟩, fun hdeleted => ?_,
        fun hfresh => ?_⟩
      · rw [List.map_map] at hdeleted
        obtain ⟨buried, hburiedRow, hid⟩ := List.mem_map.mp hdeleted
        have hnone := hburied buried (List.mem_filter.mp hburiedRow).1
        rw [show buried.entity.id = Entity.id row.entity from hid, EntityTables.current_of_mem hrow] at hnone
        cases hnone
      · obtain ⟨other, hother, hid⟩ := List.mem_map.mp hfresh
        obtain ⟨new, hnew, hnewLater, rfl⟩ := EntityTables.mem_changedSince.mp hother
        rw [EntityTables.eq_of_id_eq hnew hrow hid] at hnewLater
        exact hlater hnewLater
  · rintro (hchange | ⟨hbefore, hdeleted, hfresh⟩)
    · obtain ⟨row, hrow, -, rfl⟩ := EntityTables.mem_changedSince.mp hchange
      exact EntityTables.mem_entities.mpr ⟨row, hrow, rfl⟩
    · obtain ⟨row, hrow, rfl⟩ := EntityTables.mem_entities.mp hbefore
      rcases h.kept row hrow with ⟨new, hnew, hid⟩ | ⟨buried, hburiedRow, hid, hmarked⟩
      · by_cases hlater : since < new.rootSequenceAt
        · refine absurd ?_ hfresh
          rw [← hid]
          exact List.mem_map_of_mem (EntityTables.mem_changedSince.mpr ⟨new, hnew, hlater, rfl⟩)
        · obtain rfl := EntityTables.eq_of_id_eq (h.mem_before hsince hnew hlater) hrow hid
          exact EntityTables.mem_entities.mpr ⟨new, hnew, rfl⟩
      · have hlater : since < buried.rootSequenceAt :=
          hsince.trans_lt (hmarked.resolve_left List.not_mem_nil)
        refine absurd ?_ hdeleted
        rw [← hid, List.map_map]
        exact List.mem_map_of_mem (f := DeletedEntity.id ∘ DeletedRow.entity)
          (List.mem_filter.mpr ⟨hburiedRow, decide_eq_true hlater⟩)

variable [Blake3]

/-- These are the live entities as they read back, in some order. -/
def EntityTables.Shows (tables : EntityTables E) (entities : List E) : Prop :=
  ∃ decoded, fromRows tables.entities = .ok decoded ∧ entities.Perm decoded

theorem mem_fromRows {rows decoded : List E} (h : fromRows rows = .ok decoded) {entity : E} :
    entity ∈ decoded ↔ ∃ row ∈ rows, Stored.fromRow row = .ok entity := by
  have hdecoded := Except.mapM_eq_ok_iff.mp h
  clear h
  induction hdecoded with
  | nil => simp
  | cons hrow _ ih =>
      simp only [List.mem_cons, ih, exists_eq_or_imp, Except.mapError_eq_ok_iff.mp hrow,
        Except.ok.injEq]
      exact or_congr_left eq_comm

theorem fromRows_map_id {rows decoded : List E} (h : fromRows rows = .ok decoded) :
    decoded.map Entity.id = rows.map Entity.id :=
  map_eq_of_fromRows (fun hrow => (Stored.fromRow_ok hrow).1) h

theorem readable_of_fromRows {rows decoded : List E} (h : fromRows rows = .ok decoded) :
    ∀ row ∈ rows, Readable row := by
  have hdecoded := Except.mapM_eq_ok_iff.mp h
  clear h
  induction hdecoded with
  | nil => simp
  | cons hrow _ ih =>
      rw [List.forall_mem_cons]
      exact ⟨⟨_, Except.mapError_eq_ok_iff.mp hrow⟩, ih⟩

/-- Changes since a point no later than the one that is tracked from lead to the new contents. -/
theorem Tracked.shows_mergeChanges {point since : Nat} {before after : EntityTables E}
    {deletedEntities : Table deletedConflict} {current changed : List E}
    (h : Tracked [] [] point before after deletedEntities) (hsince : since ≤ point)
    (hburied : ∀ row ∈ deletedEntities, after.current row.entity.id = none)
    (hcurrent : before.Shows current) (hchanged : fromRows (after.changedSince since) = .ok changed) :
    after.Shows (mergeChanges Entity.id current
      ((deletedEntities.rows.filter fun row => row.rootSequenceAt > since).map DeletedRow.entity)
      changed).values := by
  obtain ⟨decoded, hdecoded, hperm⟩ := hcurrent
  have hentities := h.mem_entities_iff hsince hburied
  have hreadable : ∀ entity ∈ after.entities, Readable entity := by
    intro entity hentity
    rcases (hentities _).mp hentity with hchange | ⟨hbefore, -⟩
    · exact readable_of_fromRows hchanged entity hchange
    · exact readable_of_fromRows hdecoded entity hbefore
  obtain ⟨all, hall⟩ := exists_fromRows hreadable
  have hchangedIds := fromRows_map_id hchanged
  have hcurrentIds : (current.map Entity.id).Perm (before.entities.map Entity.id) := by
    rw [← fromRows_map_id hdecoded]
    exact hperm.map Entity.id
  refine ⟨all, hall, perm_of_nodup_map (IndexMap.nodup _) ?_ fun entity => ?_⟩
  · rw [fromRows_map_id hall]
    exact EntityTables.nodup_map_id
  · rw [mem_mergeChanges (hcurrentIds.nodup_iff.mpr EntityTables.nodup_map_id)
      (hchangedIds ▸ EntityTables.nodup_map_id_changedSince), hperm.mem_iff, mem_fromRows hdecoded,
      mem_fromRows hchanged, mem_fromRows hall, hchangedIds]
    constructor
    · rintro (⟨row, hchange, hentity⟩ | ⟨⟨row, hbefore, hentity⟩, hdeleted, hfresh⟩)
      · exact ⟨row, (hentities _).mpr (.inl hchange), hentity⟩
      · rw [(Stored.fromRow_ok hentity).1] at hdeleted hfresh
        exact ⟨row, (hentities _).mpr (.inr ⟨hbefore, hdeleted, hfresh⟩), hentity⟩
    · rintro ⟨row, hafter, hentity⟩
      rw [(Stored.fromRow_ok hentity).1]
      rcases (hentities _).mp hafter with hchange | ⟨hbefore, hdeleted, hfresh⟩
      · exact .inl ⟨row, hchange, hentity⟩
      · exact .inr ⟨⟨row, hbefore, hentity⟩, hdeleted, hfresh⟩

end Tables

section Runs

variable [Blake3] {since : Nat} {store : Store} {changes : ChangeSet}

theorem changesSince_eq_ok_iff : changesSince store since = .ok changes ↔
    fromRows (store.cards.changedSince since) = .ok changes.cards ∧
      fromRows (store.tags.changedSince since) = .ok changes.tags ∧
      changes.deleted = (store.deletedEntities.rows.filter fun row => row.rootSequenceAt > since).map
        DeletedRow.entity ∧
      changes.root = store.rootState := by
  obtain ⟨cards, tags, deleted, root⟩ := changes
  simp only [changesSince, Except.bind_eq_ok_iff, pure, Except.pure, Except.ok.injEq,
    ChangeSet.mk.injEq]
  constructor
  · rintro ⟨_, hcards, _, htags, rfl, rfl, rfl, rfl⟩
    exact ⟨hcards, htags, rfl, rfl⟩
  · rintro ⟨hcards, htags, rfl, rfl⟩
    exact ⟨cards, hcards, tags, htags, rfl, rfl, rfl, rfl⟩

/-- The merge of the changes since some sequence into the contents at a point not before it. -/
theorem StoreTracked.shows {isCard : Uuid → Prop} {point : Nat} {before : Store}
    {cards : List Card} {tags : List Tag} (h : StoreTracked .empty point before store)
    (hinv : ApartInvariant isCard store) (hsince : since ≤ point)
    (hcards : before.cards.Shows cards) (htags : before.tags.Shows tags)
    (hchanges : changesSince store since = .ok changes) :
    store.cards.Shows (applyCardChangeset cards changes) ∧
      store.tags.Shows (applyTagChangeset tags changes) := by
  obtain ⟨hchangedCards, hchangedTags, hdeleted, -⟩ := changesSince_eq_ok_iff.mp hchanges
  constructor
  · obtain ⟨decoded, hdecoded, hperm⟩ := h.cards.shows_mergeChanges hsince
      (fun row hrow => (hinv.buried row hrow).1) hcards hchangedCards
    rw [← hdeleted] at hperm
    exact ⟨decoded, hdecoded, (List.orderBy_perm _ _).trans hperm⟩
  · obtain ⟨decoded, hdecoded, hperm⟩ := h.tags.shows_mergeChanges hsince
      (fun row hrow => (hinv.buried row hrow).2) htags hchangedTags
    rw [← hdeleted] at hperm
    exact ⟨decoded, hdecoded, hperm⟩

theorem shows_iff_perm {E : Type} [Stored E] {tables : EntityTables E}
    (h : StoredAll ReadsBack tables) {entities : List E} :
    tables.Shows entities ↔ entities.Perm tables.entities := by
  simp [EntityTables.Shows, fromRows_entities h]

/-- Cards and tags that are those of the store, each id once and the cards by priority. -/
structure CaughtUp (store : Store) (cards : List Card) (tags : List Tag) : Prop where
  sameCards : cards.Perm store.cards.entities
  cardIds : (cards.map Card.id).Nodup
  sorted : cards.Pairwise fun a b => b.priority.val ≤ a.priority.val
  sameTags : tags.Perm store.tags.entities
  tagIds : (tags.map Tag.id).Nodup

/-- From any earlier point of a run, the answer of the server takes a client that had the contents of
that point to the contents and the root of the current one. -/
theorem caughtUp_run (earlier later : List Call) (hrun : BuiltRun (earlier ++ later)) :
    let store := Run.after execute initSchema earlier
    let current := Run.after execute initSchema (earlier ++ later)
    ∃ changes,
      getChangesSince current store.rootState.sequence store.rootState.hash = .ok changes ∧
      changes.root = current.rootState ∧
      ∀ cards tags, cards.Perm store.cards.entities → tags.Perm store.tags.entities →
        CaughtUp current (applyCardChangeset cards changes) (applyTagChangeset tags changes) := by
  intro store current
  have hcurrent : current = Run.after execute store later := Run.after_append
  have hmeets := Run.meets_append.mp (hrun.acceptsApart initSchema)
  have happart := apartInvariant_run (hrun.acceptsApart initSchema)
  have hreads : ReadsBackInvariant current := hrun.readsBackInvariant
  have hreadsEarlier : ReadsBackInvariant store :=
    BuiltRun.readsBackInvariant
      ⟨fun call hcall => hrun.built call (List.mem_append_left later hcall), fun id hcard htag => by
        refine hrun.disjoint id ?_ ?_ <;> simp only [pushedCardIds, pushedTagIds, List.flatMap_append]
        · exact List.mem_append_left _ hcard
        · exact List.mem_append_left _ htag⟩
  have htracked : StoreTracked .empty store.rootState.sequence.val store current := by
    rw [hcurrent]
    exact storeTracked_run hmeets.2
  obtain ⟨changes, hchanges⟩ := ReadableInvariant.exists_changesSince
    ⟨hreads.cards.mono fun _ h => ⟨_, h⟩, hreads.tags.mono fun _ h => ⟨_, h⟩⟩
    store.rootState.sequence.val
  refine ⟨changes, ?_, (changesSince_eq_ok_iff.mp hchanges).2.2.2, fun cards tags hcards htags => ?_⟩
  · rw [← hchanges, hcurrent]
    exact getChangesSince_later earlier later
  · obtain ⟨hshowsCards, hshowsTags⟩ := htracked.shows happart le_rfl
      ((shows_iff_perm hreadsEarlier.cards).mpr hcards)
      ((shows_iff_perm hreadsEarlier.tags).mpr htags) hchanges
    have hsameCards := (shows_iff_perm hreads.cards).mp hshowsCards
    have hsameTags := (shows_iff_perm hreads.tags).mp hshowsTags
    exact
      { sameCards := hsameCards
        cardIds := (hsameCards.map Card.id).nodup_iff.mpr EntityTables.nodup_map_id
        sorted := (List.orderBy_pairwise _ _).imp fun hle => neg_le_neg_iff.mp hle
        sameTags := hsameTags
        tagIds := (hsameTags.map Tag.id).nodup_iff.mpr EntityTables.nodup_map_id }

end Runs

def sampleEarlier : List Call := [⟨.pushCardVersions [sampleCard 1 ⟨0, zero_mem_i64⟩], 0⟩]

def sampleLater : List Call :=
  [⟨.deleteCard 1, 1⟩,
    ⟨.pushBatch [.cards [sampleCard 3 ⟨5, five_mem_i64⟩], .tags [sampleTag 2 []]], 2⟩]

theorem builtRun_sample : @BuiltRun polynomialBlake3 (sampleEarlier ++ sampleLater) := by
  let _ := polynomialBlake3
  have hcards : pushedCardIds (sampleEarlier ++ sampleLater) = [1, 3] := by decide +kernel
  have htags : pushedTagIds (sampleEarlier ++ sampleLater) = [2] := by decide +kernel
  refine ⟨fun call hcall item hitem => ?_, by simp [hcards, htags]⟩
  have hitems : item ∈ (sampleEarlier ++ sampleLater).flatMap fun call => call.mutation.items :=
    List.mem_flatMap.mpr ⟨call, hcall, hitem⟩
  simp only [sampleEarlier, sampleLater, List.cons_append, List.nil_append, List.flatMap_cons,
    List.flatMap_nil, Mutation.items, List.append_nil, List.mem_cons, List.not_mem_nil,
    or_false] at hitems
  rcases hitems with rfl | rfl | rfl | rfl
  · exact sampleCard_built _ _
  · trivial
  · exact sampleCard_built _ _
  · exact sampleTag_built _ _

theorem caughtUp_sample :
    let _ := polynomialBlake3
    let store := Run.after execute initSchema sampleEarlier
    let current := Run.after execute initSchema (sampleEarlier ++ sampleLater)
    ∃ changes,
      getChangesSince current store.rootState.sequence store.rootState.hash = .ok changes ∧
      changes.root = current.rootState ∧
      ∀ cards tags, cards.Perm store.cards.entities → tags.Perm store.tags.entities →
        CaughtUp current (applyCardChangeset cards changes) (applyTagChangeset tags changes) :=
  @caughtUp_run polynomialBlake3 sampleEarlier sampleLater builtRun_sample

end BlazeList
