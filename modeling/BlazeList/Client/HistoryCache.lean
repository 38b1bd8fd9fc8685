import BlazeList.Server.Growth
import BlazeList.Server.Histories
import BlazeList.Server.SequenceHistory
import Mathlib.Data.List.Sort

/-!
# The history cache

The client keeps the histories it has fetched, in memory and in a file. A sync fetches the histories of what
has changed in the background, and a history panel that is opened fetches its own. Any number of these fetches
are under way at once, their answers arrive in any order, and the server goes on meanwhile. A prefetch stores
the oldest version first, and a panel the newest.
-/

namespace BlazeList

/-! ### The cache -/

structure HistoryCache where
  cardHistories : Std.TreeMap Uuid (List Card)
  tagHistories : Std.TreeMap Uuid (List Tag)
  sequenceHistory : List SequenceHistoryEntry

def HistoryCache.default : HistoryCache := ⟨∅, ∅, []⟩

def HistoryCache.updateCachedCardHistory (cache : HistoryCache) (id : Uuid) (history : List Card) :
    HistoryCache :=
  { cache with cardHistories := cache.cardHistories.insert id history }

def HistoryCache.updateCachedTagHistory (cache : HistoryCache) (id : Uuid) (history : List Tag) :
    HistoryCache :=
  { cache with tagHistories := cache.tagHistories.insert id history }

def HistoryCache.updateCachedSequenceHistory (cache : HistoryCache) (history : List SequenceHistoryEntry) :
    HistoryCache :=
  { cache with sequenceHistory := history }

/-- A prefetch asks for many entities at once, a panel for one. -/
inductive HistoryRequest where
  | allCards (cardIds : Option (List Uuid))
  | allTags (tagIds : Option (List Uuid))
  | sequence
  | card (id : Uuid)
  | tag (id : Uuid)

/-- Everything is fetched of a kind for which no list is given. -/
def spawnPrefetchHistories (cardIds tagIds : Option (List Uuid)) : List HistoryRequest :=
  [.allCards cardIds, .allTags tagIds, .sequence]

def prefetchChanged (changes : ChangeSet) : List HistoryRequest :=
  let cardIds := changes.cards.map Card.id
  let tagIds := changes.tags.map Tag.id
  if !cardIds.isEmpty || !tagIds.isEmpty then
    spawnPrefetchHistories (if cardIds.isEmpty then none else some cardIds)
      (if tagIds.isEmpty then none else some tagIds)
  else
    []

inductive HistoryAnswer where
  | cardHistories (histories : Std.TreeMap Uuid (List Card))
  | tagHistories (histories : Std.TreeMap Uuid (List Tag))
  | sequenceHistory (history : List SequenceHistoryEntry)
  | cardHistory (id : Uuid) (history : List Card)
  | tagHistory (id : Uuid) (history : List Tag)

def HistoryRequest.answer? [Blake3] (store : Store) : HistoryRequest → Option HistoryAnswer
  | .allCards cardIds => (getAllCardHistories store none cardIds).toOption.map .cardHistories
  | .allTags tagIds => (getAllTagHistories store none tagIds).toOption.map .tagHistories
  | .sequence => some (.sequenceHistory (getSequenceHistory store none none))
  | .card id => (getCardHistory store id none).toOption.map (.cardHistory id)
  | .tag id => (getTagHistory store id none).toOption.map (.tagHistory id)

section

variable {E : Type} [Stored E]

def newestFirst (history : List E) : List E := history.orderBy fun version => OrderDual.toDual (countOf version)

end

def HistoryCache.update (cache : HistoryCache) : HistoryAnswer → HistoryCache
  | .cardHistories histories => histories.foldl HistoryCache.updateCachedCardHistory cache
  | .tagHistories histories => histories.foldl HistoryCache.updateCachedTagHistory cache
  | .sequenceHistory history => cache.updateCachedSequenceHistory history
  | .cardHistory id history => cache.updateCachedCardHistory id (newestFirst history)
  | .tagHistory id history => cache.updateCachedTagHistory id (newestFirst history)

/-! ### Runs -/

/-- The server, the cache in memory and in its file, and the fetches: those the server has not answered, and
the answers that have not arrived. -/
structure HistoryWorld where
  store : Store
  cache : HistoryCache
  saved : HistoryCache
  asked : List HistoryRequest
  inFlight : List HistoryAnswer

def HistoryWorld.new : HistoryWorld := ⟨initSchema, .default, .default, [], []⟩

/-- A prefetch waits for each answer before it asks on. Here it asks for all at once, and the answers arrive in
any order. -/
inductive HistoryStep where
  | call (call : Call)
  | initialSync
  | incrementalSync (changes : ChangeSet)
  | openHistory (request : HistoryRequest)
  | answer (index : Nat)
  | arrive (index : Nat)
  | lose (index : Nat)
  | save
  | clear
  | restart

def historyStep [Blake3] (world : HistoryWorld) : HistoryStep → HistoryWorld
  | .call call => { world with store := execute world.store call }
  | .initialSync => { world with asked := world.asked ++ spawnPrefetchHistories none none }
  | .incrementalSync changes => { world with asked := world.asked ++ prefetchChanged changes }
  | .openHistory request => { world with asked := world.asked ++ [request] }
  | .answer index =>
      match world.asked[index]? with
      | some request =>
          { world with
            asked := world.asked.eraseIdx index
            inFlight := world.inFlight ++ (request.answer? world.store).toList }
      | none => world
  | .arrive index =>
      match world.inFlight[index]? with
      | some answer =>
          { world with cache := world.cache.update answer, inFlight := world.inFlight.eraseIdx index }
      | none => world
  | .lose index => { world with inFlight := world.inFlight.eraseIdx index }
  | .save => { world with saved := world.cache }
  | .clear => { world with cache := .default, saved := .default }
  | .restart => { world with cache := world.saved, asked := [], inFlight := [] }

/-! ### Histories only grow -/

section Recorded

variable {E : Type} [Stored E] {tables before after : EntityTables E} {id : Uuid} {history current : List E}

variable [Blake3]

def EntityTables.Recorded (tables : EntityTables E) (id : Uuid) (history : List E) : Prop :=
  ∃ versions, versions <+: tables.lineage id ∧ fromRows (versions.orderBy countOf) = .ok history

theorem recorded_of_history (h : tables.history id none = .ok history) : tables.Recorded id history :=
  ⟨tables.lineage id, List.prefix_rfl, h⟩

/-- The bulk read gives each entity its own history. -/
theorem recorded_of_allHistories {ids : Option (List Uuid)} {histories : Std.TreeMap Uuid (List E)}
    (h : tables.allHistories none ids = .ok histories) (hhistory : histories[id]? = some history) :
    tables.Recorded id history := by
  rw [allHistories_of_bindable (bindable_of_allHistories h), Except.map_eq_ok_iff] at h
  obtain ⟨decoded, hdecoded, rfl⟩ := h
  rw [getElem?_foldl_groupVersion] at hhistory
  split at hhistory
  next hid =>
    obtain rfl := Option.some.inj hhistory
    have hshare := fromRows_filter hdecoded id
    rw [filter_versionsOf] at hshare
    split at hshare
    next => exact ⟨tables.lineage id, List.prefix_rfl, hshare⟩
    next hrefused =>
      obtain ⟨version, hversion, rfl⟩ := List.mem_map.mp hid
      have hnone : [] = decoded.filter fun other => Entity.id other = Entity.id version := Except.ok.inj hshare
      exact absurd (decide_eq_true rfl) (List.filter_eq_nil_iff.mp hnone.symm version hversion)
  next => cases hhistory

theorem EntityTables.Recorded.mono (h : before.Recorded id history)
    (hgrows : before.lineage id <+: after.lineage id) : after.Recorded id history := by
  obtain ⟨versions, hversions, hread⟩ := h
  exact ⟨versions, hversions.trans hgrows, hread⟩

theorem fromRows_eq_filterMap {rows decoded : List E} (h : fromRows rows = .ok decoded) :
    decoded = rows.filterMap fun row => (Stored.fromRow row).toOption := by
  have hrows := fromRows_eq_ok_iff.mp h
  clear h
  induction hrows with
  | nil => rfl
  | cons hfirst _ ih => rw [List.filterMap_cons, hfirst, ← ih]; rfl

theorem EntityTables.Recorded.sublist (h : tables.Recorded id history)
    (hcurrent : tables.history id none = .ok current) : history.Sublist current := by
  obtain ⟨versions, hversions, hread⟩ := h
  rw [fromRows_eq_filterMap hread, fromRows_eq_filterMap hcurrent]
  exact (List.orderBy_sublist (nodup_countOf_lineage tables id) hversions.sublist).filterMap _

theorem EntityTables.Recorded.pairwise (h : tables.Recorded id history) :
    history.Pairwise fun a b => countOf a < countOf b := by
  obtain ⟨versions, hversions, hread⟩ := h
  have hcounts : history.map countOf = (versions.orderBy countOf).map countOf :=
    map_eq_of_fromRows (fun hrow => congrArg NonNegativeI64.val (Stored.fromRow_ok hrow).2.1) hread
  have hnodup := (nodup_countOf_lineage tables id).sublist (hversions.sublist.map countOf)
  rw [← List.pairwise_map (f := countOf) (R := (· < ·)), hcounts, List.pairwise_map]
  exact List.orderBy_pairwise_lt hnodup

/-! ### What is kept -/

def InSequence (history ascending : List E) : Prop :=
  (ascending.Pairwise fun a b => countOf a < countOf b) ∧ (history = ascending ∨ history = ascending.reverse)

/-- The entity is deleted, or this was its history once. -/
def HistoryKept (tables : Store → EntityTables E) (store : Store) (id : Uuid) (history : List E) : Prop :=
  ∃ ascending, InSequence history ascending ∧
    (store.isDeleted id = true ∨ (tables store).Recorded id ascending)

variable {tablesOf : Store → EntityTables E} {store later : Store}

theorem HistoryKept.mono (h : HistoryKept tablesOf store id history)
    (hdeleted : store.isDeleted id = true → later.isDeleted id = true)
    (hgrows : later.isDeleted id = true ∨ (tablesOf store).lineage id <+: (tablesOf later).lineage id) :
    HistoryKept tablesOf later id history := by
  obtain ⟨ascending, horder, hgone | hrecorded⟩ := h
  · exact ⟨ascending, horder, .inl (hdeleted hgone)⟩
  · exact ⟨ascending, horder, hgrows.imp_right hrecorded.mono⟩

theorem historyKept_of_recorded (h : (tablesOf store).Recorded id history) : HistoryKept tablesOf store id history :=
  ⟨history, ⟨h.pairwise, .inl rfl⟩, .inr h⟩

theorem historyKept_newestFirst (h : (tablesOf store).history id none = .ok history) :
    HistoryKept tablesOf store id (newestFirst history) := by
  have hrecorded := recorded_of_history h
  have hreverse : newestFirst history = history.reverse :=
    List.orderBy_eq_reverse (hrecorded.pairwise.imp OrderDual.toDual_lt_toDual.mpr)
  exact ⟨history, ⟨hrecorded.pairwise, .inr hreverse⟩, .inr hrecorded⟩

end Recorded

def SequenceHistoryEntry.root (entry : SequenceHistoryEntry) : NonNegativeI64 × Hash × DateTime :=
  (entry.sequence, entry.hash, entry.createdAt)

def HistoryRow.root (row : HistoryRow) : NonNegativeI64 × Hash × DateTime :=
  (row.sequence, row.hash, (DateTime.fromTimestampMillis row.createdAt).getD .epoch)

def KeepsSequence (store : Store) (history : List SequenceHistoryEntry) : Prop :=
  ∃ rows, rows <+: store.rootHistory.rows ∧
    history.map SequenceHistoryEntry.root = rows.reverse.map HistoryRow.root

theorem RootHistoryInvariant.map_root {store : Store} (hinv : RootHistoryInvariant store) :
    (BlazeList.getSequenceHistory store none none).map SequenceHistoryEntry.root =
      store.rootHistory.rows.reverse.map HistoryRow.root := by
  rw [hinv.getSequenceHistory, Paging.below_none]
  exact List.map_map

section Kept

variable [Blake3]

structure HistoryCache.Kept (cache : HistoryCache) (store : Store) : Prop where
  cards : ∀ id history, cache.cardHistories[id]? = some history → HistoryKept Store.cards store id history
  tags : ∀ id history, cache.tagHistories[id]? = some history → HistoryKept Store.tags store id history
  sequence : KeepsSequence store cache.sequenceHistory

def HistoryAnswer.Kept (store : Store) : HistoryAnswer → Prop
  | .cardHistories histories =>
      ∀ id history, histories[id]? = some history → HistoryKept Store.cards store id history
  | .tagHistories histories =>
      ∀ id history, histories[id]? = some history → HistoryKept Store.tags store id history
  | .sequenceHistory history => KeepsSequence store history
  | .cardHistory id history => HistoryKept Store.cards store id (newestFirst history)
  | .tagHistory id history => HistoryKept Store.tags store id (newestFirst history)

theorem HistoryCache.kept_default (store : Store) : HistoryCache.default.Kept store where
  cards _ _ h := by cases Std.TreeMap.getElem?_emptyc.symm.trans h
  tags _ _ h := by cases Std.TreeMap.getElem?_emptyc.symm.trans h
  sequence := ⟨[], List.nil_prefix, rfl⟩

variable {store later : Store} {cache : HistoryCache} {answer : HistoryAnswer}

omit [Blake3] in
theorem KeepsSequence.mono {history : List SequenceHistoryEntry} (h : KeepsSequence store history)
    (hgrows : Grows store later) : KeepsSequence later history := by
  obtain ⟨rows, hrows, hroots⟩ := h
  exact ⟨rows, hrows.trans hgrows.rootHistory, hroots⟩

theorem HistoryCache.Kept.mono (h : cache.Kept store) (hgrows : Grows store later) : cache.Kept later where
  cards id history hhistory := (h.cards id history hhistory).mono (hgrows.deleted id) (hgrows.cards id)
  tags id history hhistory := (h.tags id history hhistory).mono (hgrows.deleted id) (hgrows.tags id)
  sequence := h.sequence.mono hgrows

theorem HistoryAnswer.Kept.mono (h : answer.Kept store) (hgrows : Grows store later) : answer.Kept later := by
  cases answer with
  | cardHistories histories =>
      exact fun id history hhistory => (h id history hhistory).mono (hgrows.deleted id) (hgrows.cards id)
  | tagHistories histories =>
      exact fun id history hhistory => (h id history hhistory).mono (hgrows.deleted id) (hgrows.tags id)
  | sequenceHistory history => exact KeepsSequence.mono h hgrows
  | cardHistory id history => exact HistoryKept.mono h (hgrows.deleted id) (hgrows.cards id)
  | tagHistory id history => exact HistoryKept.mono h (hgrows.deleted id) (hgrows.tags id)

/-- An answer holds what the server has when it answers. -/
theorem HistoryRequest.kept_answer (hhistory : RootHistoryInvariant store) {request : HistoryRequest}
    (h : request.answer? store = some answer) : answer.Kept store := by
  cases request with
  | allCards cardIds =>
      obtain ⟨histories, hread, rfl⟩ := Option.map_eq_some_iff.mp h
      intro id history hmem
      exact historyKept_of_recorded (recorded_of_allHistories (Except.toOption_eq_some_iff.mp hread) hmem)
  | allTags tagIds =>
      obtain ⟨histories, hread, rfl⟩ := Option.map_eq_some_iff.mp h
      intro id history hmem
      exact historyKept_of_recorded (recorded_of_allHistories (Except.toOption_eq_some_iff.mp hread) hmem)
  | sequence =>
      obtain rfl := Option.some.inj h
      exact ⟨store.rootHistory.rows, List.prefix_rfl, hhistory.map_root⟩
  | card id =>
      obtain ⟨history, hread, rfl⟩ := Option.map_eq_some_iff.mp h
      exact historyKept_newestFirst (Except.toOption_eq_some_iff.mp hread)
  | tag id =>
      obtain ⟨history, hread, rfl⟩ := Option.map_eq_some_iff.mp h
      exact historyKept_newestFirst (Except.toOption_eq_some_iff.mp hread)

theorem HistoryCache.Kept.updateCachedCardHistory (h : cache.Kept store) {id : Uuid} {history : List Card}
    (hhistory : HistoryKept Store.cards store id history) : (cache.updateCachedCardHistory id history).Kept store where
  cards other kept hkept := by
    rw [HistoryCache.updateCachedCardHistory, Std.TreeMap.getElem?_insert] at hkept
    split at hkept
    next hsame =>
      obtain rfl := Std.LawfulEqCmp.compare_eq_iff_eq.mp hsame
      obtain rfl := Option.some.inj hkept
      exact hhistory
    next => exact h.cards other kept hkept
  tags := h.tags
  sequence := h.sequence

theorem HistoryCache.Kept.updateCachedTagHistory (h : cache.Kept store) {id : Uuid} {history : List Tag}
    (hhistory : HistoryKept Store.tags store id history) : (cache.updateCachedTagHistory id history).Kept store where
  cards := h.cards
  tags other kept hkept := by
    rw [HistoryCache.updateCachedTagHistory, Std.TreeMap.getElem?_insert] at hkept
    split at hkept
    next hsame =>
      obtain rfl := Std.LawfulEqCmp.compare_eq_iff_eq.mp hsame
      obtain rfl := Option.some.inj hkept
      exact hhistory
    next => exact h.tags other kept hkept
  sequence := h.sequence

/-- Storing many histories one by one. -/
theorem HistoryCache.Kept.foldl {β : Type} {store' : HistoryCache → Uuid → β → HistoryCache}
    {kept : Uuid → β → Prop} (hstep : ∀ cache : HistoryCache, cache.Kept store → ∀ id history,
      kept id history → (store' cache id history).Kept store) {histories : Std.TreeMap Uuid β} (h : cache.Kept store)
    (hhistories : ∀ id history, histories[id]? = some history → kept id history) :
    (histories.foldl store' cache).Kept store := by
  have hlist : ∀ entry ∈ histories.toList, kept entry.1 entry.2 := fun entry hentry =>
    hhistories entry.1 entry.2 (Std.TreeMap.mem_toList_iff_getElem?_eq_some.mp hentry)
  rw [Std.TreeMap.foldl_eq_foldl_toList]
  clear hhistories
  generalize histories.toList = entries at hlist
  induction entries generalizing cache with
  | nil => exact h
  | cons entry rest ih =>
      have hfirst := hlist entry List.mem_cons_self
      exact ih (hstep cache h entry.1 entry.2 hfirst) fun other hother => hlist other (List.mem_cons_of_mem _ hother)

theorem HistoryCache.Kept.update (h : cache.Kept store) (hanswer : answer.Kept store) :
    (cache.update answer).Kept store := by
  cases answer with
  | cardHistories histories => exact h.foldl (fun _ hcache _ _ => hcache.updateCachedCardHistory) hanswer
  | tagHistories histories => exact h.foldl (fun _ hcache _ _ => hcache.updateCachedTagHistory) hanswer
  | sequenceHistory history => exact ⟨h.cards, h.tags, hanswer⟩
  | cardHistory id history => exact h.updateCachedCardHistory hanswer
  | tagHistory id history => exact h.updateCachedTagHistory hanswer

/-! ### Runs -/

structure HistoryWorld.Kept (world : HistoryWorld) : Prop where
  rootHistory : RootHistoryInvariant world.store
  readable : StoredAll Readable world.store.cards
  cache : world.cache.Kept world.store
  saved : world.saved.Kept world.store
  inFlight : ∀ answer ∈ world.inFlight, answer.Kept world.store

theorem HistoryWorld.kept_new : HistoryWorld.new.Kept where
  rootHistory := rootHistoryInvariant_initSchema
  readable := .empty
  cache := HistoryCache.kept_default _
  saved := HistoryCache.kept_default _
  inFlight _ h := by cases h

theorem HistoryWorld.Kept.step {world : HistoryWorld} (h : world.Kept) (step : HistoryStep) :
    (historyStep world step).Kept := by
  cases step with
  | call call =>
      have hgrows := grows_execute world.store call
      exact {
        rootHistory := h.rootHistory.execute call
        readable := readable_cards_execute h.readable call
        cache := h.cache.mono hgrows
        saved := h.saved.mono hgrows
        inFlight := fun answer hanswer => (h.inFlight answer hanswer).mono hgrows }
  | initialSync => exact { h with }
  | incrementalSync changes => exact { h with }
  | openHistory request => exact { h with }
  | answer index =>
      dsimp only [historyStep]
      cases hrequest : world.asked[index]? with
      | none => exact h
      | some request =>
          refine { h with inFlight := fun answer hanswer => ?_ }
          rcases List.mem_append.mp hanswer with hold | hnew
          · exact h.inFlight answer hold
          · exact HistoryRequest.kept_answer h.rootHistory (Option.mem_toList.mp hnew)
  | arrive index =>
      dsimp only [historyStep]
      cases hanswer : world.inFlight[index]? with
      | none => exact h
      | some answer =>
          exact { h with
            cache := h.cache.update (h.inFlight answer (List.mem_of_getElem? hanswer))
            inFlight := fun other hother => h.inFlight other (List.mem_of_mem_eraseIdx hother) }
  | lose index => exact { h with inFlight := fun other hother => h.inFlight other (List.mem_of_mem_eraseIdx hother) }
  | save => exact { h with saved := h.cache }
  | clear => exact { h with cache := HistoryCache.kept_default _, saved := HistoryCache.kept_default _ }
  | restart => exact { h with cache := h.saved, inFlight := fun _ hmem => nomatch hmem }

theorem HistoryWorld.kept_run (steps : List HistoryStep) : (Run.after historyStep .new steps).Kept :=
  Run.invariant HistoryWorld.Kept HistoryWorld.kept_new (fun _ step h => h.step step) steps

/-- Whatever is under way and however late an answer comes, the cache holds nothing that the server has not
had: of an entity that has not been deleted, versions it still has, in order from one end or the other, and of
the roots the oldest ones without a gap. -/
theorem cachedHistories_run (steps : List HistoryStep) :
    let world := Run.after historyStep .new steps
    (∀ id history, world.cache.cardHistories[id]? = some history →
        ∃ ascending, InSequence history ascending ∧ (world.store.isDeleted id = true ∨
          ∃ current, getCardHistory world.store id none = .ok current ∧ ascending.Sublist current)) ∧
      (∀ id history, world.cache.tagHistories[id]? = some history →
        ∃ ascending, InSequence history ascending ∧ (world.store.isDeleted id = true ∨
          ∀ current, getTagHistory world.store id none = .ok current → ascending.Sublist current)) ∧
      world.cache.sequenceHistory.map SequenceHistoryEntry.root <:+
        (getSequenceHistory world.store none none).map SequenceHistoryEntry.root := by
  intro world
  have h : world.Kept := HistoryWorld.kept_run steps
  refine ⟨fun id history hhistory => ?_, fun id history hhistory => ?_, ?_⟩
  · obtain ⟨ascending, horder, hkept⟩ := h.cache.cards id history hhistory
    obtain ⟨current, hcurrent⟩ := exists_history h.readable id none
    exact ⟨ascending, horder, hkept.imp_right fun hrecorded => ⟨current, hcurrent, hrecorded.sublist hcurrent⟩⟩
  · obtain ⟨ascending, horder, hkept⟩ := h.cache.tags id history hhistory
    exact ⟨ascending, horder, hkept.imp_right fun hrecorded _ hcurrent => hrecorded.sublist hcurrent⟩
  · obtain ⟨rows, hrows, hroots⟩ := h.cache.sequence
    rw [hroots, h.rootHistory.map_root]
    exact (List.reverse_suffix.mpr hrows).map _

end Kept

/-! ### What a panel shows -/

inductive CardChangeKind where
  | created
  | content
  | priority
  | tags
  | blazed
  | extinguished
  | dueDate
  | touched
  deriving DecidableEq

def cardChanges (prev : Option Card) (curr : Card) : List CardChangeKind :=
  match prev with
  | none => [.created]
  | some prev =>
      let changes : List CardChangeKind :=
        (if prev.content ≠ curr.content then [.content] else []) ++
          (if prev.priority ≠ curr.priority then [.priority] else []) ++
          (if prev.tags ≠ curr.tags then [.tags] else []) ++
          (if prev.blazed ≠ curr.blazed then [if curr.blazed then .blazed else .extinguished] else []) ++
          (if prev.dueDate ≠ curr.dueDate then [.dueDate] else [])
      if changes.isEmpty then [.touched] else changes

inductive TagChangeKind where
  | created
  | title
  | color
  | implies
  | touched
  deriving DecidableEq

def tagChanges (prev : Option Tag) (curr : Tag) : List TagChangeKind :=
  match prev with
  | none => [.created]
  | some prev =>
      let changes : List TagChangeKind :=
        (if prev.title ≠ curr.title then [.title] else []) ++
          (if prev.color ≠ curr.color then [.color] else []) ++
          (if prev.implies ≠ curr.implies then [.implies] else [])
      if changes.isEmpty then [.touched] else changes

section Kinds

variable {K : Type} {kind touched : K} {changes : List K}

theorem mem_ite_singleton {p : Prop} [Decidable p] {other : K} :
    kind ∈ (if p then [other] else []) ↔ p ∧ kind = other := by
  split
  next hp => rw [List.mem_singleton, and_iff_right hp]
  next hp => exact iff_of_false List.not_mem_nil fun h => hp h.1

theorem not_mem_or_touched (hkind : kind ∉ changes) (htouched : kind ≠ touched) :
    kind ∉ (if changes.isEmpty then [touched] else changes) := by
  split
  · exact fun hmem => htouched (List.mem_singleton.mp hmem)
  · exact hkind

end Kinds

theorem cardChanges_none_ne (prev curr : Card) : cardChanges none curr ≠ cardChanges (some prev) curr := by
  intro hsame
  have hcreated : CardChangeKind.created ∈ cardChanges (some prev) curr := hsame ▸ List.mem_singleton_self _
  apply not_mem_or_touched _ (by decide) hcreated
  simp only [List.mem_append, mem_ite_singleton]
  cases curr.blazed <;> simp

theorem tagChanges_none_ne (prev curr : Tag) : tagChanges none curr ≠ tagChanges (some prev) curr := by
  intro hsame
  have hcreated : TagChangeKind.created ∈ tagChanges (some prev) curr := hsame ▸ List.mem_singleton_self _
  apply not_mem_or_touched _ (by decide) hcreated
  simp only [List.mem_append, mem_ite_singleton]
  simp

section Labels

variable {E K : Type} [Stored E] {changes : Option E → E → List K} {history ascending : List E}

/-- Each version is compared with the next item of the list, and the last with none. -/
def tagged (changes : Option E → E → List K) (items : List E) : List (E × List K) :=
  items.mapIdx fun index version => (version, changes items[index + 1]? version)

def predecessor (items : List E) (version : E) : Option E :=
  ((items.filter fun other => countOf other < countOf version).orderBy countOf).getLast?

def LabelsRight (changes : Option E → E → List K) (items : List E) : Prop :=
  tagged changes items = items.map fun version => (version, changes (predecessor items version) version)

omit [Stored E] in
theorem tagged_cons (version : E) (rest : List E) :
    tagged changes (version :: rest) = (version, changes rest.head? version) :: tagged changes rest := by
  rw [tagged, List.mapIdx_cons, List.getElem?_cons_succ, ← List.head?_eq_getElem?]
  rfl

omit [Stored E] in
theorem getLast?_tagged (front : List E) (last : E) :
    (tagged changes (front ++ [last])).getLast? = some (last, changes none last) := by
  have hnone : (front ++ [last])[front.length + 1]? = none := by simp
  rw [tagged, List.mapIdx_concat, List.getLast?_concat, hnone]

theorem labelsRight_of_descending (hdescending : history.Pairwise fun a b => countOf b < countOf a) :
    LabelsRight changes history := by
  induction history with
  | nil => rfl
  | cons newest rest ih =>
      obtain ⟨hnewest, hrest⟩ := List.pairwise_cons.mp hdescending
      have hfirst : predecessor (newest :: rest) newest = rest.head? := by
        have hfilter : (newest :: rest).filter (fun other => countOf other < countOf newest) = rest := by
          rw [List.filter_cons_of_neg (by simp)]
          exact List.filter_eq_self.mpr fun other hother => decide_eq_true (hnewest other hother)
        rw [predecessor, hfilter, List.orderBy_eq_reverse hrest, List.getLast?_reverse]
      have hothers : ∀ version ∈ rest, predecessor (newest :: rest) version = predecessor rest version := by
        intro version hversion
        rw [predecessor, List.filter_cons_of_neg (by simpa using (hnewest version hversion).le)]
        rfl
      unfold LabelsRight
      rw [tagged_cons, List.map_cons, hfirst, ih hrest]
      congr 1
      apply List.map_congr_left
      intro version hversion
      rw [hothers version hversion]

/-- In a list that starts with the oldest version, the newest of several versions is shown as created. -/
theorem not_labelsRight_of_ascending (hcreated : ∀ prev curr, changes none curr ≠ changes (some prev) curr)
    {front : List E} {newest : E} (hfront : front ≠ [])
    (hascending : (front ++ [newest]).Pairwise fun a b => countOf a < countOf b) :
    ¬ LabelsRight changes (front ++ [newest]) := by
  intro hright
  obtain ⟨older, holder⟩ := List.exists_mem_of_ne_nil front hfront
  have hlower : countOf older < countOf newest :=
    (List.pairwise_append.mp hascending).2.2 older holder newest (List.mem_singleton_self newest)
  have hsome : (predecessor (front ++ [newest]) newest).isSome = true := by
    rw [predecessor, List.getLast?_isSome]
    have hmem : older ∈ (front ++ [newest]).filter fun other => countOf other < countOf newest :=
      List.mem_filter.mpr ⟨List.mem_append_left [newest] holder, decide_eq_true hlower⟩
    exact List.ne_nil_of_mem (List.mem_orderBy.mpr hmem)
  obtain ⟨prev, hprev⟩ := Option.isSome_iff_exists.mp hsome
  have hlast := congrArg List.getLast? hright
  rw [getLast?_tagged, List.map_append, List.map_singleton, List.getLast?_concat, hprev] at hlast
  exact hcreated prev newest (Prod.mk.inj (Option.some.inj hlast)).2

/-- Elsewhere the newest of several versions comes last and is compared with none. -/
theorem exists_newest_last (horder : InSequence history ascending)
    (hnot : ¬ history.Pairwise fun a b => countOf b < countOf a) :
    ∃ front newest, history = front ++ [newest] ∧ front ≠ [] ∧ (∀ older ∈ front, countOf older < countOf newest) ∧
      (tagged changes history).getLast? = some (newest, changes none newest) := by
  obtain ⟨hascending, rfl | rfl⟩ := horder
  · rcases List.eq_nil_or_concat' history with rfl | ⟨front, newest, rfl⟩
    · exact absurd .nil hnot
    · refine ⟨front, newest, rfl, ?_, fun older holder => ?_, getLast?_tagged front newest⟩
      · rintro rfl
        exact hnot (List.pairwise_singleton _ _)
      · exact (List.pairwise_append.mp hascending).2.2 older holder newest (List.mem_singleton_self newest)
  · exact absurd (List.pairwise_reverse.mpr hascending) hnot

/-- The labels are right exactly where the newest version comes first. -/
theorem labelsRight_iff (hcreated : ∀ prev curr, changes none curr ≠ changes (some prev) curr)
    (horder : InSequence history ascending) :
    LabelsRight changes history ↔ history.Pairwise fun a b => countOf b < countOf a := by
  refine ⟨fun hright => ?_, labelsRight_of_descending⟩
  obtain ⟨hascending, rfl | rfl⟩ := horder
  · rcases List.eq_nil_or_concat' history with rfl | ⟨front, newest, rfl⟩
    · exact .nil
    · rcases eq_or_ne front [] with rfl | hfront
      · exact List.pairwise_singleton _ _
      · exact absurd hright (not_labelsRight_of_ascending hcreated hfront hascending)
  · exact List.pairwise_reverse.mpr hascending

end Labels

/-- Of every history in the cache, the panel shows the right changes exactly where the newest version comes
first. Elsewhere it shows the newest one, which comes last, as created. -/
theorem cachedLabels_run [Blake3] (steps : List HistoryStep) :
    let world := Run.after historyStep .new steps
    (∀ (id : Uuid) (history : List Card), world.cache.cardHistories[id]? = some history →
        (LabelsRight cardChanges history ↔ history.Pairwise fun a b => countOf b < countOf a) ∧
          ((¬ history.Pairwise fun a b => countOf b < countOf a) →
            ∃ front newest, history = front ++ [newest] ∧ front ≠ [] ∧
              (∀ older ∈ front, countOf older < countOf newest) ∧
              (tagged cardChanges history).getLast? = some (newest, [.created]))) ∧
      ∀ (id : Uuid) (history : List Tag), world.cache.tagHistories[id]? = some history →
        (LabelsRight tagChanges history ↔ history.Pairwise fun a b => countOf b < countOf a) ∧
          ((¬ history.Pairwise fun a b => countOf b < countOf a) →
            ∃ front newest, history = front ++ [newest] ∧ front ≠ [] ∧
              (∀ older ∈ front, countOf older < countOf newest) ∧
              (tagged tagChanges history).getLast? = some (newest, [.created])) := by
  intro world
  have h : world.Kept := HistoryWorld.kept_run steps
  constructor
  · intro id history hhistory
    obtain ⟨ascending, horder, -⟩ := h.cache.cards id history hhistory
    exact ⟨labelsRight_iff cardChanges_none_ne horder, exists_newest_last horder⟩
  · intro id history hhistory
    obtain ⟨ascending, horder, -⟩ := h.cache.tags id history hhistory
    exact ⟨labelsRight_iff tagChanges_none_ne horder, exists_newest_last horder⟩

end BlazeList
