import BlazeList.Client.Flush
import BlazeList.Server.Pushes

/-!
# A sync from start to end

One incremental sync with the flush at its end, while nothing else changes the server or the client. A
card whose queue entry the flush drops stays as it is on the client, and the next sync sends it only if
the server has changed it since.
-/

namespace BlazeList

/-! ### The session -/

/-- What becomes of a request. A connection can break before the server has handled it, or after. -/
inductive Delivery where
  | answered
  | lostBefore
  | lostAfter

structure Turn where
  env : Env
  now : Int
  delivery : Delivery

structure SyncSession where
  store : Store
  client : ClientState
  progress : Progress

section

variable [Blake3]

/-- The store after a request, and what comes back. Nobody reads the answer of the device. -/
def exchange (store : Store) (turn : Turn) : Option Request → Store × Answer
  | none => (store, .error .connectionLost)
  | some request =>
      match turn.delivery with
      | .answered =>
          let (after, response) := handleRequest store turn.now request
          (after, .ok response)
      | .lostBefore => (store, .error .connectionLost)
      | .lostAfter => ((handleRequest store turn.now request).1, .error .connectionLost)

def SyncSession.of (store : Store) (state : ClientState × Progress) : SyncSession :=
  ⟨store, state.1, state.2⟩

def SyncSession.start (store : Store) (client : ClientState) : SyncSession :=
  .of store (runJobs client [.incrementalSync])

def SyncSession.step (session : SyncSession) (turn : Turn) : SyncSession :=
  match session.progress with
  | .waiting stage jobs =>
      let (store, answer) := exchange session.store turn stage.request?
      .of store (advance turn.env session.client stage jobs answer)
  | .finished | .panicked => session

end

/-- Each card of the client is the version of the server, whose root it has recorded, or is queued. -/
structure CleanClient (store : Store) (client : ClientState) : Prop where
  root : client.root = some store.rootState
  cards : ∀ card ∈ client.cards, card ∈ store.cards.entities ∨ card ∈ client.offlineQueue
  queueIds : (client.offlineQueue.map Card.id).Nodup

/-- Every card that the server has not changed since the client's root is known to the client. -/
def MissesNothing (store : Store) (since : Nat) (client : ClientState) : Prop :=
  ∀ row ∈ store.cards.live, row.rootSequenceAt ≤ since →
    row.entity.id ∈ client.cards.map Card.id ∨ row.entity.id ∈ client.offlineQueue.map Card.id

/-- The answer makes the flush drop the card: it is deleted, or its rebased version is refused. -/
def FlushStage.drops (answer : Answer) : FlushStage → Bool
  | .push =>
      match answer.intoRoot with
      | .error (.protocol (.pushFailed .alreadyDeleted)) => true
      | _ => false
  | .rebased _ =>
      match answer.intoRoot with
      | .ok _ | .error .connectionLost => false
      | .error _ => true
  | .fetch _ | .retry _ | .batch _ _ | .recreated _ => false

/-! ### What the next sync corrects -/

section Merge

variable {store : Store} {since : Nat} {id : Uuid} {cards : List Card} {changes : ChangeSet}

def AgreesAt (store : Store) (cards : List Card) (id : Uuid) : Prop :=
  (∀ card ∈ cards, card.id = id → card ∈ store.cards.entities) ∧
    ∀ card ∈ store.cards.entities, card.id = id → card ∈ cards

instance : Decidable (AgreesAt store cards id) := inferInstanceAs (Decidable (_ ∧ _))

/-- The server has changed or deleted the card after this point. -/
def Store.Resends (store : Store) (since : Nat) (id : Uuid) : Prop :=
  (∃ row ∈ store.cards.live, row.entity.id = id ∧ since < row.rootSequenceAt) ∨
    ∃ row ∈ store.deletedEntities, row.entity.id = id ∧ since < row.rootSequenceAt

/-- What is deleted is not live. -/
def Store.Buried (store : Store) : Prop :=
  ∀ row ∈ store.deletedEntities, store.cards.current row.entity.id = none

theorem eq_of_mem_entities {a b : Card} (ha : a ∈ store.cards.entities)
    (hb : b ∈ store.cards.entities) (hid : a.id = b.id) : a = b :=
  List.inj_on_of_nodup_map EntityTables.nodup_map_id ha hb hid

variable [Blake3]

theorem mem_changes_cards (hchanges : changesSince store since = .ok changes) {card : Card} :
    card ∈ changes.cards ↔ ∃ row ∈ store.cards.live, since < row.rootSequenceAt ∧ row.entity = card := by
  rw [eq_of_fromRows_cards (changesSince_eq_ok_iff.mp hchanges).1]
  exact EntityTables.mem_changedSince

theorem mem_changes_deleted (hchanges : changesSince store since = .ok changes) :
    id ∈ changes.deleted.map DeletedEntity.id ↔
      ∃ row ∈ store.deletedEntities, row.entity.id = id ∧ since < row.rootSequenceAt := by
  rw [(changesSince_eq_ok_iff.mp hchanges).2.2.1, List.map_map, List.mem_map]
  constructor
  · rintro ⟨row, hrow, rfl⟩
    obtain ⟨hmem, hlater⟩ := List.mem_filter.mp hrow
    exact ⟨row, hmem, rfl, of_decide_eq_true hlater⟩
  · rintro ⟨row, hrow, rfl, hlater⟩
    exact ⟨row, List.mem_filter.mpr ⟨hrow, decide_eq_true hlater⟩, rfl⟩

theorem resends_iff (hchanges : changesSince store since = .ok changes) :
    store.Resends since id ↔
      id ∈ changes.cards.map Card.id ∨ id ∈ changes.deleted.map DeletedEntity.id := by
  rw [mem_changes_deleted hchanges]
  refine or_congr_left ⟨?_, ?_⟩
  · rintro ⟨row, hrow, rfl, hlater⟩
    exact List.mem_map_of_mem ((mem_changes_cards hchanges).mpr ⟨row, hrow, hlater, rfl⟩)
  · intro hmem
    obtain ⟨card, hcard, rfl⟩ := List.mem_map.mp hmem
    obtain ⟨row, hrow, hlater, rfl⟩ := (mem_changes_cards hchanges).mp hcard
    exact ⟨row, hrow, rfl, hlater⟩

theorem nodup_changes_cards (hchanges : changesSince store since = .ok changes) :
    (changes.cards.map Card.id).Nodup := by
  rw [eq_of_fromRows_cards (changesSince_eq_ok_iff.mp hchanges).1]
  exact EntityTables.nodup_map_id_changedSince

omit [Blake3] in
theorem mem_applyCardChangeset {card : Card} :
    card ∈ applyCardChangeset cards changes ↔
      card ∈ (mergeChanges Card.id cards changes.deleted changes.cards).values :=
  (List.orderBy_perm _ _).mem_iff

omit [Blake3] in
theorem nodup_applyCardChangeset : ((applyCardChangeset cards changes).map Card.id).Nodup :=
  ((List.orderBy_perm _ _).map Card.id).nodup_iff.mpr (IndexMap.nodup _)

/-- The merge takes the server's version of a card that is sent, and else the client's. -/
theorem mem_of_mem_applyCardChangeset (hchanges : changesSince store since = .ok changes) {card : Card}
    (h : card ∈ applyCardChangeset cards changes) :
    card ∈ store.cards.entities ∧ store.Resends since card.id ∨
      card ∈ cards ∧ ¬ store.Resends since card.id := by
  rw [mem_applyCardChangeset, mergeChanges,
    IndexMap.mem_foldl_insert (nodup_changes_cards hchanges)] at h
  rcases h with hchanged | ⟨hkept, hfresh⟩
  · obtain ⟨row, hrow, hlater, rfl⟩ := (mem_changes_cards hchanges).mp hchanged
    exact .inl ⟨EntityTables.mem_entities.mpr ⟨row, hrow, rfl⟩, .inl ⟨row, hrow, rfl, hlater⟩⟩
  · rw [← List.foldl_map, IndexMap.mem_foldl_swapRemove] at hkept
    refine .inr ⟨IndexMap.mem_of_mem_ofList hkept.1, fun hresends => ?_⟩
    exact ((resends_iff hchanges).mp hresends).elim hfresh hkept.2

theorem mem_applyCardChangeset_of_resends (hchanges : changesSince store since = .ok changes)
    (hburied : store.Buried) {card : Card} (hcard : card ∈ store.cards.entities)
    (hresends : store.Resends since card.id) : card ∈ applyCardChangeset cards changes := by
  obtain ⟨row, hrow, rfl⟩ := EntityTables.mem_entities.mp hcard
  rw [mem_applyCardChangeset, mergeChanges,
    IndexMap.mem_foldl_insert (nodup_changes_cards hchanges)]
  rcases hresends with ⟨other, hother, hid, hlater⟩ | ⟨buried, hmem, hid, -⟩
  · obtain rfl := EntityTables.eq_of_id_eq hother hrow hid
    exact .inl ((mem_changes_cards hchanges).mpr ⟨other, hother, hlater, rfl⟩)
  · have hnone := hburied buried hmem
    rw [hid, ← Card.entity_id, EntityTables.current_of_mem hrow] at hnone
    cases hnone

/-- The merge keeps the ids of the client that are not sent. -/
theorem exists_mem_applyCardChangeset (hchanges : changesSince store since = .ok changes) {card : Card}
    (hcard : card ∈ cards) (hresends : ¬ store.Resends since card.id) :
    ∃ other ∈ applyCardChangeset cards changes, other.id = card.id := by
  rw [resends_iff hchanges, not_or] at hresends
  obtain ⟨other, hother, hid⟩ := @IndexMap.exists_mem_ofList _ _ Card.id _ _ _ hcard
  refine ⟨other, ?_, hid⟩
  rw [mem_applyCardChangeset, mergeChanges,
    IndexMap.mem_foldl_insert (nodup_changes_cards hchanges), ← List.foldl_map,
    IndexMap.mem_foldl_swapRemove, hid]
  exact .inr ⟨⟨hother, hresends.2⟩, hresends.1⟩

/-- A card that the client has right or that is sent is right after the merge. -/
theorem agreesAt_applyCardChangeset (hchanges : changesSince store since = .ok changes)
    (hburied : store.Buried) (h : AgreesAt store cards id ∨ store.Resends since id) :
    AgreesAt store (applyCardChangeset cards changes) id := by
  have hforth : ∀ card ∈ applyCardChangeset cards changes, card.id = id →
      card ∈ store.cards.entities := by
    intro card hcard hid
    rcases mem_of_mem_applyCardChangeset hchanges hcard with ⟨hserver, -⟩ | ⟨hclient, hresends⟩
    · exact hserver
    · exact (h.resolve_right (hid ▸ hresends)).1 card hclient hid
  refine ⟨hforth, fun card hcard hid => ?_⟩
  by_cases hresends : store.Resends since card.id
  · exact mem_applyCardChangeset_of_resends hchanges hburied hcard hresends
  · have hclient : card ∈ cards := (h.resolve_right (hid ▸ hresends)).2 card hcard hid
    obtain ⟨other, hother, hotherId⟩ := exists_mem_applyCardChangeset hchanges hclient hresends
    rwa [eq_of_mem_entities hcard (hforth other hother (hotherId.trans hid)) hotherId.symm]

theorem perm_of_agreesAt (hchanges : changesSince store since = .ok changes) (hburied : store.Buried)
    (h : ∀ id, AgreesAt store cards id ∨ store.Resends since id) :
    (applyCardChangeset cards changes).Perm store.cards.entities := by
  refine perm_of_nodup_map nodup_applyCardChangeset EntityTables.nodup_map_id fun card => ?_
  have hagrees := agreesAt_applyCardChangeset hchanges hburied (h card.id)
  exact ⟨fun hcard => hagrees.1 card hcard rfl, fun hcard => hagrees.2 card hcard rfl⟩

end Merge

/-! ### Own pushes -/

section Pushes

variable [Blake3] {store after : Store} {versions : List Card} {since : Nat} {id : Uuid}

theorem Accepts.resends (h : Accepts store versions after)
    (hsince : since ≤ store.rootState.sequence.val) {version : Card} (hversion : version ∈ versions) :
    after.Resends since version.id := by
  obtain ⟨row, hrow, hid, hstamp⟩ := h.stamped hversion
  exact .inl ⟨row, hrow, hid, by omega⟩

theorem Accepts.resends_mono (h : Accepts store versions after) (hburied : store.Buried)
    (hsince : since ≤ store.rootState.sequence.val) (hresends : store.Resends since id) :
    after.Resends since id := by
  rcases hresends with ⟨row, hrow, rfl, hlater⟩ | hdeleted
  · rcases h.tracked.cards.kept row hrow with ⟨new, hnew, hid⟩ | ⟨buried, hmem, hid, -⟩
    · refine .inl ⟨new, hnew, hid, ?_⟩
      rcases h.tracked.cards.unmarked new hnew with hmarked | hold
      · exact hsince.trans_lt (hmarked.resolve_left List.not_mem_nil)
      · rwa [EntityTables.eq_of_id_eq hold hrow hid]
    · rw [h.deletedEntities] at hmem
      have hnone := hburied buried hmem
      rw [hid, EntityTables.current_of_mem hrow] at hnone
      cases hnone
  · exact .inr (h.deletedEntities ▸ hdeleted)

omit [Blake3] in
theorem mem_entities_iff {card : Card} :
    card ∈ store.cards.entities ↔ store.cards.current card.id = some card := by
  rw [EntityTables.mem_entities, EntityTables.current_eq_some_iff]
  exact exists_congr fun row => and_congr_right fun _ => ⟨fun h => ⟨h, h ▸ rfl⟩, fun h => h.1⟩

theorem Accepts.agreesAt (h : Accepts store versions after) {cards : List Card}
    (hid : id ∉ versions.map Card.id) (hagrees : AgreesAt store cards id) : AgreesAt after cards id := by
  have hsame : ∀ card : Card, card.id = id →
      (card ∈ after.cards.entities ↔ card ∈ store.cards.entities) := by
    rintro card rfl
    rw [mem_entities_iff, mem_entities_iff, h.current_of_not_mem hid]
  exact ⟨fun card hcard hcardId => (hsame card hcardId).mpr (hagrees.1 card hcard hcardId),
    fun card hcard hcardId => hagrees.2 card ((hsame card hcardId).mp hcard) hcardId⟩

/-- A deleted card is not pushed again. -/
theorem Accepts.buried (h : Accepts store versions after) (hburied : store.Buried) : after.Buried := by
  obtain ⟨now, written, hcommitted⟩ := id h
  have hwritten : written.Buried := by
    refine hcommitted.writes.preserves Store.Buried hburied fun before item next hitem hbefore hpush => ?_
    obtain ⟨version, -, rfl⟩ := List.mem_map.mp hitem
    obtain ⟨cards, hpushed, rfl⟩ := pushSingle_eq_ok_iff.mp hpush
    intro row hrow
    dsimp only
    rw [hpushed.current, Card.entity_id, Function.update_of_ne, hbefore row hrow]
    rintro hid
    have hdeleted : before.isDeleted version.id = true := Store.isDeleted_iff.mpr ⟨row, hrow, hid⟩
    rw [← Card.entity_id, hpushed.notDeleted] at hdeleted
    cases hdeleted
  intro row hrow
  rw [h.deletedEntities, ← hcommitted.writes.deletedEntities_singles] at hrow
  rw [hcommitted.cards_eq, EntityTables.current_stampAll]
  exact hwritten row hrow

/-- But for the pending ids, the client shows what the server has, or the next sync sends it. -/
structure Synced (pending : List Uuid) (root : RootState) (store : Store) (client : ClientState) :
    Prop where
  recorded : client.root = some root
  point : ∃ earlier later, (Run.after execute initSchema earlier).rootState = root ∧
    store = Run.after execute initSchema (earlier ++ later)
  buried : store.Buried
  settled : ∀ id ∉ pending, AgreesAt store client.cards id ∨ store.Resends root.sequence.val id

variable {pending : List Uuid} {root : RootState} {client : ClientState}

theorem Synced.since_le (h : Synced pending root store client) :
    root.sequence.val ≤ store.rootState.sequence.val := by
  obtain ⟨earlier, later, rfl, rfl⟩ := h.point
  rw [Run.after_append]
  exact sequence_mono _ later

theorem Synced.getChangesSince (h : Synced pending root store client) :
    getChangesSince store root.sequence root.hash = changesSince store root.sequence.val := by
  obtain ⟨earlier, later, rfl, rfl⟩ := h.point
  rw [Run.after_append]
  exact getChangesSince_later earlier later

theorem Synced.accepts (h : Synced pending root store client) {call : Call}
    (hcall : after = execute store call) (haccepts : Accepts store versions after) :
    Synced pending root after client where
  recorded := h.recorded
  point := by
    obtain ⟨earlier, later, hroot, rfl⟩ := h.point
    refine ⟨earlier, later ++ [call], hroot, ?_⟩
    rw [← List.append_assoc, Run.after_append, hcall]
    rfl
  buried := haccepts.buried h.buried
  settled id hid := by
    by_cases hsent : id ∈ versions.map Card.id
    · obtain ⟨version, hversion, rfl⟩ := List.mem_map.mp hsent
      exact .inr (haccepts.resends h.since_le hversion)
    · exact (h.settled id hid).imp (haccepts.agreesAt hsent)
        (haccepts.resends_mono h.buried h.since_le)

/-- A card that the next sync sends can be shown in any version. -/
theorem Synced.upsertCard (h : Synced pending root store client) {card : Card}
    (hresends : store.Resends root.sequence.val card.id) :
    Synced pending root store (client.upsertCard card) where
  recorded := h.recorded
  point := h.point
  buried := h.buried
  settled id hid := by
    by_cases heq : id = card.id
    · exact .inr (heq ▸ hresends)
    · refine (h.settled id hid).imp_left fun hagrees => ⟨fun other hother hotherId => ?_,
        fun other hother hotherId => ?_⟩
      · rcases mem_replaceCard.mp hother with ⟨hmem, -⟩ | rfl
        · exact hagrees.1 other hmem hotherId
        · exact absurd hotherId.symm heq
      · refine mem_replaceCard.mpr (.inl ⟨hagrees.2 other hother hotherId, fun hsame => ?_⟩)
        exact heq (hotherId.symm.trans hsame)

theorem Synced.upsertCards (h : Synced pending root store client) {cards : List Card}
    (hresends : ∀ card ∈ cards, store.Resends root.sequence.val card.id) :
    Synced pending root store (cards.foldl ClientState.upsertCard client) := by
  induction cards generalizing client with
  | nil => exact h
  | cons card rest ih =>
      exact ih (h.upsertCard (hresends card List.mem_cons_self))
        fun other hother => hresends other (List.mem_cons_of_mem card hother)

/-- A pending id is settled. -/
theorem Synced.settle (h : Synced pending root store client) {fewer : List Uuid}
    (hfewer : ∀ id ∈ pending, id ∉ fewer →
      AgreesAt store client.cards id ∨ store.Resends root.sequence.val id) :
    Synced fewer root store client where
  recorded := h.recorded
  point := h.point
  buried := h.buried
  settled id hid := by
    by_cases hpending : id ∈ pending
    · exact hfewer id hpending hid
    · exact h.settled id hpending

end Pushes

/-! ### One answer -/

def FlushStage.versions (card : Card) : FlushStage → List Card
  | .push => [card]
  | .fetch _ => []
  | .retry version | .rebased version | .recreated version => [version]
  | .batch shifted version => shifted ++ [version]

def Answer.About (answer : Answer) (id : Uuid) : FlushStage → Prop
  | .push => ∀ latest, answer.intoRoot =
      .error (.protocol (.pushFailed (.cardAncestorMismatch latest))) → latest.id = id
  | .fetch _ => ∀ card, answer.intoCard = .ok card → card.id = id
  | .retry _ | .batch _ _ | .rebased _ | .recreated _ => True

inductive Turned (client : ClientState) (loop : FlushLoop) (card : Card) (stage : FlushStage)
    (answer : Answer) : ClientState × Next → Prop
  | panic : Turned client loop card stage answer (client, .panic)
  | again {next : FlushStage} (hid : ∀ version ∈ next.version? card, version.id = card.id) :
      Turned client loop card stage answer (client, .await (.flush loop card next) [])
  | accepted {root : RootState} (hroot : answer.intoRoot = .ok root)
      (hsent : card.id ∈ (stage.versions card).map Card.id) :
      Turned client loop card stage answer
        (continueFlush ((stage.versions card).foldl ClientState.upsertCard client) loop none false)
  | kept {entry : Card} {hit : Bool} (hentry : entry = card ∨ stage = .recreated entry) :
      Turned client loop card stage answer (continueFlush client loop (some entry) hit)
  | dropped (hdrops : stage.drops answer = true) :
      Turned client loop card stage answer (continueFlush client loop none false)

section

variable [Blake3] {env : Env} {client : ClientState} {loop : FlushLoop} {card : Card}
  {stage : FlushStage} {answer : Answer}

theorem turned_placeQueued {cards : List Card} {ancestor : Option Card}
    (hancestor : ∀ server ∈ ancestor, server.id = card.id) :
    Turned client loop card stage answer (placeQueued env client loop card cards ancestor) := by
  have hid : ∀ (version : Card) (priority : I64),
      rebuildCard env.now card priority ancestor = some version → version.id = card.id := by
    intro version priority hversion
    rw [(rebuilt_of_rebuildCard hversion).id]
    cases ancestor with
    | none => rfl
    | some server => exact hancestor server rfl
  unfold placeQueued
  split
  · split
    · rename_i retry hretry
      refine .again fun version hversion => ?_
      cases hversion
      exact hid retry _ hretry
    · exact .panic
  · split
    · rename_i retry shifted hretry hshifted
      refine .again fun version hversion => ?_
      cases hversion
      exact hid retry _ hretry
    · exact .panic

theorem turned_afterFlushPush (habout : answer.About card.id .push) :
    Turned client loop card .push answer (afterFlushPush env client loop card answer) := by
  unfold afterFlushPush
  split
  · rename_i root hroot
    exact .accepted hroot List.mem_cons_self
  · exact .kept (.inl rfl)
  · dsimp only
    split
    · exact .again fun version hversion => by cases hversion
    · exact turned_placeQueued fun server hserver => by cases hserver
  · rename_i latest hmismatch
    split
    · rename_i rebased hrebased
      refine .again fun version hversion => ?_
      cases hversion
      exact (rebuilt_of_rebuildCard hrebased).id.trans (habout latest hmismatch)
    · exact .panic
  · rw [rebuildCard_none]
    refine .again fun version hversion => ?_
    cases hversion
    exact (recreated_rebuilt card).id
  · rename_i hdeleted
    refine .dropped ?_
    rw [FlushStage.drops, hdeleted]
  · exact .kept (.inl rfl)

omit [Blake3] in
theorem turned_afterRetry {entry : Card} (hentry : entry = card ∨ stage = .recreated entry)
    (hsent : card.id ∈ (stage.versions card).map Card.id) :
    Turned client loop card stage answer
      (afterRetry client ((stage.versions card).foldl ClientState.upsertCard client) loop entry answer) := by
  unfold afterRetry
  split
  · rename_i root hroot
    exact .accepted hroot hsent
  · exact .kept hentry
  · exact .kept hentry

theorem turned_resumeFlush (habout : answer.About card.id stage)
    (hid : ∀ version ∈ stage.version? card, version.id = card.id) :
    Turned client loop card stage answer (resumeFlush env client loop card stage answer) := by
  cases stage with
  | push => exact turned_afterFlushPush habout
  | fetch cards =>
      unfold resumeFlush
      dsimp only
      split
      · rename_i server hserver
        refine turned_placeQueued fun other hother => ?_
        cases hother
        exact habout server hserver
      · exact .kept (.inl rfl)
      · exact .kept (.inl rfl)
  | retry version => exact turned_afterRetry (.inl rfl) (hid version rfl ▸ List.mem_cons_self)
  | batch shifted version =>
      have hcards : (shifted.foldl ClientState.upsertCard client).upsertCard version =
          ((FlushStage.batch shifted version).versions card).foldl ClientState.upsertCard client := by
        rw [FlushStage.versions, List.foldl_append]
        rfl
      unfold resumeFlush
      dsimp only
      rw [hcards]
      apply turned_afterRetry (.inl rfl)
      rw [← hid version rfl]
      exact List.mem_map_of_mem (List.mem_append_right shifted List.mem_cons_self)
  | rebased version =>
      unfold resumeFlush
      dsimp only
      split
      · rename_i root hroot
        exact .accepted hroot (hid version rfl ▸ List.mem_cons_self)
      · exact .kept (.inl rfl)
      · rename_i error hlost herror
        refine .dropped ?_
        rw [FlushStage.drops, herror]
        split
        · rename_i heq
          cases heq
        · rename_i heq
          exact absurd (Except.error.inj heq) hlost
        · rfl
  | recreated version =>
      exact turned_afterRetry (.inr rfl) (hid version rfl ▸ List.mem_cons_self)

/-! ### One exchange -/

variable {store : Store} {pending : List Uuid} {root : RootState}

omit [Blake3] in
theorem intoRoot_error (error : ProtocolError) :
    Answer.intoRoot (.ok (.error error)) = .error (.protocol error) := rfl

/-- After an exchange the client is as much in step as before, and what was accepted is sent again. -/
theorem Synced.exchange_sends (h : Synced pending root store client) (turn : Turn)
    {request : Request} {versions : List Card} (hsends : request.Sends versions) (hne : versions ≠ []) :
    Synced pending root (exchange store turn (some request)).1 client ∧
      ∀ state, (exchange store turn (some request)).2.intoRoot = .ok state →
        ∀ version ∈ versions,
          (exchange store turn (some request)).1.Resends root.sequence.val version.id := by
  obtain ⟨mutation, hmutation, -⟩ := id hsends
  have hcall : (handleRequest store turn.now request).1 = execute store ⟨mutation, turn.now⟩ := by
    rw [handleRequest_store, hmutation]
    rfl
  have houtcome := handleRequest_sends store turn.now hsends hne
  have hsynced : Synced pending root (handleRequest store turn.now request).1 client := by
    rcases houtcome with ⟨haccepts, -⟩ | ⟨hsame, -⟩
    · exact h.accepts hcall haccepts
    · exact hsame.symm ▸ h
  unfold exchange
  dsimp only
  split
  · refine ⟨hsynced, fun state hstate version hversion => ?_⟩
    rcases houtcome with ⟨haccepts, -⟩ | ⟨-, error, herror⟩
    · exact haccepts.resends h.since_le hversion
    · dsimp only at hstate
      rw [herror, intoRoot_error] at hstate
      cases hstate
  · exact ⟨h, fun state hstate => by cases hstate⟩
  · exact ⟨hsynced, fun state hstate => by cases hstate⟩

theorem exchange_fetch (store : Store) (turn : Turn) (id : Uuid) :
    (exchange store turn (some (.getCard id))).1 = store ∧
      ∀ card, (exchange store turn (some (.getCard id))).2.intoCard = .ok card → card.id = id := by
  have hstore : (handleRequest store turn.now (.getCard id)).1 = store := handleRequest_read rfl
  unfold exchange
  dsimp only
  split
  · refine ⟨hstore, fun card hcard => ?_⟩
    dsimp only at hcard
    cases hresponse : (handleRequest store turn.now (.getCard id)).2 with
    | card found =>
        rw [hresponse] at hcard
        obtain rfl := Except.ok.inj hcard
        exact (EntityTables.current_eq_some_iff.mp (handleRequest_getCard hresponse)).choose_spec.2.2
    | _ =>
        rw [hresponse] at hcard
        cases hcard
  · exact ⟨rfl, fun card hcard => by cases hcard⟩
  · exact ⟨hstore, fun card hcard => by cases hcard⟩

theorem exchange_push_about (store : Store) (turn : Turn) (card : Card) :
    (exchange store turn (some (.pushCardVersions [card]))).2.About card.id .push := by
  intro latest hlatest
  unfold exchange at hlatest
  dsimp only at hlatest
  split at hlatest
  · dsimp only at hlatest
    cases hresponse : (handleRequest store turn.now (.pushCardVersions [card])).2 with
    | error error =>
        rw [hresponse, intoRoot_error] at hlatest
        cases hlatest
        obtain ⟨hcurrent, -⟩ := handleRequest_mismatch hresponse
        exact (EntityTables.current_eq_some_iff.mp hcurrent).choose_spec.2.2
    | _ =>
        rw [hresponse] at hlatest
        cases hlatest
  · cases hlatest
  · cases hlatest

theorem Synced.exchange_flush (h : Synced pending root store client) (turn : Turn) :
    let result := exchange store turn (Stage.flush loop card stage).request?
    Synced pending root result.1 client ∧ result.2.About card.id stage ∧
      ∀ state, result.2.intoRoot = .ok state →
        ∀ version ∈ stage.versions card, result.1.Resends root.sequence.val version.id := by
  intro result
  cases stage with
  | push =>
      obtain ⟨hsynced, hresends⟩ :=
        h.exchange_sends turn (sends_single card) (List.cons_ne_nil _ _)
      exact ⟨hsynced, exchange_push_about store turn card, hresends⟩
  | fetch cards =>
      obtain ⟨hstore, hfetched⟩ := exchange_fetch store turn card.id
      exact ⟨hstore.symm ▸ h, hfetched, fun state _ version hversion => by cases hversion⟩
  | retry version =>
      obtain ⟨hsynced, hresends⟩ :=
        h.exchange_sends turn (sends_single version) (List.cons_ne_nil _ _)
      exact ⟨hsynced, trivial, hresends⟩
  | batch shifted version =>
      have hitems : singles (shifted ++ [version]) =
          (shifted.map fun version => PushItem.cards [version]) ++ [.cards [version]] := List.map_append
      have hne : shifted ++ [version] ≠ [] := List.append_ne_nil_of_right_ne_nil _ (List.cons_ne_nil _ _)
      obtain ⟨hsynced, hresends⟩ := h.exchange_sends turn (sends_batch (shifted ++ [version])) hne
      rw [hitems] at hsynced hresends
      exact ⟨hsynced, trivial, hresends⟩
  | rebased version =>
      obtain ⟨hsynced, hresends⟩ :=
        h.exchange_sends turn (sends_single version) (List.cons_ne_nil _ _)
      exact ⟨hsynced, trivial, hresends⟩
  | recreated version =>
      obtain ⟨hsynced, hresends⟩ :=
        h.exchange_sends turn (sends_single version) (List.cons_ne_nil _ _)
      exact ⟨hsynced, trivial, hresends⟩

theorem Synced.of_eq (h : Synced pending root store client) {other : ClientState}
    (hroot : other.root = client.root) (hcards : other.cards = client.cards) :
    Synced pending root store other where
  recorded := hroot.trans h.recorded
  point := h.point
  buried := h.buried
  settled id hid := hcards ▸ h.settled id hid

/-! ### The run of a session -/

def ids (cards : List Card) : List Uuid := cards.map Card.id

structure BeforeFlush (root : RootState) (store : Store) (client : ClientState) : Prop where
  synced : Synced (ids client.offlineQueue) root store client
  cards : ∀ card ∈ client.cards, card ∈ store.cards.entities ∨ card ∈ client.offlineQueue
  cardIds : (ids client.cards).Nodup
  queueIds : (ids client.offlineQueue).Nodup

inductive SessionInvariant : SyncSession → Prop
  | syncing {root : RootState} {store : Store} {client : ClientState}
      (hsynced : Synced (ids client.offlineQueue) root store client)
      (hcards : ∀ card ∈ client.cards, store.Resends root.sequence.val card.id ∨
        card ∈ store.cards.entities ∨ card ∈ client.offlineQueue)
      (hqueue : (ids client.offlineQueue).Nodup) :
      SessionInvariant ⟨store, client, .waiting (.getChanges (some root) false) []⟩
  | merged {root : RootState} {store : Store} {client : ClientState} {snapshot : LocalState}
      (hbefore : BeforeFlush root store client) :
      SessionInvariant ⟨store, client, .waiting (.saveState snapshot) [.flushOfflineQueue]⟩
  | looping {root : RootState} {store : Store} {client : ClientState} {loop : FlushLoop} {card : Card}
      {stage : FlushStage} (hsynced : Synced (ids (loop.remaining ++ card :: loop.rest)) root store client)
      (hid : ∀ version ∈ stage.version? card, version.id = card.id) :
      SessionInvariant ⟨store, client, .waiting (.flush loop card stage) []⟩
  | saving {root : RootState} {store : Store} {client : ClientState} {stage : Stage}
      (hsaving : stage.Saving) (hsynced : Synced (ids client.offlineQueue) root store client) :
      SessionInvariant ⟨store, client, .waiting stage []⟩
  | finished {root : RootState} {store : Store} {client : ClientState}
      (hsynced : Synced (ids client.offlineQueue) root store client) :
      SessionInvariant ⟨store, client, .finished⟩
  | panicked {store : Store} {client : ClientState} : SessionInvariant ⟨store, client, .panicked⟩

/-- A reconciled entry is dropped for a version of the server. -/
theorem BeforeFlush.reconciled (h : BeforeFlush root store client) :
    Synced (ids (reconcileOfflineQueue client.offlineQueue client.cards)) root store client := by
  refine h.synced.settle fun id hid hdropped => .inl ?_
  obtain ⟨entry, hentry, rfl⟩ := List.mem_map.mp hid
  have hnotKept : entry ∉ reconcileOfflineQueue client.offlineQueue client.cards :=
    fun hkept => hdropped (List.mem_map_of_mem hkept)
  rw [mem_reconcileOfflineQueue, not_and, not_not] at hnotKept
  obtain ⟨-, newer, hnewer, hnewerId, hcount⟩ := hnotKept hentry
  have hserver : newer ∈ store.cards.entities := by
    refine (h.cards newer hnewer).resolve_right fun hqueued => ?_
    obtain rfl := List.inj_on_of_nodup_map h.queueIds hqueued hentry hnewerId
    exact lt_irrefl _ hcount
  refine ⟨fun card hcard hcardId => ?_, fun card hcard hcardId => ?_⟩
  · rwa [List.inj_on_of_nodup_map h.cardIds hcard hnewer (hcardId.trans hnewerId.symm)]
  · rwa [eq_of_mem_entities hcard hserver (hcardId.trans hnewerId.symm)]

theorem BeforeFlush.flush (h : BeforeFlush root store client) :
    SessionInvariant (.of store (runJobs client [.flushOfflineQueue])) := by
  have hreconciled := h.reconciled
  unfold runJobs startJob flushOfflineQueue
  by_cases hempty : client.offlineQueue.isEmpty
  · rw [if_pos hempty]
    exact .finished h.synced
  · rw [if_neg hempty]
    cases hqueue : reconcileOfflineQueue client.offlineQueue client.cards with
    | nil =>
        rw [hqueue] at hreconciled
        exact .saving trivial (hreconciled.of_eq rfl rfl)
    | cons card rest =>
        rw [hqueue] at hreconciled
        refine .looping hreconciled fun version hversion => ?_
        cases hversion
        rfl

theorem sessionInvariant_saveLocalState (h : Synced (ids client.offlineQueue) root store client) :
    SessionInvariant (.of store (goOn [] (saveLocalState client []))) := by
  rcases saveLocalState_cases client [] with hdone | ⟨snapshot, hsave⟩
  · rw [hdone]
    exact .finished h
  · rw [hsave]
    exact .saving trivial h

theorem sessionInvariant_continueFlush {after : ClientState} {kept : Option Card} {hit : Bool}
    (h : Synced (ids (loop.remaining ++ kept.toList ++ loop.rest)) root store after) :
    SessionInvariant (.of store (goOn [] (continueFlush after loop kept hit))) := by
  unfold continueFlush
  dsimp only
  split
  · rename_i hrest
    rw [hrest, List.append_nil] at h
    exact .saving trivial (h.of_eq rfl rfl)
  · rename_i next rest hrest
    rw [hrest] at h
    split
    · exact .saving trivial (h.of_eq rfl rfl)
    · refine .looping h fun version hversion => ?_
      cases hversion
      rfl

/-- The flush drops a card only when the client shows what the server has. -/
def SyncSession.DropsSettled (session : SyncSession) (turn : Turn) : Prop :=
  match session.progress with
  | .waiting (.flush loop card stage) _ =>
      stage.drops (exchange session.store turn (Stage.flush loop card stage).request?).2 = true →
        AgreesAt session.store session.client.cards card.id
  | _ => True

omit [Blake3] in
theorem mem_ids_of_ne {remaining rest : List Card} {card : Card} {id : Uuid}
    (hid : id ∈ ids (remaining ++ card :: rest)) (hdropped : id ∉ ids (remaining ++ rest)) :
    id = card.id := by
  obtain ⟨entry, hentry, rfl⟩ := List.mem_map.mp hid
  rcases List.mem_append.mp hentry with hremaining | hentry
  · exact absurd (List.mem_map_of_mem (List.mem_append_left rest hremaining)) hdropped
  · rcases List.mem_cons.mp hentry with rfl | hrest
    · rfl
    · exact absurd (List.mem_map_of_mem (List.mem_append_right remaining hrest)) hdropped

theorem SessionInvariant.flushed
    (h : Synced (ids (loop.remaining ++ card :: loop.rest)) root store client)
    (hid : ∀ version ∈ stage.version? card, version.id = card.id) (turn : Turn)
    (hdrops : stage.drops (exchange store turn (Stage.flush loop card stage).request?).2 = true →
      AgreesAt store client.cards card.id) :
    SessionInvariant (.of (exchange store turn (Stage.flush loop card stage).request?).1
      (advance turn.env client (.flush loop card stage) []
        (exchange store turn (Stage.flush loop card stage).request?).2)) := by
  obtain ⟨hsynced, habout, hresends⟩ := @Synced.exchange_flush _ client loop card stage _ _ _ h turn
  have hdropped : ∀ hdrops : stage.drops
      (exchange store turn (Stage.flush loop card stage).request?).2 = true,
      Synced (ids (loop.remaining ++ loop.rest)) root
        (exchange store turn (Stage.flush loop card stage).request?).1 client := by
    intro hdrop
    refine (@Synced.exchange_flush _ client loop card stage _ _ _ (h.settle ?_) turn).1
    intro other hother hfresh
    rw [mem_ids_of_ne hother hfresh]
    exact .inl (hdrops hdrop)
  generalize exchange store turn (Stage.flush loop card stage).request? = result at *
  have hturned := @turned_resumeFlush _ turn.env client loop card stage result.2 habout hid
  unfold advance resume
  dsimp only
  generalize resumeFlush turn.env client loop card stage result.2 = outcome at hturned
  cases hturned with
  | panic => exact .panicked
  | again hnext => exact .looping hsynced hnext
  | accepted hroot hsent =>
      have hall := hresends _ hroot
      refine sessionInvariant_continueFlush ((hsynced.upsertCards hall).settle ?_)
      intro other hother hfresh
      rw [Option.toList_none, List.append_nil] at hfresh
      rw [mem_ids_of_ne hother hfresh]
      obtain ⟨version, hversion, hversionId⟩ := List.mem_map.mp hsent
      exact .inr (hversionId ▸ hall version hversion)
  | @kept entry hit hentry =>
      refine sessionInvariant_continueFlush (hsynced.settle ?_)
      intro other hother hfresh
      have hentryId : entry.id = card.id := by
        rcases hentry with rfl | hrecreated
        · rfl
        · exact hid entry (by rw [hrecreated]; rfl)
      have hsame : ids (loop.remaining ++ card :: loop.rest) =
          ids (loop.remaining ++ (some entry).toList ++ loop.rest) := by
        simp only [ids, Option.toList_some, List.append_assoc, List.map_append, List.map_cons,
          List.singleton_append, hentryId]
      exact absurd (hsame ▸ hother) hfresh
  | dropped hdrop =>
      have hsettled := hdropped hdrop
      rw [← List.append_nil loop.remaining, ← Option.toList_none] at hsettled
      exact sessionInvariant_continueFlush hsettled

/-- The changes are merged, and the client goes on to save them. -/
theorem Synced.merge (h : Synced (ids client.offlineQueue) root store client)
    (hcards : ∀ card ∈ client.cards, store.Resends root.sequence.val card.id ∨
      card ∈ store.cards.entities ∨ card ∈ client.offlineQueue)
    (hqueue : (ids client.offlineQueue).Nodup) {changes : ChangeSet}
    (hchanges : changesSince store root.sequence.val = .ok changes) :
    BeforeFlush store.rootState store (client.merge (some root) changes) where
  synced :=
    { recorded := congrArg some (changesSince_eq_ok_iff.mp hchanges).2.2.2
      point := by
        obtain ⟨earlier, later, -, hstore⟩ := h.point
        exact ⟨earlier ++ later, [], congrArg Store.rootState hstore.symm, by rw [List.append_nil, hstore]⟩
      buried := h.buried
      settled := fun id hid =>
        .inl (agreesAt_applyCardChangeset hchanges h.buried (h.settled id hid)) }
  cards card hcard := by
    rcases mem_of_mem_applyCardChangeset hchanges hcard with ⟨hserver, -⟩ | ⟨hclient, hresends⟩
    · exact .inl hserver
    · exact (hcards card hclient).resolve_left hresends
  cardIds := nodup_applyCardChangeset
  queueIds := hqueue

theorem BeforeFlush.save (h : BeforeFlush root store client) :
    SessionInvariant (.of store (goOn [] (saveLocalState client [.flushOfflineQueue]))) := by
  rcases saveLocalState_cases client [.flushOfflineQueue] with hdone | ⟨snapshot, hsave⟩
  · rw [hdone]
    exact h.flush
  · rw [hsave]
    exact .merged h

theorem SessionInvariant.synced (h : Synced (ids client.offlineQueue) root store client)
    (hcards : ∀ card ∈ client.cards, store.Resends root.sequence.val card.id ∨
      card ∈ store.cards.entities ∨ card ∈ client.offlineQueue)
    (hqueue : (ids client.offlineQueue).Nodup) (turn : Turn) :
    SessionInvariant (.of (exchange store turn (Stage.getChanges (some root) false).request?).1
      (advance turn.env client (.getChanges (some root) false) []
        (exchange store turn (Stage.getChanges (some root) false).request?).2)) := by
  have hlost : SessionInvariant (.of store
      (goOn [] (afterChanges client (some root) false (.error .connectionLost)))) := .finished h
  unfold exchange advance resume
  dsimp only [Stage.request?, Option.elim]
  split
  · unfold handleRequest
    dsimp only
    rw [h.getChangesSince]
    cases hchanges : changesSince store root.sequence.val with
    | ok changes => exact (h.merge hcards hqueue hchanges).save
    | error error =>
        cases error with
        | rootHashMismatch sequence hash => exact absurd hchanges changesSince_ne_rootHashMismatch
        | _ => exact .finished h
  · exact hlost
  · exact hlost

theorem SessionInvariant.step {session : SyncSession} (h : SessionInvariant session) (turn : Turn)
    (hdrops : session.DropsSettled turn) : SessionInvariant (session.step turn) := by
  cases h with
  | syncing hsynced hcards hqueue => exact .synced hsynced hcards hqueue turn
  | merged hbefore =>
      refine BeforeFlush.flush ⟨hbefore.synced.of_eq rfl rfl, hbefore.cards, hbefore.cardIds,
        hbefore.queueIds⟩
  | looping hsynced hid => exact .flushed hsynced hid turn hdrops
  | @saving root store client stage hsaving hsynced =>
      cases stage with
      | saveQueue queue => exact .finished (hsynced.of_eq rfl rfl)
      | saveRemaining queue flushed =>
          cases flushed with
          | false => exact .finished (hsynced.of_eq rfl rfl)
          | true => exact sessionInvariant_saveLocalState (hsynced.of_eq rfl rfl)
      | saveState snapshot => exact .finished (hsynced.of_eq rfl rfl)
      | _ => exact hsaving.elim
  | finished hsynced => exact .finished hsynced
  | panicked => exact .panicked

/-- A clean client of an earlier point of the run starts with nothing wrong but what is queued. -/
theorem CleanClient.start {isCard : Uuid → Prop} {earlier later : List Call}
    (happart : Run.Meets execute (AcceptsApart isCard) initSchema (earlier ++ later))
    (hclean : CleanClient (Run.after execute initSchema earlier) client)
    (hmisses : MissesNothing (Run.after execute initSchema (earlier ++ later))
      (Run.after execute initSchema earlier).rootState.sequence.val client) :
    SessionInvariant (.start (Run.after execute initSchema (earlier ++ later)) client) := by
  have htracked : StoreTracked .empty (Run.after execute initSchema earlier).rootState.sequence.val
      (Run.after execute initSchema earlier) (Run.after execute initSchema (earlier ++ later)) := by
    rw [Run.after_append]
    exact storeTracked_run (Run.meets_append.mp happart).2
  have hburied : (Run.after execute initSchema (earlier ++ later)).Buried := fun row hrow =>
    ((apartInvariant_run happart).buried row hrow).1
  generalize hbase : Run.after execute initSchema earlier = base at *
  generalize hstore : Run.after execute initSchema (earlier ++ later) = store at *
  -- what is not sent again is as it was
  have hsame : ∀ card : Card, ¬ store.Resends base.rootState.sequence.val card.id →
      (card ∈ store.cards.entities ↔ card ∈ base.cards.entities) := by
    intro card hresends
    rw [EntityTables.mem_entities, EntityTables.mem_entities]
    constructor
    · rintro ⟨row, hrow, rfl⟩
      rcases htracked.cards.unmarked row hrow with hmarked | hold
      · exact absurd (.inl ⟨row, hrow, rfl, hmarked.resolve_left List.not_mem_nil⟩) hresends
      · exact ⟨row, hold, rfl⟩
    · rintro ⟨row, hrow, rfl⟩
      rcases htracked.cards.kept row hrow with ⟨new, hnew, hid⟩ | ⟨buried, hmem, hid, hmarked⟩
      · rcases htracked.cards.unmarked new hnew with hmarked | hold
        · exact absurd (.inl ⟨new, hnew, hid, hmarked.resolve_left List.not_mem_nil⟩) hresends
        · exact ⟨new, hnew, congrArg EntityRow.entity (EntityTables.eq_of_id_eq hold hrow hid)⟩
      · exact absurd (.inr ⟨buried, hmem, hid, hmarked.resolve_left List.not_mem_nil⟩) hresends
  have hcards : ∀ card ∈ client.cards, store.Resends base.rootState.sequence.val card.id ∨
      card ∈ store.cards.entities ∨ card ∈ client.offlineQueue := by
    intro card hcard
    by_cases hresends : store.Resends base.rootState.sequence.val card.id
    · exact .inl hresends
    · exact .inr ((hclean.cards card hcard).imp_left (hsame card hresends).mpr)
  have hsynced : Synced (ids client.offlineQueue) base.rootState store client := by
    refine ⟨hclean.root, ⟨earlier, later, congrArg Store.rootState hbase, hstore.symm⟩, hburied, ?_⟩
    intro id hid
    by_cases hresends : store.Resends base.rootState.sequence.val id
    · exact .inr hresends
    · have hforth : ∀ card ∈ client.cards, card.id = id → card ∈ store.cards.entities := by
        rintro card hcard rfl
        refine ((hcards card hcard).resolve_left hresends).resolve_right fun hqueued => ?_
        exact hid (List.mem_map_of_mem hqueued)
      refine .inl ⟨hforth, ?_⟩
      rintro card hcard rfl
      obtain ⟨row, hrow, rfl⟩ := EntityTables.mem_entities.mp hcard
      have hold : row.rootSequenceAt ≤ base.rootState.sequence.val :=
        not_lt.mp fun hlater => hresends (.inl ⟨row, hrow, rfl, hlater⟩)
      obtain ⟨other, hother, hotherId⟩ := List.mem_map.mp ((hmisses row hrow hold).resolve_right hid)
      rwa [eq_of_mem_entities hcard (hforth other hother hotherId) hotherId.symm]
  have hstart : SyncSession.start store client =
      ⟨store, client, .waiting (.getChanges (some base.rootState) false) []⟩ := by
    unfold SyncSession.start runJobs startJob
    rw [hclean.root]
    rfl
  rw [hstart]
  exact .syncing hsynced hcards hclean.queueIds

end

/-- A sync that ends with nothing queued leaves the client such that one more sync shows exactly the
live cards of the server, unless the flush drops a card that the client still shows. -/
theorem cleanSync_run [Blake3] {isCard : Uuid → Prop} (earlier later : List Call)
    (happart : Run.Meets execute (AcceptsApart isCard) initSchema (earlier ++ later))
    (client : ClientState) (hclean : CleanClient (Run.after execute initSchema earlier) client)
    (hmisses : MissesNothing (Run.after execute initSchema (earlier ++ later))
      (Run.after execute initSchema earlier).rootState.sequence.val client)
    (turns : List Turn) (hdrops : Run.Meets SyncSession.step SyncSession.DropsSettled
      (.start (Run.after execute initSchema (earlier ++ later)) client) turns) :
    let session := Run.after SyncSession.step
      (.start (Run.after execute initSchema (earlier ++ later)) client) turns
    session.progress = .finished → session.client.offlineQueue = [] →
      ∀ changes, requestChanges session.store session.client.root = .ok changes →
        (session.client.merge session.client.root changes).cards.Perm session.store.cards.entities := by
  intro session hfinished hempty changes hchanges
  have hinv : SessionInvariant session := hdrops.invariant SessionInvariant
    (CleanClient.start happart hclean hmisses) fun _ turn h hturn => h.step turn hturn
  generalize session = final at *
  cases hinv with
  | @finished root store client hsynced =>
      dsimp only at hempty hchanges ⊢
      rw [hsynced.recorded, requestChanges, hsynced.getChangesSince] at hchanges
      rw [hsynced.recorded]
      refine perm_of_agreesAt hchanges hsynced.buried fun id => hsynced.settled id ?_
      rw [hempty]
      exact List.not_mem_nil
  | _ => cases hfinished

/-! ### Two syncs -/

instance (store : Store) (since : Nat) (client : ClientState) :
    Decidable (MissesNothing store since client) :=
  inferInstanceAs (Decidable (∀ row ∈ store.cards.live.rows, _))

instance [Blake3] (session : SyncSession) (turn : Turn) : Decidable (session.DropsSettled turn) :=
  match hprogress : session.progress with
  | .waiting (.flush loop card stage) _ =>
      decidable_of_iff
        (stage.drops (exchange session.store turn (Stage.flush loop card stage).request?).2 = true →
          AgreesAt session.store session.client.cards card.id)
        (by rw [SyncSession.DropsSettled, hprogress])
  | .waiting (.push _) _ | .waiting (.pushRebased _ _) _ | .waiting (.pushRecreated _ _) _
  | .waiting (.pushBatch _ _) _ | .waiting (.getChanges _ _) _ | .waiting .clearHistoryCache _
  | .waiting (.saveEntry _ _) _ | .waiting (.saveQueue _) _ | .waiting (.saveRemaining _ _) _
  | .waiting (.saveState _) _ | .finished | .panicked =>
      isTrue (by rw [SyncSession.DropsSettled, hprogress]; trivial)

def answeredTurns (count : Nat) : List Turn := List.replicate count ⟨sampleEnv, 0, .answered⟩

def movedOffline (priority : I64) : Card :=
  let edited := sampleEdit (sampleCard 1 ⟨7, seven_mem_i64⟩) "mine"
  (@Card.reprioritized polynomialBlake3 edited priority .epoch).getD edited

def offlineMover (calls : List Call) (priority : I64) : ClientState :=
  { sampleClient [movedOffline priority] [movedOffline priority] with
    root := some (Run.after (@execute polynomialBlake3) initSchema calls).rootState }

def oneCard : List Call := [⟨.pushCardVersions [sampleCard 1 ⟨7, seven_mem_i64⟩], 0⟩]

def anotherCard : List Call := [⟨.pushCardVersions [sampleCard 2 ⟨11, by decide⟩], 1⟩]

/-- The edit is rebased and accepted, and the next sync shows both cards. -/
theorem cleanSync_run_rebased :
    let _ := polynomialBlake3
    let client := offlineMover oneCard ⟨9, by decide⟩
    let session := Run.after SyncSession.step
      (.start (Run.after execute initSchema (oneCard ++ anotherCard)) client) (answeredTurns 6)
    ∃ changes, requestChanges session.store session.client.root = .ok changes ∧
      (session.client.merge session.client.root changes).cards.Perm session.store.cards.entities ∧
      session.store.cards.entities.map (fun card => (card.id, card.content)) = [(2, ""), (1, "mine")] := by
  have hagrees := @cleanSync_run polynomialBlake3 (fun _ => True) oneCard anotherCard (by decide +kernel)
    (offlineMover oneCard ⟨9, by decide⟩) ⟨by decide +kernel, by decide +kernel, by decide +kernel⟩
    (by decide +kernel) (answeredTurns 6) (by decide +kernel)
  intro _ client session
  have hcards : session.store.cards.entities.map (fun card => (card.id, card.content)) = [(2, ""), (1, "mine")] := by
    decide +kernel
  have hfinished : session.progress = .finished := Progress.isFinished_iff.mp (by decide +kernel)
  have hempty : session.client.offlineQueue = [] := by decide +kernel
  have hchanges : (requestChanges session.store session.client.root).toOption.isSome := by decide +kernel
  obtain ⟨changes, hsome⟩ := Option.isSome_iff_exists.mp hchanges
  have hok := Except.toOption_eq_some_iff.mp hsome
  exact ⟨changes, hok, hagrees hfinished hempty changes hok, hcards⟩

/-- Another client has taken the priority in the meantime. The rebased edit is dropped, and the client
goes on to show it. -/
theorem not_clean_takenPriority :
    let _ := polynomialBlake3
    let client := offlineMover oneCard ⟨11, by decide⟩
    let session := Run.after SyncSession.step
      (.start (Run.after execute initSchema (oneCard ++ anotherCard)) client) (answeredTurns 6)
    CleanClient (Run.after execute initSchema oneCard) client ∧
      session.progress = .finished ∧ session.client.offlineQueue = [] ∧
      ∃ changes, requestChanges session.store session.client.root = .ok changes ∧
        ¬ (session.client.merge session.client.root changes).cards.Perm
          session.store.cards.entities := by
  intro _ client session
  have hchanges : (requestChanges session.store session.client.root).toOption.map (fun changes =>
      decide ((session.client.merge session.client.root changes).cards.Perm
        session.store.cards.entities)) = some false := by decide +kernel
  obtain ⟨changes, hok, hfalse⟩ := Option.map_eq_some_iff.mp hchanges
  refine ⟨⟨by decide +kernel, by decide +kernel, by decide +kernel⟩,
    Progress.isFinished_iff.mp (by decide +kernel), by decide +kernel, changes,
    Except.toOption_eq_some_iff.mp hok, of_decide_eq_false hfalse⟩

end BlazeList
