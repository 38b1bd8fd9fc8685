import BlazeList.Client.BurstRuns
import BlazeList.Client.InFlight

/-!
# Deleted cards and the pipeline of moves

A flushed burst is pushed as a batch, then card by card, on other versions if need be, and what cannot be pushed is
queued. When a card is deleted, only the pending burst of the card itself is dropped. A version of it can still wait
in the burst of another card that shifted it, or in a task that is pushing an earlier burst.
-/

namespace BlazeList

/-! ### The pipeline -/

namespace ClientState

/-- The pending burst is dropped if it is of this card. -/
def discardFor (client : ClientState) (id : Uuid) : ClientState :=
  if client.pendingPriority.any fun burst => burst.base.id = id then
    { client with pendingPriority := none }
  else
    client

def removeCard (client : ClientState) (id : Uuid) : ClientState :=
  { client with cards := client.cards.filter fun card => card.id ≠ id }

end ClientState

/-- A deletion takes two steps, one before and one after the server has been asked. The server's own part is a
call like those of other clients. -/
inductive DeletionStep where
  | move (move : ShownMove) (debounced : Bool) (before after : Env)
  | flush (env : Env)
  | flushBlocking (env : Env)
  | discard (id : Uuid)
  | delete (id : Uuid)
  | call (call : Call)
  | connect (connected : Bool)
  | start (task : Nat) (env : Env)
  | handle (task : Nat) (now : Int)
  | deliver (task : Nat) (env : Env)
  | lose (task : Nat) (env : Env)

structure DeletionState where
  net : Network
  deleted : List Uuid

def ClientState.moveStep (client : ClientState) (move : ShownMove) (debounced : Bool) (before after : Env) :
    Option NetworkStep :=
  (client.cards.find? fun card => card.id = move.cardId).map fun current =>
    let placement := client.placementOf move
    .move current placement.priority (placement.siblingsWithPrev (move.view.shown client.cards)) debounced before
      move.env after

def DeletionStep.networkStep (client : ClientState) : DeletionStep → Option NetworkStep
  | .move shown debounced before after => client.moveStep shown debounced before after
  | .flush env => some (.flushBurst env)
  | .flushBlocking env => some (.flushBlocking env)
  | .discard _ | .delete _ => none
  | .call made => some (.foreign made)
  | .connect connected => some (.connect connected)
  | .start task env => some (.start task env)
  | .handle task now => some (.handle task now)
  | .deliver task env => some (.deliver task env)
  | .lose task env => some (.lose task env)

def DeletionState.step [Blake3] (state : DeletionState) (step : DeletionStep) : DeletionState :=
  match step with
  | .discard id => { state with net := { state.net with client := state.net.client.discardFor id } }
  | .delete id => ⟨{ state.net with client := state.net.client.removeCard id }, id :: state.deleted⟩
  | _ =>
      match step.networkStep state.net.client with
      | some step => { state with net := state.net.step step }
      | none => state

/-! ### What is on its way -/

def Task.sent : Task → List Card
  | .waiting stage _ _ => stage.sends.map Prod.snd
  | .started _ | .finished | .panicked | .orphaned _ => []

/-- The versions that the task has been given and has not done with. -/
def Task.held : Task → List Card
  | .started work => work.cards
  | .waiting stage jobs _ => stage.sends.map Prod.fst ++ jobs.flatMap Job.cards
  | .finished | .panicked | .orphaned _ => []

/-- When a card leaves the screen, neither the pending burst nor a task holds a version of it. -/
def DeletionState.Spares (state : DeletionState) : DeletionStep → Prop
  | .delete id =>
      (∀ burst ∈ state.net.client.pendingPriority, id ∉ burst.cards.map burstKey) ∧
        ∀ task ∈ state.net.tasks, id ∉ task.held.map Card.id
  | _ => True

/-- After the step no version of a deleted card is being pushed or shown, and none has come into the queue. -/
def DeletionState.StaysDeleted [Blake3] (state : DeletionState) (step : DeletionStep) : Prop :=
  ∀ id ∈ (state.step step).deleted,
    (∀ task ∈ (state.step step).net.tasks, id ∉ task.sent.map Card.id) ∧
      id ∉ (state.step step).net.client.cards.map Card.id ∧
      ∀ entry ∈ (state.step step).net.client.offlineQueue, entry.id = id →
        entry ∈ state.net.client.offlineQueue

/-! ### Cards that are allowed -/

section Within

variable (p : Uuid → Prop)

def Job.Within : Job → Prop
  | .pushCardOrQueue card => p card.id
  | .pushBurst primary siblings => ∀ card ∈ primary :: siblings, p card.id
  | .flushOfflineQueue | .incrementalSync | .recoverySync => False

def Work.Within : Work → Prop
  | .burst primary siblings | .stashed primary siblings => ∀ card ∈ primary :: siblings, p card.id
  | .push _ _ | .sync | .flush => False

def Stage.Within : Stage → Prop
  | .push card | .pushRebased card _ | .pushRecreated card _ => p card.id
  | .pushBatch primary siblings => ∀ card ∈ primary :: siblings, p card.id
  | .saveEntry _ _ | .saveQueue _ | .saveState _ => True
  | .flush _ _ _ | .getChanges _ _ | .clearHistoryCache | .saveRemaining _ _ => False

def Task.Within : Task → Prop
  | .started work => work.Within p
  | .waiting stage jobs _ => stage.Within p ∧ ∀ job ∈ jobs, job.Within p
  | .finished | .panicked | .orphaned _ => True

def Next.Within : Next → Prop
  | .await stage jobs => stage.Within p ∧ ∀ job ∈ jobs, job.Within p
  | .done jobs => ∀ job ∈ jobs, job.Within p
  | .panic => True

def PriorityBurst.Within (burst : PriorityBurst) : Prop := ∀ id ∈ burst.cards.map burstKey, p id

structure ClientState.Adds (before after : ClientState) : Prop where
  cards : ∀ card ∈ after.cards, card ∈ before.cards ∨ p card.id
  queue : ∀ entry ∈ after.offlineQueue, entry ∈ before.offlineQueue ∨ p entry.id
  burst : ∀ burst ∈ after.pendingPriority, burst ∈ before.pendingPriority ∨ burst.Within p

structure Network.Adds (net other : Network) : Prop where
  client : net.client.Adds p other.client
  tasks : ∀ task ∈ other.tasks, task ∈ net.tasks ∨ task.Within p

structure Network.Within (net : Network) : Prop where
  cards : ∀ card ∈ net.client.cards, p card.id
  burst : ∀ burst ∈ net.client.pendingPriority, burst.Within p
  tasks : ∀ task ∈ net.tasks, task.Within p

end Within

section

variable {p : Uuid → Prop} {client middle after : ClientState} {net other last : Network}

theorem ClientState.Adds.refl (client : ClientState) : client.Adds p client :=
  ⟨fun _ => .inl, fun _ => .inl, fun _ => .inl⟩

theorem ClientState.Adds.trans (h : client.Adds p middle) (hafter : middle.Adds p after) :
    client.Adds p after where
  cards card hcard := (hafter.cards card hcard).elim (h.cards card) .inr
  queue entry hentry := (hafter.queue entry hentry).elim (h.queue entry) .inr
  burst burst hburst := (hafter.burst burst hburst).elim (h.burst burst) .inr

theorem Network.Adds.trans (h : net.Adds p other) (hlast : other.Adds p last) : net.Adds p last where
  client := h.client.trans hlast.client
  tasks task htask := (hlast.tasks task htask).elim (h.tasks task) .inr

theorem Network.Within.of_adds (h : net.Within p) (hadds : net.Adds p other) : other.Within p where
  cards card hcard := (hadds.client.cards card hcard).elim (h.cards card) id
  burst burst hburst := (hadds.client.burst burst hburst).elim (h.burst burst) id
  tasks task htask := (hadds.tasks task htask).elim (h.tasks task) id

/-- It is enough to allow the cards that are on their way. -/
theorem Task.Within.imp {q : Uuid → Prop} {task : Task} (h : task.Within p)
    (hcards : ∀ card ∈ task.held, p card.id → q card.id) : task.Within q := by
  cases task with
  | started work =>
      cases work with
      | burst primary siblings => exact fun card hcard => hcards card hcard (h card hcard)
      | stashed primary siblings => exact fun card hcard => hcards card hcard (h card hcard)
      | push card flushNow => exact h
      | sync => exact h
      | flush => exact h
  | waiting stage jobs answer =>
      have hsent : ∀ pair ∈ stage.sends, p pair.1.id → q pair.1.id := fun pair hpair =>
        hcards pair.1 (List.mem_append_left _ (List.mem_map_of_mem hpair))
      refine ⟨?_, fun job hjob => ?_⟩
      · cases stage with
        | push card => exact hsent (card, card) List.mem_cons_self h.1
        | pushRebased card version => exact hsent (card, version) List.mem_cons_self h.1
        | pushRecreated card version => exact hsent (card, version) List.mem_cons_self h.1
        | pushBatch primary siblings =>
            exact fun card hcard => hsent (card, card) (List.mem_map_of_mem hcard) (h.1 card hcard)
        | saveEntry entry queue => trivial
        | saveQueue queue => trivial
        | saveState snapshot => trivial
        | flush loop card stage => exact h.1
        | getChanges root recovering => exact h.1
        | clearHistoryCache => exact h.1
        | saveRemaining queue flushed => exact h.1
      · have hjobs : ∀ card ∈ job.cards, p card.id → q card.id := fun card hcard =>
          hcards card (List.mem_append_right _ (List.mem_flatMap.mpr ⟨job, hjob, hcard⟩))
        have hwithin := h.2 job hjob
        cases job with
        | pushCardOrQueue card => exact hjobs card List.mem_cons_self hwithin
        | pushBurst primary siblings => exact fun card hcard => hjobs card hcard (hwithin card hcard)
        | flushOfflineQueue => exact hwithin
        | incrementalSync => exact hwithin
        | recoverySync => exact hwithin
  | finished => trivial
  | panicked => trivial
  | orphaned stage => trivial

/-- What is sent for a card is a version of it. -/
theorem Task.Within.sent {task : Task} {base : Card → Card → Prop} (h : task.Within p) (hbuilt : task.Built base)
    {version : Card} (hversion : version ∈ task.sent) : p version.id := by
  cases task with
  | waiting stage jobs answer =>
      obtain ⟨pair, hpair, rfl⟩ := List.mem_map.mp hversion
      rw [(hbuilt.1 pair hpair).id]
      have hstage := h.1
      cases stage with
      | push card =>
          obtain rfl := List.mem_singleton.mp hpair
          exact hstage
      | pushRebased card version =>
          obtain rfl := List.mem_singleton.mp hpair
          exact hstage
      | pushRecreated card version =>
          obtain rfl := List.mem_singleton.mp hpair
          exact hstage
      | pushBatch primary siblings =>
          obtain ⟨card, hcard, rfl⟩ := List.mem_map.mp hpair
          exact hstage card hcard
      | saveEntry entry queue => cases hpair
      | saveQueue queue => cases hpair
      | saveState snapshot => cases hpair
      | flush loop card stage => exact hstage.elim
      | getChanges root recovering => exact hstage.elim
      | clearHistoryCache => exact hstage.elim
      | saveRemaining queue flushed => exact hstage.elim
  | started work => cases hversion
  | finished => cases hversion
  | panicked => cases hversion
  | orphaned stage => cases hversion

/-! ### The client alone -/

theorem mem_foldl_replaceCard {versions cards : List Card} {card : Card}
    (h : card ∈ versions.foldl replaceCard cards) : card ∈ versions ∨ card ∈ cards := by
  induction versions generalizing cards with
  | nil => exact .inr h
  | cons version rest ih =>
      rcases ih h with hrest | hcards
      · exact .inl (List.mem_cons_of_mem _ hrest)
      · rcases mem_replaceCard.mp hcards with ⟨hold, -⟩ | rfl
        · exact .inr hold
        · exact .inl List.mem_cons_self

theorem ClientState.adds_upsertCard {version : Card} (h : p version.id) :
    client.Adds p (client.upsertCard version) := by
  refine ⟨fun card hcard => ?_, fun _ => .inl, fun _ => .inl⟩
  rcases mem_replaceCard.mp hcard with ⟨hold, -⟩ | rfl
  · exact .inl hold
  · exact .inr h

theorem ClientState.adds_dropEntries (client : ClientState) (ids : List Uuid) :
    client.Adds p (client.dropEntries ids) :=
  ⟨fun _ => .inl, fun _ hentry => .inl (List.mem_of_mem_filter hentry), fun _ => .inl⟩

theorem adds_queueCard {entry : Card} (h : p entry.id) : client.Adds p (queueCard client entry).1 := by
  refine ⟨fun _ => .inl, fun other hother => ?_, fun _ => .inl⟩
  rcases mem_replaceCard.mp hother with ⟨hold, -⟩ | rfl
  · exact .inl hold
  · exact .inr h

theorem within_pushCardOrQueue {card : Card} (h : p card.id) :
    client.Adds p (pushCardOrQueue client card).1 ∧ (pushCardOrQueue client card).2.Within p := by
  unfold pushCardOrQueue
  split
  · exact ⟨.refl client, h⟩
  · exact ⟨adds_queueCard h, trivial⟩

theorem within_startJob {job : Job} {stage : Stage} {jobs : List Job} (hjob : job.Within p)
    (h : startJob client job = (after, some (stage, jobs))) :
    client.Adds p after ∧ stage.Within p ∧ ∀ job ∈ jobs, job.Within p := by
  cases job with
  | pushCardOrQueue card =>
      have hpush : client.Adds p (pushCardOrQueue client card).1 ∧ (pushCardOrQueue client card).2.Within p :=
        within_pushCardOrQueue hjob
      cases h
      exact ⟨hpush.1, hpush.2, fun _ hnil => absurd hnil List.not_mem_nil⟩
  | pushBurst primary siblings =>
      have hpush : client.Adds p (pushCardOrQueue client primary).1 ∧ (pushCardOrQueue client primary).2.Within p :=
        within_pushCardOrQueue (hjob primary List.mem_cons_self)
      unfold startJob pushBurst at h
      dsimp only at h
      split at h
      · cases h
        refine ⟨hpush.1, hpush.2, fun job hmem => ?_⟩
        obtain ⟨sibling, hsibling, rfl⟩ := List.mem_map.mp hmem
        exact hjob sibling (List.mem_cons_of_mem _ hsibling)
      · cases h
        exact ⟨.refl client, hjob, fun _ hnil => absurd hnil List.not_mem_nil⟩
  | flushOfflineQueue => exact hjob.elim
  | incrementalSync => exact hjob.elim
  | recoverySync => exact hjob.elim

theorem within_runJobs {jobs : List Job} (hjobs : ∀ job ∈ jobs, job.Within p) :
    client.Adds p (runJobs client jobs).1 ∧ (runJobs client jobs).2.task.Within p := by
  cases jobs with
  | nil => exact ⟨.refl client, trivial⟩
  | cons job rest =>
      have hrest : ∀ job ∈ rest, job.Within p := fun other hother => hjobs other (List.mem_cons_of_mem _ hother)
      have hjob := hjobs job List.mem_cons_self
      unfold runJobs
      split
      · rename_i after stage more hstart
        obtain ⟨hadds, hstage, hmore⟩ := within_startJob hjob hstart
        refine ⟨hadds, hstage, fun other hother => ?_⟩
        exact (List.mem_append.mp hother).elim (hmore other) (hrest other)
      · -- every call of the pipeline waits for something
        rename_i after hstart
        cases job with
        | pushCardOrQueue card => cases hstart
        | pushBurst primary siblings => cases hstart
        | flushOfflineQueue => exact hjob.elim
        | incrementalSync => exact hjob.elim
        | recoverySync => exact hjob.elim

theorem within_goOn {jobs : List Job} (hjobs : ∀ job ∈ jobs, job.Within p) {state : ClientState × Next}
    (hadds : client.Adds p state.1) (hnext : state.2.Within p) :
    client.Adds p (goOn jobs state).1 ∧ (goOn jobs state).2.task.Within p := by
  obtain ⟨middle, next⟩ := state
  cases next with
  | await stage more =>
      refine ⟨hadds, hnext.1, fun job hjob => ?_⟩
      exact (List.mem_append.mp hjob).elim (hnext.2 job) (hjobs job)
  | done more =>
      have hall : ∀ job ∈ more ++ jobs, job.Within p := fun job hjob =>
        (List.mem_append.mp hjob).elim (hnext job) (hjobs job)
      obtain ⟨hrun, htask⟩ := @within_runJobs p middle _ hall
      exact ⟨hadds.trans hrun, htask⟩
  | panic => exact ⟨hadds, trivial⟩

/-! ### One answer -/

theorem within_awaitQueued {entry : Card} (h : p entry.id) :
    client.Adds p (awaitQueued client entry).1 ∧ (awaitQueued client entry).2.Within p :=
  ⟨adds_queueCard h, trivial, fun _ hnil => absurd hnil List.not_mem_nil⟩

theorem within_clearQueuedCard (client : ClientState) (id : Uuid) :
    client.Adds p (clearQueuedCard client id).1 ∧ (clearQueuedCard client id).2.Within p := by
  have hnone : ∀ job ∈ ([] : List Job), job.Within p := fun _ hnil => absurd hnil List.not_mem_nil
  unfold clearQueuedCard
  split
  · exact ⟨client.adds_dropEntries [id], trivial, hnone⟩
  · exact ⟨.refl client, hnone⟩

theorem within_saveLocalState (client : ClientState) :
    client.Adds p (saveLocalState client []).1 ∧ (saveLocalState client []).2.Within p := by
  have hnone : ∀ job ∈ ([] : List Job), job.Within p := fun _ hnil => absurd hnil List.not_mem_nil
  unfold saveLocalState
  split
  · exact ⟨.refl client, hnone⟩
  · exact ⟨.refl client, trivial, hnone⟩

theorem within_upserted {version : Card} {id : Uuid} (h : p version.id) :
    client.Adds p (clearQueuedCard (client.upsertCard version) id).1 ∧
      (clearQueuedCard (client.upsertCard version) id).2.Within p := by
  obtain ⟨hadds, hnext⟩ := within_clearQueuedCard (p := p) (client.upsertCard version) id
  exact ⟨(ClientState.adds_upsertCard h).trans hadds, hnext⟩

variable [Blake3] {base : Card → Card → Prop} {env : Env}

theorem within_afterPush {card : Card} {answer : Answer} (h : p card.id) :
    client.Adds p (afterPush env client card answer).1 ∧ (afterPush env client card answer).2.Within p := by
  unfold afterPush
  split
  · exact within_clearQueuedCard client card.id
  · split
    · exact ⟨.refl client, h, fun _ hnil => absurd hnil List.not_mem_nil⟩
    · exact ⟨.refl client, trivial⟩
  · split
    · exact ⟨.refl client, h, fun _ hnil => absurd hnil List.not_mem_nil⟩
    · exact ⟨.refl client, trivial⟩
  · exact within_awaitQueued h

/-- An answer leads to nothing but versions of the cards that the task is about. -/
theorem within_resume {stage : Stage} {answer : Answer} (h : stage.Within p) (hbuilt : stage.Built base) :
    client.Adds p (resume env client stage answer).1 ∧ (resume env client stage answer).2.Within p := by
  cases stage with
  | push card => exact within_afterPush h
  | pushRebased card version =>
      have hversion : p version.id := by
        rw [(hbuilt (card, version) List.mem_cons_self).id]
        exact h
      unfold resume afterRebased
      dsimp only
      split
      · exact within_upserted hversion
      · exact within_awaitQueued h
  | pushRecreated card version =>
      have hversion : p version.id := by
        rw [(hbuilt (card, version) List.mem_cons_self).id]
        exact h
      unfold resume afterRecreated
      dsimp only
      split
      · exact within_upserted hversion
      · exact within_awaitQueued hversion
  | pushBatch primary siblings =>
      unfold resume afterBatch
      dsimp only
      split
      · exact ⟨client.adds_dropEntries _, trivial, fun _ hnil => absurd hnil List.not_mem_nil⟩
      · refine ⟨.refl client, fun job hjob => ?_⟩
        obtain ⟨card, hcard, rfl⟩ := List.mem_map.mp hjob
        exact h card hcard
  | saveEntry entry queue =>
      obtain ⟨hadds, hnext⟩ := within_saveLocalState (p := p) { client with files := { client.files with queue } }
      exact ⟨⟨hadds.cards, hadds.queue, hadds.burst⟩, hnext⟩
  | saveQueue queue =>
      exact ⟨⟨fun _ => .inl, fun _ => .inl, fun _ => .inl⟩, fun _ hnil => absurd hnil List.not_mem_nil⟩
  | saveState snapshot =>
      exact ⟨⟨fun _ => .inl, fun _ => .inl, fun _ => .inl⟩, fun _ hnil => absurd hnil List.not_mem_nil⟩
  | flush loop card stage => exact h.elim
  | getChanges root recovering => exact h.elim
  | clearHistoryCache => exact h.elim
  | saveRemaining queue flushed => exact h.elim

end

/-! ### The network -/

section

variable {p : Uuid → Prop} {net : Network}

theorem Network.Adds.refl (net : Network) : net.Adds p net := ⟨.refl net.client, fun _ => .inl⟩

theorem Network.adds_advanced (task : Nat) {state : ClientState × Progress} (hadds : net.client.Adds p state.1)
    (htask : state.2.task.Within p) : net.Adds p (net.advanced task state) := by
  refine ⟨hadds, fun other hother => ?_⟩
  rcases List.mem_or_eq_of_mem_set hother with hold | rfl
  · exact .inl hold
  · exact .inr htask

theorem Network.adds_task {other : Network} {task : Task} (hadds : net.client.Adds p other.client)
    (htasks : other.tasks = net.tasks ++ [task]) (htask : task.Within p) : net.Adds p other := by
  refine ⟨hadds, fun old hold => ?_⟩
  rw [htasks] at hold
  rcases List.mem_append.mp hold with hmem | hnew
  · exact .inl hmem
  · exact .inr (List.mem_singleton.mp hnew ▸ htask)

theorem ClientState.adds_foldl_upsertCard {client : ClientState} {versions : List Card}
    (h : ∀ version ∈ versions, p version.id) :
    client.Adds p (versions.foldl ClientState.upsertCard client) := by
  induction versions generalizing client with
  | nil => exact .refl client
  | cons version rest ih =>
      exact (adds_upsertCard (h version List.mem_cons_self)).trans
        (ih fun other hother => h other (List.mem_cons_of_mem _ hother))

/-- The burst of a move holds the moved card, its siblings, and what it held before. -/
theorem ClientState.within_burstOf {client : ClientState} {prevCard : Card} {newPriority : I64}
    {siblingsWithPrev : List (Card × I64)} (hcard : p prevCard.id)
    (hsiblings : ∀ id ∈ siblingsWithPrev.map burstKey, p id)
    (hpending : ∀ burst ∈ client.pendingPriority, burst.Within p) :
    (client.burstOf prevCard newPriority siblingsWithPrev).Within p := by
  intro id hid
  rcases List.mem_cons.mp hid with rfl | hmem
  · rw [burstKey, client.base_burstOf prevCard newPriority siblingsWithPrev]
    exact hcard
  · unfold burstOf PriorityBurst.applyMove at hmem
    rcases mem_keys_foldl_recordSibling.mp hmem with hmove | hold
    · exact hsiblings id hmove
    · cases hburst : client.pendingPriority with
      | none =>
          rw [hburst] at hold
          cases hold
      | some burst =>
          rw [hburst] at hold
          dsimp only at hold
          split at hold
          · exact hpending burst hburst id (List.mem_cons_of_mem _ hold)
          · cases hold

theorem Placement.mem_of_siblingsWithPrev {placement : Placement} {allCards : List Card} {id : Uuid}
    (h : id ∈ (placement.siblingsWithPrev allCards).map burstKey) : ∃ card ∈ allCards, card.id = id := by
  obtain ⟨move, hmove, rfl⟩ := List.mem_map.mp h
  obtain ⟨⟨other, priority⟩, -, hfind⟩ := List.mem_filterMap.mp hmove
  obtain ⟨card, hcard, rfl⟩ := Option.map_eq_some_iff.mp hfind
  exact ⟨card, List.mem_of_find?_eq_some hcard, rfl⟩

variable [Blake3]

theorem PriorityBurst.Within.versions {burst : PriorityBurst} {env : Env} {primary : Card} {siblings : List Card}
    (h : burst.Within p) (hbuilt : burst.buildVersions env = some (primary, siblings)) :
    ∀ card ∈ primary :: siblings, p card.id :=
  fun card hcard => h card.id ((PriorityBurst.mem_keys_versions hbuilt).mp (List.mem_map_of_mem hcard))

namespace Network

theorem Within.flushBurst (h : net.Within p) (env : Env) : net.Adds p (net.flushBurst env) := by
  unfold Network.flushBurst flushSyncTake
  cases hpending : net.client.pendingPriority with
  | none => exact .refl net
  | some burst =>
      have htaken : net.client.Adds p { net.client with pendingPriority := none } :=
        ⟨fun _ => .inl, fun _ => .inl, fun _ hnone => by cases hnone⟩
      dsimp only
      cases hbuilt : burst.buildVersions env with
      | none => exact adds_task htaken rfl trivial
      | some versions => exact adds_task htaken rfl ((h.burst burst hpending).versions hbuilt)

theorem Within.flushBlocking (h : net.Within p) (env : Env) : net.Adds p (net.flushBlocking env) := by
  unfold Network.flushBlocking flushSyncTake
  cases hpending : net.client.pendingPriority with
  | none => exact .refl net
  | some burst =>
      dsimp only
      cases hbuilt : burst.buildVersions env with
      | none => exact adds_task ⟨fun _ => .inl, fun _ => .inl, fun _ hnone => by cases hnone⟩ rfl trivial
      | some versions =>
          have hversions := (h.burst burst hpending).versions hbuilt
          refine adds_task ⟨fun _ => .inl, fun entry hentry => ?_, fun _ hnone => by cases hnone⟩ rfl hversions
          exact (mem_foldl_replaceCard hentry).symm.imp_right (hversions entry)

variable {prevCard : Card} {newPriority : I64} {siblingsWithPrev : List (Card × I64)}

theorem Within.recordMove (h : net.Within p) (hcard : p prevCard.id)
    (hsiblings : ∀ id ∈ siblingsWithPrev.map burstKey, p id) (env : Env) :
    net.Adds p (net.recordMove prevCard newPriority siblingsWithPrev env) := by
  have hburst : (net.client.burstOf prevCard newPriority siblingsWithPrev).Within p :=
    ClientState.within_burstOf hcard hsiblings h.burst
  have hpending : net.client.Adds p
      { net.client with pendingPriority := some (net.client.burstOf prevCard newPriority siblingsWithPrev) } :=
    ⟨fun _ => .inl, fun _ => .inl, fun _ hsome => .inr (Option.some.inj hsome ▸ hburst)⟩
  unfold Network.recordMove
  dsimp only
  cases hbuilt : (net.client.burstOf prevCard newPriority siblingsWithPrev).buildVersions env with
  | none => exact adds_task hpending rfl trivial
  | some versions =>
      exact ⟨hpending.trans (ClientState.adds_foldl_upsertCard (hburst.versions hbuilt)), fun _ => .inl⟩

theorem Within.enqueueMove (h : net.Within p) (hcard : p prevCard.id)
    (hsiblings : ∀ id ∈ siblingsWithPrev.map burstKey, p id) (debounced : Bool) (before shown after : Env) :
    net.Adds p (net.enqueueMove prevCard newPriority siblingsWithPrev debounced before shown after) := by
  unfold Network.enqueueMove
  dsimp only
  have hbefore : net.Adds p (if net.client.bursting prevCard.id then net.flushBurst before else net) := by
    split
    · exact h.flushBurst before
    · exact .refl net
  have hrecorded : net.Adds p ((if net.client.bursting prevCard.id then net.flushBurst before else net).recordMove
      prevCard newPriority siblingsWithPrev shown) :=
    hbefore.trans ((h.of_adds hbefore).recordMove hcard hsiblings shown)
  split
  · exact hrecorded
  · exact hrecorded.trans ((h.of_adds hrecorded).flushBurst after)

theorem adds_start {work : Work} (hwork : work.Within p) (task : Nat) (env : Env) :
    net.Adds p (net.start task env work) := by
  cases work with
  | burst primary siblings =>
      obtain ⟨hadds, htask⟩ := @within_runJobs p net.client [.pushBurst primary siblings]
        fun job hjob => by
          obtain rfl := List.mem_singleton.mp hjob
          exact hwork
      exact adds_advanced task hadds htask
  | stashed primary siblings =>
      refine adds_advanced task (.refl net.client) ⟨trivial, fun job hjob => ?_⟩
      obtain rfl := List.mem_singleton.mp hjob
      exact hwork
  | push card flushNow => exact hwork.elim
  | sync => exact hwork.elim
  | flush => exact hwork.elim

theorem Within.handle (h : net.Within p) (task : Nat) (now : Int) (request : Request) :
    net.Adds p (net.handle task now request) := by
  refine ⟨.refl net.client, fun other hother => ?_⟩
  rcases mem_modify_cases hother with hold | ⟨old, hold, rfl⟩
  · exact .inl hold
  · have hwithin := h.tasks old (List.mem_of_getElem? hold)
    cases old with
    | waiting stage jobs answer => exact .inr hwithin
    | started work => exact .inr hwithin
    | finished => exact .inr trivial
    | panicked => exact .inr trivial
    | orphaned stage => exact .inr trivial

variable {task : Nat} {stage : Stage} {jobs : List Job} {answer : Option Response}

theorem Within.advance (h : net.Within p) (hsound : net.Sound)
    (htask : net.tasks[task]? = some (.waiting stage jobs answer)) (env : Env) (delivered : Answer) :
    net.Adds p (net.advanced task (advance env net.client stage jobs delivered)) := by
  have hwithin := h.tasks _ (List.mem_of_getElem? htask)
  have hbuilt := hsound.built _ (List.mem_of_getElem? htask)
  have hresumed : net.client.Adds p (resume env net.client stage delivered).1 ∧
      (resume env net.client stage delivered).2.Within p := within_resume hwithin.1 hbuilt.1
  obtain ⟨hclient, hstage⟩ := within_goOn hwithin.2 hresumed.1 hresumed.2
  exact adds_advanced task hclient hstage

theorem Within.deliver (h : net.Within p) (hsound : net.Sound)
    (htask : net.tasks[task]? = some (.waiting stage jobs answer)) (env : Env) :
    net.Adds p (net.deliver task env stage jobs answer) := by
  unfold Network.deliver
  split
  · exact h.advance hsound htask env _
  · exact h.advance hsound htask env _
  · exact .refl net

theorem Within.lose (h : net.Within p) (hsound : net.Sound)
    (htask : net.tasks[task]? = some (.waiting stage jobs answer)) (env : Env) :
    net.Adds p (net.lose task env stage jobs answer) := by
  have hadvanced := h.advance hsound htask env (.error .connectionLost)
  unfold Network.lose
  split
  · dsimp only
    split
    · exact hadvanced
    · exact hadvanced.trans (adds_task (.refl _) rfl trivial)
  · exact .refl net

/-- The steps of the pipeline bring in no card that is neither on the screen nor on its way. -/
theorem Within.networkStep (h : net.Within p) (hsound : net.Sound) {step : DeletionStep} {taken : NetworkStep}
    (htaken : step.networkStep net.client = some taken) : net.Adds p (net.step taken) := by
  cases step with
  | move move debounced before after =>
      unfold DeletionStep.networkStep ClientState.moveStep at htaken
      obtain ⟨current, hfind, rfl⟩ := Option.map_eq_some_iff.mp htaken
      refine h.enqueueMove (h.cards current (List.mem_of_find?_eq_some hfind)) (fun id hid => ?_) debounced before
        move.env after
      obtain ⟨card, hcard, rfl⟩ := Placement.mem_of_siblingsWithPrev hid
      exact h.cards card ((move.view.subperm net.client.cards).subset hcard)
  | flush env =>
      cases htaken
      exact h.flushBurst env
  | flushBlocking env =>
      cases htaken
      exact h.flushBlocking env
  | discard id => cases htaken
  | delete id => cases htaken
  | call call =>
      cases htaken
      exact ⟨.refl net.client, fun _ => .inl⟩
  | connect connected =>
      cases htaken
      exact ⟨⟨fun _ => .inl, fun _ => .inl, fun _ => .inl⟩, fun _ => .inl⟩
  | start task env =>
      cases htaken
      refine step_start (.refl net) fun work hwork => ?_
      exact adds_start (h.tasks _ (List.mem_of_getElem? hwork)) task env
  | handle task now =>
      cases htaken
      exact step_handle (.refl net) fun _ request _ _ => h.handle task now request
  | deliver task env =>
      cases htaken
      exact step_deliver (.refl net) fun _ _ _ htask => h.deliver hsound htask env
  | lose task env =>
      cases htaken
      exact step_lose (.refl net) fun _ _ _ htask => h.lose hsound htask env

end Network

/-! ### Deleted cards -/

/-- Deleted cards are neither on the screen nor on their way. -/
structure DeletionState.Gone (state : DeletionState) : Prop where
  sound : state.net.Sound
  within : state.net.Within (· ∉ state.deleted)

variable {state : DeletionState}

theorem DeletionState.Gone.staysDeleted {step : DeletionStep} (h : (state.step step).Gone)
    (hqueue : ∀ entry ∈ (state.step step).net.client.offlineQueue, entry ∈ state.net.client.offlineQueue ∨
      entry.id ∉ (state.step step).deleted) : state.StaysDeleted step := by
  intro id hid
  refine ⟨fun task htask hmem => ?_, fun hmem => ?_, fun entry hentry heq => ?_⟩
  · obtain ⟨version, hversion, rfl⟩ := List.mem_map.mp hmem
    exact (h.within.tasks task htask).sent (h.sound.built task htask) hversion hid
  · obtain ⟨card, hcard, rfl⟩ := List.mem_map.mp hmem
    exact h.within.cards card hcard hid
  · exact (hqueue entry hentry).resolve_right fun hnot => hnot (heq ▸ hid)

theorem DeletionState.Gone.network (h : state.Gone) {step : DeletionStep}
    (hstep : state.step step = state ∨ ∃ taken, step.networkStep state.net.client = some taken ∧
      state.step step = { state with net := state.net.step taken }) :
    (state.step step).Gone ∧ state.StaysDeleted step := by
  rcases hstep with hsame | ⟨taken, htaken, hnext⟩
  · have hgone : (state.step step).Gone := by
      rw [hsame]
      exact h
    exact ⟨hgone, hgone.staysDeleted fun entry hentry => .inl (by rwa [hsame] at hentry)⟩
  · have hadds := h.within.networkStep h.sound htaken
    have hgone : (state.step step).Gone := by
      rw [hnext]
      exact ⟨h.sound.step taken, h.within.of_adds hadds⟩
    refine ⟨hgone, hgone.staysDeleted fun entry hentry => ?_⟩
    rw [hnext] at hentry ⊢
    exact hadds.client.queue entry hentry

theorem DeletionState.Gone.step (h : state.Gone) {step : DeletionStep} (hspares : state.Spares step) :
    (state.step step).Gone ∧ state.StaysDeleted step := by
  have hnetwork : (∀ id, step ≠ .discard id) → (∀ id, step ≠ .delete id) →
      state.step step = state ∨ ∃ taken, step.networkStep state.net.client = some taken ∧
        state.step step = { state with net := state.net.step taken } := by
    intro hdiscard hdelete
    have hstep : state.step step = match step.networkStep state.net.client with
        | some taken => { state with net := state.net.step taken }
        | none => state := by
      cases step with
      | discard id => exact absurd rfl (hdiscard id)
      | delete id => exact absurd rfl (hdelete id)
      | _ => rfl
    rw [hstep]
    cases htaken : step.networkStep state.net.client with
    | none => exact .inl rfl
    | some taken => exact .inr ⟨taken, rfl, rfl⟩
  cases step with
  | discard id =>
      have hadds : state.net.client.Adds (· ∉ state.deleted) (state.net.client.discardFor id) := by
        unfold ClientState.discardFor
        split
        · exact ⟨fun _ => .inl, fun _ => .inl, fun _ hnone => by cases hnone⟩
        · exact .refl _
      have hfiles : (state.net.client.discardFor id).files = state.net.client.files := by
        unfold ClientState.discardFor
        split <;> rfl
      have hgone : (state.step (.discard id)).Gone :=
        ⟨h.sound.prepares (.client hfiles), h.within.of_adds ⟨hadds, fun _ => .inl⟩⟩
      exact ⟨hgone, hgone.staysDeleted hadds.queue⟩
  | delete id =>
      have hgone : (state.step (.delete id)).Gone := by
        refine ⟨h.sound.prepares (.client rfl), fun card hcard => ?_, fun burst hburst other hother => ?_,
          fun task htask => ?_⟩
        · obtain ⟨hold, hne⟩ := List.mem_filter.mp hcard
          exact List.not_mem_cons_of_ne_of_not_mem (of_decide_eq_true hne) (h.within.cards card hold)
        · refine List.not_mem_cons_of_ne_of_not_mem ?_ (h.within.burst burst hburst other hother)
          rintro rfl
          exact hspares.1 burst hburst hother
        · refine (h.within.tasks task htask).imp fun card hcard hold => List.not_mem_cons_of_ne_of_not_mem ?_ hold
          rintro rfl
          exact hspares.2 task htask (List.mem_map_of_mem hcard)
      exact ⟨hgone, hgone.staysDeleted fun _ => .inl⟩
  | _ => exact h.network (hnetwork (fun _ => by exact nofun) fun _ => by exact nofun)

/-- **No deleted card comes back.** In a run in which nothing of a card is pending or on its way when it leaves the
screen, no version of it is pushed, queued or shown afterwards. -/
theorem deletedCards_run (store : Store) (client : ClientState) (steps : List DeletionStep)
    (hspares : Run.Meets DeletionState.step DeletionState.Spares ⟨.new store client, []⟩ steps) :
    Run.Meets DeletionState.step DeletionState.StaysDeleted ⟨.new store client, []⟩ steps := by
  have hstart : DeletionState.Gone ⟨.new store client, []⟩ :=
    ⟨Network.sound_new store client, fun _ _ => List.not_mem_nil, fun _ _ _ _ => List.not_mem_nil,
      fun _ hnil => absurd hnil List.not_mem_nil⟩
  exact hspares.imp_of_invariant DeletionState.Gone hstart (fun _ _ hgone hstep => (hgone.step hstep).1)
    fun _ _ hgone hstep => (hgone.step hstep).2

omit [Blake3] in
theorem mem_sent_pushBurst {client : ClientState} {primary version : Card} {siblings : List Card}
    (hconnected : client.connected = true) (h : version ∈ primary :: siblings) :
    version ∈ (runJobs client [.pushBurst primary siblings]).2.task.sent := by
  have hsends : ∀ cards : List Card, (cards.map fun card => (card, card)).map Prod.snd = cards := by
    intro cards
    rw [List.map_map]
    exact List.map_id cards
  cases siblings with
  | nil =>
      have hburst : pushBurst client primary [] = (client, .push primary, []) := by
        simp [pushBurst, pushCardOrQueue, hconnected]
      rw [runJobs, startJob, hburst]
      exact h
  | cons sibling rest =>
      have hburst : pushBurst client primary (sibling :: rest) =
          (client, .pushBatch primary (sibling :: rest), []) := by
        simp [pushBurst, hconnected]
      rw [runJobs, startJob, hburst]
      change version ∈ ((primary :: sibling :: rest).map fun card => (card, card)).map Prod.snd
      rw [hsends]
      exact h

/-- A card that is in the pending burst when it leaves the screen is pushed when that burst is flushed, unless a
card is at the last count. -/
theorem DeletionState.not_staysDeleted_of_burst {burst : PriorityBurst} {id : Uuid}
    (hpending : state.net.client.pendingPriority = some burst) (hconnected : state.net.client.connected = true)
    (hheld : id ∈ burst.cards.map burstKey) (env : Env)
    (hroom : ∀ move ∈ burst.cards, move.1.count.val < 9223372036854775807) :
    ¬ ((state.step (.delete id)).step (.flush env)).StaysDeleted (.start state.net.tasks.length env) := by
  obtain ⟨⟨primary, siblings⟩, hbuilt⟩ := (PriorityBurst.exists_versions_iff burst env).mpr hroom
  let client : ClientState := { state.net.client.removeCard id with pendingPriority := none }
  have hclient : client.connected = true := hconnected
  obtain ⟨version, hversion, rfl⟩ := List.mem_map.mp ((PriorityBurst.mem_keys_versions hbuilt).mpr hheld)
  have hflush : (state.step (.delete version.id)).step (.flush env) =
      ⟨{ state.net with
          client
          moves := state.net.moves ++ burst.moves env
          tasks := state.net.tasks ++ [.started (.burst primary siblings)] }, version.id :: state.deleted⟩ := by
    have hpending' : (state.net.client.removeCard version.id).pendingPriority = some burst := hpending
    unfold DeletionState.step DeletionStep.networkStep Network.step Network.flushBurst Network.flushSyncTake
    simp only [hpending', hbuilt]
    rfl
  have htask : (state.net.tasks ++ [Task.started (.burst primary siblings)])[state.net.tasks.length]? =
      some (.started (.burst primary siblings)) := List.getElem?_concat_length
  rw [hflush]
  intro hstays
  refine (hstays version.id List.mem_cons_self).1 (runJobs client [.pushBurst primary siblings]).2.task ?_
    (List.mem_map_of_mem (mem_sent_pushBurst hclient hversion))
  unfold DeletionState.step DeletionStep.networkStep Network.step
  simp only [htask]
  exact List.mem_set (by simp) _

end

/-! ### One card among three -/

instance (state : DeletionState) : (step : DeletionStep) → Decidable (state.Spares step)
  | .delete _ => inferInstanceAs (Decidable (_ ∧ _))
  | .move _ _ _ _ | .flush _ | .flushBlocking _ | .discard _ | .call _ | .connect _ | .start _ _ | .handle _ _
  | .deliver _ _ | .lose _ _ => isTrue trivial

instance [Blake3] (state : DeletionState) (step : DeletionStep) : Decidable (state.StaysDeleted step) :=
  List.decidableBAll _ (state.step step).deleted

def threeCards : DeletionState :=
  ⟨.new (Run.after (@execute polynomialBlake3) initSchema
    (wideCards.map fun card => ⟨.pushCardVersions [card], 0⟩)) (sampleClient wideCards []), []⟩

def moveBetween (debounced : Bool) (env : Env) : DeletionStep := .move ⟨1, .at 1, .all, env⟩ debounced sampleEnv env

def deletion : List DeletionStep := [.discard 2, .call ⟨.deleteCard 2, 0⟩, .delete 2]

/-- The burst has been pushed when one of the shifted cards is deleted, and the moved card is moved again. -/
theorem deletedCards_run_pushed :
    let _ := polynomialBlake3
    let steps := [moveBetween false (envAt 1), .start 0 sampleEnv, .handle 0 0, .deliver 0 sampleEnv,
        .deliver 0 sampleEnv] ++ deletion ++ [.move ⟨1, .top, .all, envAt 2⟩ true sampleEnv sampleEnv,
        .flush (envAt 3), .start 1 sampleEnv, .handle 1 0, .deliver 1 sampleEnv]
    let after := Run.after DeletionState.step threeCards steps
    Run.Meets DeletionState.step DeletionState.StaysDeleted threeCards steps ∧
      after.deleted = [2] ∧ after.net.client.cards.map Card.id = [3, 1] ∧
      after.net.client.cards.map Card.priority = after.net.store.cards.entities.map Card.priority :=
  ⟨@deletedCards_run polynomialBlake3 _ _ _ (by decide +kernel), by decide +kernel, by decide +kernel,
    by decide +kernel⟩

/-- The burst is still pending when the shifted card is deleted. The flush pushes a version of it, and another move
puts it back on the screen. -/
theorem not_deletedCards_shifted :
    let _ := polynomialBlake3
    let before := Run.after DeletionState.step threeCards (moveBetween true (envAt 1) :: deletion)
    let flushed := Run.after DeletionState.step before [.flush (envAt 2), .start 0 sampleEnv]
    let moved := before.step (.move ⟨1, .top, .all, envAt 2⟩ true sampleEnv sampleEnv)
    before.deleted = [2] ∧ before.net.client.cards.map Card.id = [1, 3] ∧
      flushed.net.tasks.map (fun task => task.sent.map Card.id) = [[1, 3, 2]] ∧
      moved.net.client.cards.map Card.id = [1, 3, 2] ∧
      ¬ Run.Meets DeletionState.step DeletionState.StaysDeleted threeCards
        (moveBetween true (envAt 1) :: deletion ++ [.flush (envAt 2), .start 0 sampleEnv]) := by
  decide +kernel

end BlazeList
