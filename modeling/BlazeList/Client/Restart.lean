import BlazeList.Client.Bursts
import BlazeList.Client.Moves

/-!
# Starting again

A client that is cut off starts again with what is in its files. The cards and the queue are written by
several tasks, each of which saves all cards there are, and the queue as it was when the task asked for
it. A card in the file is accounted for if the server has accepted it or its entry is in the file of the
queue.
-/

namespace BlazeList

/-! ### What a point writes -/

def Stage.snapshot : Stage → List Card
  | .saveState snapshot => snapshot.cards
  | _ => []

def Task.snapshot : Task → List Card
  | .waiting stage _ _ => stage.snapshot
  | .started _ | .finished | .panicked | .orphaned _ => []

def Next.snapshot : Next → List Card
  | .await stage _ => stage.snapshot
  | .done _ | .panic => []

def Stage.queue? : Stage → Option (List Card)
  | .saveEntry _ queue | .saveQueue queue | .saveRemaining queue _ => some queue
  | _ => none

def Stage.written (files : Files) (stage : Stage) : Files where
  state :=
    match stage with
    | .saveState snapshot => some snapshot
    | _ => files.state
  queue := stage.queue?.getD files.queue

/-- The cards that are saved next. -/
def Stage.saves (client : ClientState) (answer : Answer) : Stage → List Card
  | .saveEntry _ _ | .saveRemaining _ true => client.cards
  | .getChanges root _ =>
      match answer.intoChanges with
      | .ok changes => (client.merge root changes).cards
      | .error _ => []
  | _ => []

def Stage.isSave (answer : Answer) : Stage → Bool
  | .saveEntry _ _ | .saveRemaining _ true => true
  | .getChanges _ _ => answer.intoChanges.toBool
  | _ => false

/-- What the server says it has: the versions it accepts, or the cards that have changed. -/
def Stage.brings (stage : Stage) : Answer → List Card
  | .ok (.root _) => stage.sends.map Prod.snd
  | .ok (.changes changes) => changes.cards
  | _ => []

theorem brings_of_root {stage : Stage} {answer : Answer} {root : RootState} (h : answer.intoRoot = .ok root) :
    stage.brings answer = stage.sends.map Prod.snd := by
  unfold Answer.intoRoot at h
  split at h
  · rfl
  · cases h
  · cases h
  · cases h

theorem brings_of_changes {stage : Stage} {answer : Answer} {changes : ChangeSet}
    (h : answer.intoChanges = .ok changes) : stage.brings answer = changes.cards := by
  unfold Answer.intoChanges at h
  split at h
  · cases h
    rfl
  · cases h
  · cases h
  · cases h

/-- The files are as before, no cards are on their way to them, and every card that is new is one of these. -/
structure Untouched (client : ClientState) (brought : List Card) (state : ClientState × Next) : Prop where
  files : state.1.files = client.files
  snapshot : state.2.snapshot = []
  cards : ∀ card ∈ state.1.cards, card ∈ client.cards ∨ card ∈ brought

section

variable {client : ClientState} {brought : List Card}

theorem untouched_startJob {job : Job} :
    (startJob client job).1.files = client.files ∧ (startJob client job).1.cards = client.cards ∧
      ∀ point ∈ (startJob client job).2, point.1.snapshot = [] := by
  cases job with
  | pushCardOrQueue card =>
      unfold startJob pushCardOrQueue
      dsimp only
      split <;> exact ⟨rfl, rfl, fun point hpoint => by cases hpoint; rfl⟩
  | pushBurst primary siblings =>
      unfold startJob pushBurst pushCardOrQueue
      dsimp only
      split
      · split <;> exact ⟨rfl, rfl, fun point hpoint => by cases hpoint; rfl⟩
      · exact ⟨rfl, rfl, fun point hpoint => by cases hpoint; rfl⟩
  | flushOfflineQueue =>
      unfold startJob flushOfflineQueue
      dsimp only
      split
      · exact ⟨rfl, rfl, fun point hpoint => by cases hpoint⟩
      · split <;> exact ⟨rfl, rfl, fun point hpoint => by cases hpoint; rfl⟩
  | incrementalSync => exact ⟨rfl, rfl, fun point hpoint => by cases hpoint; rfl⟩
  | recoverySync => exact ⟨rfl, rfl, fun point hpoint => by cases hpoint; rfl⟩

theorem untouched_runJobs (client : ClientState) (jobs : List Job) :
    (runJobs client jobs).1.files = client.files ∧ (runJobs client jobs).1.cards = client.cards ∧
      (runJobs client jobs).2.task.snapshot = [] := by
  induction jobs generalizing client with
  | nil => exact ⟨rfl, rfl, rfl⟩
  | cons job rest ih =>
      obtain ⟨hfiles, hcards, hsnapshot⟩ := @untouched_startJob client job
      unfold runJobs
      split
      · rename_i after stage more hstart
        rw [hstart] at hfiles hcards hsnapshot
        exact ⟨hfiles, hcards, hsnapshot _ rfl⟩
      · rename_i after hstart
        rw [hstart] at hfiles hcards
        obtain ⟨hrest, hshown, hnone⟩ := ih after
        exact ⟨hrest.trans hfiles, hshown.trans hcards, hnone⟩

/-- The client stays as it is. -/
theorem untouched_same {next : Next} (hsnapshot : next.snapshot = []) : Untouched client brought (client, next) :=
  ⟨rfl, hsnapshot, fun _ => .inl⟩

theorem mem_cards_upsertCard {card version : Card} (h : card ∈ (client.upsertCard version).cards) :
    card ∈ client.cards ∨ card = version :=
  (mem_replaceCard.mp h).imp_left And.left

theorem mem_cards_foldl_upsertCard {card : Card} {versions : List Card}
    (h : card ∈ (versions.foldl ClientState.upsertCard client).cards) : card ∈ client.cards ∨ card ∈ versions := by
  induction versions generalizing client with
  | nil => exact .inl h
  | cons version rest ih =>
      rcases ih h with hupserted | hrest
      · exact (mem_cards_upsertCard hupserted).imp_right fun heq => List.mem_cons.mpr (.inl heq)
      · exact .inr (List.mem_cons_of_mem _ hrest)

theorem Untouched.of_upserts {versions : List Card} {state : ClientState × Next}
    (h : Untouched (versions.foldl ClientState.upsertCard client) brought state)
    (hversions : ∀ version ∈ versions, version ∈ brought) : Untouched client brought state := by
  refine ⟨h.files.trans (by rw [foldl_upsertCard]), h.snapshot, fun card hcard => ?_⟩
  rcases h.cards card hcard with hupserted | hbrought
  · exact (mem_cards_foldl_upsertCard hupserted).imp_right (hversions card)
  · exact .inr hbrought

theorem Untouched.of_upsert {version : Card} {state : ClientState × Next}
    (h : Untouched (client.upsertCard version) brought state) (hversion : version ∈ brought) :
    Untouched client brought state :=
  have hlist : Untouched ([version].foldl ClientState.upsertCard client) brought state := h
  hlist.of_upserts fun _ hmem => List.mem_singleton.mp hmem ▸ hversion

theorem untouched_clearQueuedCard (client : ClientState) (brought : List Card) (cardId : Uuid) :
    Untouched client brought (clearQueuedCard client cardId) := by
  unfold clearQueuedCard
  dsimp only
  split <;> exact ⟨rfl, rfl, fun _ => .inl⟩

theorem untouched_continueFlush (client : ClientState) (brought : List Card) (loop : FlushLoop) (kept : Option Card)
    (hitConnectionError : Bool) :
    Untouched client brought (continueFlush client loop kept hitConnectionError) := by
  unfold continueFlush
  dsimp only
  split
  · exact ⟨rfl, rfl, fun _ => .inl⟩
  · split <;> exact ⟨rfl, rfl, fun _ => .inl⟩

/-- Nothing but its cards is on the way after a save has been asked for. -/
theorem saved_saveLocalState (client : ClientState) (jobs : List Job) :
    (saveLocalState client jobs).1.files = client.files ∧ (saveLocalState client jobs).1.cards = client.cards ∧
      ∀ card ∈ (saveLocalState client jobs).2.snapshot, card ∈ client.cards := by
  unfold saveLocalState
  split
  · exact ⟨rfl, rfl, fun card hcard => by cases hcard⟩
  · exact ⟨rfl, rfl, fun card hcard => hcard⟩

theorem mem_cards_merge {root : Option RootState} {changes : ChangeSet} {card : Card}
    (h : card ∈ (client.merge root changes).cards) : card ∈ client.cards ∨ card ∈ changes.cards := by
  cases root with
  | none => exact .inr h
  | some root => exact (mem_of_mem_mergeChanges ((List.orderBy_perm _ _).mem_iff.mp h)).symm

theorem mem_saves {stage : Stage} {answer : Answer} {card : Card} (h : card ∈ stage.saves client answer) :
    card ∈ client.cards ∨ card ∈ stage.brings answer := by
  cases stage with
  | saveEntry entry queue => exact .inl h
  | saveRemaining queue flushed =>
      cases flushed with
      | true => exact .inl h
      | false => cases h
  | getChanges root recovering =>
      unfold Stage.saves at h
      dsimp only at h
      split at h
      · rename_i changes hchanges
        rw [brings_of_changes hchanges]
        exact mem_cards_merge h
      · cases h
  | _ => cases h

theorem isSave_of_mem {stage : Stage} {answer : Answer} {card : Card} (h : card ∈ stage.saves client answer) :
    stage.isSave answer = true := by
  cases stage with
  | saveEntry entry queue => rfl
  | saveRemaining queue flushed =>
      cases flushed with
      | true => rfl
      | false => cases h
  | getChanges root recovering =>
      unfold Stage.saves at h
      dsimp only at h
      split at h
      · rename_i changes hchanges
        unfold Stage.isSave
        dsimp only
        rw [hchanges]
        rfl
      · cases h
  | _ => cases h

variable [Blake3] {env : Env} {loop : FlushLoop} {card : Card}

theorem untouched_placeQueued {cards : List Card} {ancestor : Option Card} :
    Untouched client brought (placeQueued env client loop card cards ancestor) := by
  unfold placeQueued
  split
  · split <;> exact untouched_same rfl
  · split <;> exact untouched_same rfl

theorem untouched_afterPush {answer : Answer} :
    Untouched client brought (afterPush env client card answer) := by
  unfold afterPush
  split
  · exact untouched_clearQueuedCard ..
  · split <;> exact untouched_same rfl
  · split <;> exact untouched_same rfl
  · exact ⟨rfl, rfl, fun _ => .inl⟩

theorem untouched_afterFlushPush {answer : Answer} :
    Untouched client ((Stage.flush loop card .push).brings answer) (afterFlushPush env client loop card answer) := by
  unfold afterFlushPush
  split
  · rename_i root hroot
    rw [brings_of_root hroot]
    exact (untouched_continueFlush ..).of_upsert List.mem_cons_self
  · exact untouched_continueFlush ..
  · dsimp only
    split
    · exact untouched_same rfl
    · exact untouched_placeQueued
  · split <;> exact untouched_same rfl
  · split <;> exact untouched_same rfl
  · exact untouched_continueFlush ..
  · exact untouched_continueFlush ..

omit [Blake3] in
/-- The versions of a retry are shown when they have been accepted. -/
theorem untouched_afterRetry {stage : Stage} {versions : List Card} {entry : Card} {answer : Answer}
    (hversions : ∀ version ∈ versions, version ∈ stage.sends.map Prod.snd) :
    Untouched client (stage.brings answer)
      (afterRetry client (versions.foldl ClientState.upsertCard client) loop entry answer) := by
  unfold afterRetry
  split
  · rename_i root hroot
    rw [brings_of_root hroot]
    exact (untouched_continueFlush ..).of_upserts hversions
  · exact untouched_continueFlush ..
  · exact untouched_continueFlush ..

theorem untouched_resumeFlush {stage : FlushStage} {answer : Answer} :
    Untouched client ((Stage.flush loop card stage).brings answer)
      (resumeFlush env client loop card stage answer) := by
  cases stage with
  | push => exact untouched_afterFlushPush
  | fetch cards =>
      unfold resumeFlush
      dsimp only
      split
      · exact untouched_placeQueued
      · exact untouched_continueFlush ..
      · exact untouched_continueFlush ..
  | retry version =>
      exact @untouched_afterRetry client loop (.flush loop card (.retry version)) [version] _ _ fun _ => id
  | batch shifted version =>
      have hsends : ∀ other ∈ shifted ++ [version],
          other ∈ (Stage.flush loop card (.batch shifted version)).sends.map Prod.snd := by
        intro other hother
        rw [Stage.sends, List.map_append, List.map_map]
        refine List.mem_append.mpr ((List.mem_append.mp hother).imp_left fun hshifted => ?_)
        exact List.mem_map.mpr ⟨other, hshifted, rfl⟩
      have hretried := @untouched_afterRetry client loop _ _ card answer hsends
      rw [List.foldl_append] at hretried
      exact hretried
  | rebased version =>
      unfold resumeFlush
      dsimp only
      split
      · rename_i root hroot
        rw [brings_of_root hroot]
        exact (untouched_continueFlush ..).of_upsert List.mem_cons_self
      · exact untouched_continueFlush ..
      · exact untouched_continueFlush ..
  | recreated version =>
      exact @untouched_afterRetry client loop (.flush loop card (.recreated version)) [version] _ _ fun _ => id

structure Stage.Leaves (client : ClientState) (stage : Stage) (answer : Answer) (after : ClientState)
    (snapshot : List Card) : Prop where
  files : after.files = stage.written client.files
  snapshot : ∀ card ∈ snapshot, card ∈ stage.saves client answer
  cards : ∀ card ∈ after.cards, card ∈ client.cards ∨ card ∈ stage.brings answer

omit [Blake3] in
theorem Untouched.leaves {stage : Stage} {answer : Answer} {state : ClientState × Next}
    (h : Untouched client (stage.brings answer) state) (hwritten : stage.written client.files = client.files) :
    stage.Leaves client answer state.1 state.2.snapshot := by
  refine ⟨h.files.trans hwritten.symm, fun card hcard => ?_, h.cards⟩
  rw [h.snapshot] at hcard
  cases hcard

theorem leaves_resume {stage : Stage} {answer : Answer} :
    stage.Leaves client answer (resume env client stage answer).1 (resume env client stage answer).2.snapshot := by
  cases stage with
  | push card => exact untouched_afterPush.leaves rfl
  | pushRebased card version =>
      unfold resume afterRebased
      dsimp only
      split
      · rename_i root hroot
        refine Untouched.leaves ?_ rfl
        rw [brings_of_root hroot]
        exact (untouched_clearQueuedCard ..).of_upsert List.mem_cons_self
      · exact Untouched.leaves ⟨rfl, rfl, fun _ => .inl⟩ rfl
  | pushRecreated card version =>
      unfold resume afterRecreated
      dsimp only
      split
      · rename_i root hroot
        refine Untouched.leaves ?_ rfl
        rw [brings_of_root hroot]
        exact (untouched_clearQueuedCard ..).of_upsert List.mem_cons_self
      · exact Untouched.leaves ⟨rfl, rfl, fun _ => .inl⟩ rfl
  | pushBatch primary siblings =>
      unfold resume afterBatch
      dsimp only
      split <;> exact Untouched.leaves ⟨rfl, rfl, fun _ => .inl⟩ rfl
  | flush loop card stage => exact untouched_resumeFlush.leaves rfl
  | getChanges root recovering =>
      have hmerged : ∀ {changes : ChangeSet} {jobs : List Job}, answer.intoChanges = .ok changes →
          (Stage.getChanges root recovering).Leaves client answer
            (saveLocalState (client.merge root changes) jobs).1
            (saveLocalState (client.merge root changes) jobs).2.snapshot := by
        intro changes jobs hchanges
        obtain ⟨hfiles, hcards, hsnapshot⟩ := saved_saveLocalState (client.merge root changes) jobs
        refine ⟨hfiles, fun card hcard => ?_, fun card hcard => ?_⟩
        · unfold Stage.saves
          dsimp only
          rw [hchanges]
          exact hsnapshot card hcard
        · rw [hcards] at hcard
          rw [brings_of_changes hchanges]
          exact mem_cards_merge hcard
      unfold resume afterChanges
      dsimp only
      split
      · exact hmerged ‹_›
      · exact hmerged ‹_›
      · exact (untouched_same rfl).leaves rfl
      · exact (untouched_same rfl).leaves rfl
  | clearHistoryCache => exact (untouched_same rfl).leaves rfl
  | saveEntry entry queue =>
      obtain ⟨hfiles, hcards, hsnapshot⟩ :=
        saved_saveLocalState { client with files := { client.files with queue } } []
      exact ⟨hfiles, hsnapshot, fun card hcard => .inl (hcards ▸ hcard)⟩
  | saveQueue queue => exact ⟨rfl, fun card hcard => (List.not_mem_nil hcard).elim, fun _ => .inl⟩
  | saveRemaining queue flushed =>
      cases flushed with
      | true =>
          obtain ⟨hfiles, hcards, hsnapshot⟩ :=
            saved_saveLocalState { client with files := { client.files with queue } } []
          exact ⟨hfiles, hsnapshot, fun card hcard => .inl (hcards ▸ hcard)⟩
      | false => exact ⟨rfl, fun card hcard => (List.not_mem_nil hcard).elim, fun _ => .inl⟩
  | saveState snapshot => exact ⟨rfl, fun card hcard => (List.not_mem_nil hcard).elim, fun _ => .inl⟩

/-- The task runs on, and neither the files nor the cards change any more. -/
theorem leaves_advance {stage : Stage} {answer : Answer} (jobs : List Job) :
    stage.Leaves client answer (advance env client stage jobs answer).1
      (advance env client stage jobs answer).2.task.snapshot := by
  have hresumed := @leaves_resume client _ env stage answer
  unfold advance
  generalize resume env client stage answer = state at hresumed
  obtain ⟨after, next⟩ := state
  cases next with
  | await stage more => exact hresumed
  | done more =>
      obtain ⟨hfiles, hcards, hsnapshot⟩ := untouched_runJobs after (more ++ jobs)
      refine ⟨hfiles.trans hresumed.files, fun card hcard => ?_, fun card hcard => ?_⟩
      · change card ∈ (runJobs after (more ++ jobs)).2.task.snapshot at hcard
        rw [hsnapshot] at hcard
        cases hcard
      · change card ∈ (runJobs after (more ++ jobs)).1.cards at hcard
        rw [hcards] at hcard
        exact hresumed.cards card hcard
  | panic => exact ⟨hresumed.files, fun card hcard => (List.not_mem_nil hcard).elim, hresumed.cards⟩

end

/-! ### Local versions -/

namespace Network

/-- The server has accepted the card, or an entry stands for it. -/
def Accounted (net : Network) (queue : List Card) (card : Card) : Prop :=
  card ∈ net.history ∨ ∃ entry ∈ queue, entry.id = card.id

instance (net : Network) (queue : List Card) (card : Card) : Decidable (net.Accounted queue card) :=
  inferInstanceAs (Decidable (_ ∨ ∃ entry ∈ queue, _))

/-- Every card that a start from the files shows is accounted for. -/
def Tracked (net : Network) : Prop :=
  ∀ card ∈ (ClientState.load net.client.files).cards,
    net.Accounted (ClientState.load net.client.files).offlineQueue card

instance (net : Network) : Decidable net.Tracked :=
  inferInstanceAs (Decidable (∀ card ∈ _, _))

def saved (net : Network) : List Card :=
  (ClientState.load net.client.files).cards ++ net.tasks.flatMap Task.snapshot

/-- The server has accepted all versions of the card that the client shows or has saved. -/
def Settled (net : Network) (id : Uuid) : Prop :=
  ∀ card ∈ net.client.cards ++ net.saved, card.id = id → card ∈ net.history

instance (net : Network) (id : Uuid) : Decidable (net.Settled id) :=
  inferInstanceAs (Decidable (∀ card ∈ _, _))

end Network

/-! ### What is under way -/

/-- The local versions of a task, until it has got the answer and gone on. -/
def Task.locals : Task → List Card
  | .started work => work.cards
  | .waiting stage jobs _ => stage.pending ++ stage.later ++ jobs.flatMap Job.cards
  | .finished | .panicked | .orphaned _ => []

/-- The moved cards of which a version is shown that the server has not accepted. -/
def Network.movedCards (net : Network) : List Card :=
  net.client.cards.filter fun card => card ∉ net.history ∧ card.id ∈ net.moves.map fun move => move.2.id

/-- The cards with an entry in memory, those of the pending burst, those with a version that a task has to bring to the
server, and the moved ones that are still shown as before their push. -/
def Network.underWay (net : Network) : List Uuid :=
  net.client.offlineQueue.map Card.id ++
    (net.client.pendingPriority.toList.flatMap PriorityBurst.cards).map burstKey ++
    ((net.tasks.flatMap Task.locals).filter fun card => card ∉ net.history).map Card.id ++
    net.movedCards.map Card.id

/-- The point a task goes on from, with its answer. The device gives none. -/
def Task.arrived? : Task → Option (Stage × Answer)
  | .waiting stage _ (some response) => some (stage, .ok response)
  | .waiting stage _ none =>
      if stage.request?.isNone then some (stage, .error .connectionLost) else none
  | .started _ | .finished | .panicked | .orphaned _ => none

/-- When the cards are saved, every card under way has an entry in the file of the queue. No card under way loses its
entry there. -/
def Network.SavesQueued (net : Network) : NetworkStep → Prop
  | .deliver task _ =>
      ∀ point ∈ net.tasks[task]?.bind Task.arrived?, ∀ id ∈ net.underWay,
        point.1.isSave point.2 = true ∨ id ∈ net.client.files.queue.map Card.id →
          id ∈ (point.1.queue?.getD net.client.files.queue).map Card.id
  | _ => True

instance (net : Network) : (step : NetworkStep) → Decidable (net.SavesQueued step)
  | .deliver _ _ =>
      have (point : Stage × Answer) : Decidable (∀ id ∈ net.underWay,
          point.1.isSave point.2 = true ∨ id ∈ net.client.files.queue.map Card.id →
            id ∈ (point.1.queue?.getD net.client.files.queue).map Card.id) :=
        List.decidableBAll _ net.underWay
      inferInstanceAs (Decidable (∀ point ∈ _, _))
  | .foreign _ | .connect _ | .edit _ _ | .move _ _ _ _ _ _ _ | .flushBurst _ | .flushBlocking _
  | .sync | .flush | .start _ _ | .handle _ _ | .lose _ _ | .restart => isTrue trivial

/-- Unless the client starts again, a card only stops being under way when it is settled. -/
def Network.LetsGoSettled [Blake3] (net : Network) : NetworkStep → Prop
  | .restart => True
  | step => ∀ id ∈ net.underWay, id ∈ (net.step step).underWay ∨ (net.step step).Settled id

instance [Blake3] (net : Network) : (step : NetworkStep) → Decidable (net.LetsGoSettled step)
  | .restart => isTrue trivial
  | .foreign _ | .connect _ | .edit _ _ | .move _ _ _ _ _ _ _ | .flushBurst _ | .flushBlocking _
  | .sync | .flush | .start _ _ | .handle _ _ | .deliver _ _ | .lose _ _ => List.decidableBAll _ net.underWay

/-! ### What a step can do -/

namespace Network

variable {net middle other : Network}

theorem mem_saved {card : Card} :
    card ∈ net.saved ↔
      card ∈ (ClientState.load net.client.files).cards ∨ ∃ task ∈ net.tasks, card ∈ task.snapshot := by
  rw [saved, List.mem_append, List.mem_flatMap]

theorem mem_saved_of_task {task : Task} (htask : task ∈ net.tasks) {card : Card}
    (hcard : card ∈ task.snapshot) : card ∈ net.saved :=
  mem_saved.mpr (.inr ⟨task, htask, hcard⟩)

theorem mem_load {files : Files} {card : Card} :
    card ∈ (ClientState.load files).cards ↔
      ∃ state, files.state.filter (fun state => state.root.sequence ≠ .min) = some state ∧
        card ∈ state.cards := by
  unfold ClientState.load
  dsimp only
  cases files.state.filter fun state => state.root.sequence ≠ .min with
  | none => exact ⟨fun h => (List.not_mem_nil h).elim, fun ⟨_, h, _⟩ => nomatch h⟩
  | some state => exact ⟨fun h => ⟨state, rfl, h⟩, fun ⟨_, rfl, h⟩ => h⟩

theorem snapshot_of_idle {task : Task} (h : task.idle = true) : task.snapshot = [] := by
  cases task with
  | waiting stage jobs answer => cases h
  | orphaned stage => cases h
  | started work => rfl
  | finished => rfl
  | panicked => rfl

/-- Nothing is written or saved, and what is newly shown is under way. -/
structure Quiet (net other : Network) : Prop where
  history : ∀ card ∈ net.history, card ∈ other.history
  files : other.client.files = net.client.files
  tasks : ∀ task ∈ other.tasks, ∀ card ∈ task.snapshot, card ∈ net.saved
  cards : ∀ card ∈ other.client.cards,
    card ∈ net.client.cards ++ net.saved ∨ card ∈ other.history ∨ card.id ∈ other.underWay

theorem Quiet.saved (h : net.Quiet other) {card : Card} (hcard : card ∈ other.saved) : card ∈ net.saved := by
  rcases mem_saved.mp hcard with hloaded | ⟨task, htask, hmem⟩
  · rw [h.files] at hloaded
    exact mem_saved.mpr (.inl hloaded)
  · exact h.tasks task htask card hmem

theorem Quiet.refl (net : Network) : net.Quiet net :=
  ⟨fun _ => id, rfl, fun _ htask _ hcard => mem_saved_of_task htask hcard,
    fun _ hcard => .inl (List.mem_append_left _ hcard)⟩

/-- New cards are shown while the user and the timers are at work. -/
theorem Prepares.quiet (h : net.Prepares other)
    (hcards : ∀ card ∈ other.client.cards,
      card ∈ net.client.cards ∨ card ∈ other.history ∨ card.id ∈ other.underWay) : net.Quiet other := by
  obtain ⟨more, htasks, hidle⟩ := h.tasks
  refine ⟨h.history ▸ fun _ => id, h.files, fun task htask card hcard => ?_, fun card hcard => ?_⟩
  · rw [htasks] at htask
    rcases List.mem_append.mp htask with hold | hmore
    · exact mem_saved_of_task hold hcard
    · rw [snapshot_of_idle (hidle task hmore)] at hcard
      cases hcard
  · exact (hcards card hcard).imp_left (List.mem_append_left _)

theorem Quiet.of_prepares (h : middle.Quiet other) (hprepares : net.Prepares middle)
    (hcards : middle.client.cards = net.client.cards) : net.Quiet other := by
  have hmiddle : net.Quiet middle := hprepares.quiet fun card hcard => .inl (hcards ▸ hcard)
  refine ⟨fun card hcard => h.history card (hmiddle.history card hcard), h.files.trans hmiddle.files,
    fun task htask card hcard => hmiddle.saved (h.tasks task htask card hcard), fun card hcard => ?_⟩
  refine (h.cards card hcard).imp_left fun hold => ?_
  rcases List.mem_append.mp hold with hshown | hsaved
  · exact List.mem_append_left _ (hcards ▸ hshown)
  · exact List.mem_append_right _ (hmiddle.saved hsaved)

/-- A task goes on, and neither writes nor saves nor shows anything. -/
theorem quiet_advanced (task : Nat) {state : ClientState × Progress} (hfiles : state.1.files = net.client.files)
    (hcards : state.1.cards = net.client.cards) (hsnapshot : state.2.task.snapshot = []) :
    net.Quiet (net.advanced task state) := by
  refine ⟨fun _ => id, hfiles, fun other hother card hcard => ?_,
    fun card hcard => .inl (List.mem_append_left _ (hcards ▸ hcard))⟩
  rcases List.mem_or_eq_of_mem_set hother with hold | rfl
  · exact mem_saved_of_task hold hcard
  · rw [hsnapshot] at hcard
    cases hcard

theorem quiet_runJobs (task : Nat) (jobs : List Job) : net.Quiet (net.advanced task (runJobs net.client jobs)) := by
  obtain ⟨hfiles, hcards, hsnapshot⟩ := untouched_runJobs net.client jobs
  exact quiet_advanced task hfiles hcards hsnapshot

theorem quiet_restart : net.Quiet net.restart := by
  refine ⟨fun _ => id, rfl, fun other hother card hcard => ?_, fun card hcard => ?_⟩
  · obtain ⟨task, htask, rfl⟩ := List.mem_map.mp hother
    cases task with
    | waiting stage jobs answer => cases answer <;> cases hcard
    | started work => cases hcard
    | finished => cases hcard
    | panicked => cases hcard
    | orphaned stage => cases hcard
  · exact .inl (List.mem_append_right _ (mem_saved.mpr (.inl hcard)))

variable [Blake3]

theorem quiet_handle (task : Nat) (now : Int) (request : Request) : net.Quiet (net.handle task now request) := by
  refine ⟨fun _ => List.mem_append_left _, rfl, fun other hother card hcard => ?_,
    fun card hcard => .inl (List.mem_append_left _ hcard)⟩
  rcases mem_modify_cases hother with hold | ⟨old, hold, rfl⟩
  · exact mem_saved_of_task hold hcard
  · cases old with
    | waiting stage jobs answer => exact mem_saved_of_task (List.mem_of_getElem? hold) hcard
    | started work => cases hcard
    | finished => cases hcard
    | panicked => cases hcard
    | orphaned stage => cases hcard

/-! ### Bursts -/

theorem cards_flushSyncTake (net : Network) (env : Env) :
    (net.flushSyncTake env).1.client.cards = net.client.cards := by
  unfold flushSyncTake
  split <;> rfl

theorem cards_flushBurst (net : Network) (env : Env) : (net.flushBurst env).client.cards = net.client.cards := by
  obtain ⟨more, heq, -⟩ := net.flushBurst_cases env
  rw [heq]
  exact net.cards_flushSyncTake env

theorem cards_flushBlocking (net : Network) (env : Env) :
    (net.flushBlocking env).client.cards = net.client.cards := by
  have htaken := net.cards_flushSyncTake env
  unfold flushBlocking
  split
  · rename_i taken heq
    rw [heq] at htaken
    exact htaken
  · rename_i taken primary siblings heq
    rw [heq] at htaken
    exact htaken
  · rename_i taken heq
    rw [heq] at htaken
    exact htaken

omit [Blake3] in
theorem mem_underWay_of_queued {entry : Card} (hentry : entry ∈ net.client.offlineQueue) :
    entry.id ∈ net.underWay := by
  simp only [underWay, List.mem_append]
  exact .inl (.inl (.inl (List.mem_map_of_mem hentry)))

omit [Blake3] in
theorem mem_underWay_of_pending {burst : PriorityBurst} (hpending : net.client.pendingPriority = some burst)
    {id : Uuid} (hid : id ∈ burst.cards.map burstKey) : id ∈ net.underWay := by
  simp only [underWay, List.mem_append]
  rw [hpending, Option.toList_some, List.flatMap_singleton]
  exact .inl (.inl (.inr hid))

omit [Blake3] in
theorem mem_underWay_of_task {task : Task} (htask : task ∈ net.tasks) {card : Card} (hcard : card ∈ task.locals) :
    card ∈ net.history ∨ card.id ∈ net.underWay := by
  refine or_iff_not_imp_left.mpr fun hnew => ?_
  simp only [underWay, List.mem_append]
  refine .inl (.inr (List.mem_map_of_mem (List.mem_filter.mpr ⟨?_, decide_eq_true hnew⟩)))
  exact List.mem_flatMap.mpr ⟨task, htask, hcard⟩

omit [Blake3] in
/-- A moved card is under way as long as it is shown. -/
theorem mem_underWay_of_moved {card : Card} (hcard : card ∈ net.client.cards) {move : Card × Card}
    (hmove : move ∈ net.moves) (hid : move.2.id = card.id) : card ∈ net.history ∨ card.id ∈ net.underWay := by
  refine or_iff_not_imp_left.mpr fun hnew => ?_
  simp only [underWay, List.mem_append]
  refine .inr (List.mem_map_of_mem (List.mem_filter.mpr ⟨hcard, decide_eq_true ⟨hnew, ?_⟩⟩))
  exact List.mem_map.mpr ⟨move, hmove, hid⟩

/-- When a burst is flushed every card of it is written down as moved. -/
theorem exists_move_flushBurst {burst : PriorityBurst} {shown : Env} {versions : Card × List Card}
    (hpending : net.client.pendingPriority = some burst) (hbuilt : burst.buildVersions shown = some versions)
    {id : Uuid} (hid : id ∈ burst.cards.map burstKey) (env : Env) :
    ∃ move ∈ (net.flushBurst env).moves, move.2.id = id := by
  obtain ⟨flushed, hflushed⟩ := (PriorityBurst.exists_versions_iff burst env).mpr
    ((PriorityBurst.exists_versions_iff burst shown).mp ⟨versions, hbuilt⟩)
  obtain ⟨primary, siblings⟩ := flushed
  obtain ⟨version, hversion, rfl⟩ := List.mem_map.mp ((PriorityBurst.mem_keys_versions hflushed).mpr hid)
  obtain ⟨move, hmove, rfl⟩ := List.mem_map.mp (PriorityBurst.mem_moves hflushed version hversion)
  refine ⟨move, ?_, rfl⟩
  unfold flushBurst flushSyncTake
  rw [hpending]
  dsimp only
  rw [hflushed]
  exact List.mem_append_right _ hmove

/-- The cards that a move shows are those of the burst that is pending then. -/
theorem mem_cards_recordMove {prevCard : Card} {newPriority : I64} {siblingsWithPrev : List (Card × I64)}
    {env : Env} {card : Card}
    (h : card ∈ (net.recordMove prevCard newPriority siblingsWithPrev env).client.cards) :
    card ∈ net.client.cards ∨ ∃ burst versions,
      (net.recordMove prevCard newPriority siblingsWithPrev env).client.pendingPriority = some burst ∧
        burst.buildVersions env = some versions ∧ card.id ∈ burst.cards.map burstKey := by
  unfold recordMove at h ⊢
  dsimp only at h ⊢
  split at h
  · rename_i primary siblings hbuilt
    refine (mem_cards_foldl_upsertCard h).imp_right fun hversion => ⟨_, _, ?_, hbuilt, ?_⟩
    · dsimp only
      rw [foldl_upsertCard]
    · exact (PriorityBurst.mem_keys_versions hbuilt).mp (List.mem_map_of_mem hversion)
  · exact .inl h

end Network

/-! ### Steps -/

namespace Network

variable {net : Network}

section

variable [Blake3]

/-- A request that is lost writes, saves and brings nothing. -/
theorem quiet_lost {stage : Stage} {request : Request} (hrequest : stage.request? = some request) (task : Nat)
    (env : Env) (jobs : List Job) :
    net.Quiet (net.advanced task (advance env net.client stage jobs (.error .connectionLost))) := by
  have hleaves := @leaves_advance net.client _ env stage (.error .connectionLost) jobs
  have hfiles : stage.written net.client.files = net.client.files := by
    cases stage with
    | saveEntry entry queue => cases hrequest
    | saveQueue queue => cases hrequest
    | saveRemaining queue flushed => cases hrequest
    | saveState snapshot => cases hrequest
    | _ => rfl
  have hsaves : stage.saves net.client (.error .connectionLost) = [] := by
    cases stage with
    | saveEntry entry queue => cases hrequest
    | saveRemaining queue flushed => cases hrequest
    | _ => rfl
  refine ⟨fun _ => id, hleaves.files.trans hfiles, fun other hother card hcard => ?_, fun card hcard => ?_⟩
  · rcases List.mem_or_eq_of_mem_set hother with hold | rfl
    · exact mem_saved_of_task hold hcard
    · have hsaved := hleaves.snapshot card hcard
      rw [hsaves] at hsaved
      cases hsaved
  · rcases hleaves.cards card hcard with hshown | hbrought
    · exact .inl (List.mem_append_left _ hshown)
    · cases hbrought

theorem quiet_lose {task : Nat} (env : Env) (stage : Stage) (jobs : List Job) (answer : Option Response) :
    net.Quiet (net.lose task env stage jobs answer) := by
  unfold Network.lose
  split
  · rename_i request hrequest
    have hlost := @quiet_lost net _ stage request hrequest task env jobs
    dsimp only
    split
    · exact hlost
    · -- the request stays on its way
      refine ⟨hlost.history, hlost.files, fun other hother card hcard => ?_, fun card hcard => ?_⟩
      · rcases List.mem_append.mp hother with hold | horphan
        · exact hlost.tasks other hold card hcard
        · rw [List.mem_singleton.mp horphan] at hcard
          cases hcard
      · refine (hlost.cards card hcard).imp_right (Or.imp_right fun hway => ?_)
        have hlocals : (Task.orphaned stage).locals = [] := rfl
        unfold underWay movedCards at hway ⊢
        dsimp only at hway ⊢
        rwa [List.flatMap_append, List.flatMap_singleton, hlocals, List.append_nil]
  · exact .refl net

theorem quiet_start (task : Nat) (env : Env) (work : Work) : net.Quiet (net.start task env work) := by
  obtain ⟨middle, state, hmiddle, hstart, hstate⟩ := net.start_cases task env work
  have hquiet : middle.Quiet (middle.advanced task state) := by
    rcases hstate with ⟨jobs, rfl⟩ | rfl | ⟨queue, jobs, rfl⟩
    · exact quiet_runJobs task jobs
    · exact quiet_advanced task rfl rfl rfl
    · exact quiet_advanced task rfl rfl rfl
  rw [hstart]
  rcases hmiddle with rfl | rfl
  · exact hquiet
  · exact hquiet.of_prepares (net.prepares_flushSyncTake env).1 (net.cards_flushSyncTake env)

/-- What a move shows is under way, also when it is pushed right away. -/
theorem quiet_enqueueMove (prevCard : Card) (newPriority : I64) (siblingsWithPrev : List (Card × I64))
    (debounced : Bool) (before shown after : Env) :
    net.Quiet (net.enqueueMove prevCard newPriority siblingsWithPrev debounced before shown after) := by
  have hprepares : net.Prepares
      (net.enqueueMove prevCard newPriority siblingsWithPrev debounced before shown after) :=
    @prepares_step net _ (.move prevCard newPriority siblingsWithPrev debounced before shown after) rfl
  refine hprepares.quiet fun card hcard => ?_
  unfold enqueueMove at hcard ⊢
  dsimp only at hcard ⊢
  have hbefore : (if net.client.bursting prevCard.id then net.flushBurst before else net).client.cards =
      net.client.cards := by
    split
    · exact net.cards_flushBurst before
    · rfl
  generalize (if net.client.bursting prevCard.id then net.flushBurst before else net) = start at hcard hbefore ⊢
  have hrecorded : card ∈ (start.recordMove prevCard newPriority siblingsWithPrev shown).client.cards := by
    split at hcard
    · exact hcard
    · rwa [cards_flushBurst] at hcard
  rcases mem_cards_recordMove hrecorded with hold | ⟨burst, versions, hpending, hbuilt, hid⟩
  · exact .inl (hbefore ▸ hold)
  · right
    split
    · exact .inr (mem_underWay_of_pending hpending hid)
    · rename_i hnow
      rw [if_neg hnow] at hcard
      obtain ⟨move, hmove, heq⟩ := exists_move_flushBurst hpending hbuilt hid after
      exact mem_underWay_of_moved hcard hmove heq

/-- A task that is answered. In every other step nothing is written. -/
theorem step_quiet (net : Network) (step : NetworkStep) :
    net.Quiet (net.step step) ∨ ∃ task env stage jobs response answer, step = .deliver task env ∧
      net.tasks[task]? = some (.waiting stage jobs response) ∧
      (Task.waiting stage jobs response).arrived? = some (stage, answer) ∧
      net.step step = net.advanced task (advance env net.client stage jobs answer) := by
  cases step with
  | foreign call =>
      exact .inl ⟨fun _ => List.mem_append_left _, rfl, fun _ htask _ hcard => mem_saved_of_task htask hcard,
        fun _ hcard => .inl (List.mem_append_left _ hcard)⟩
  | edit card flushNow =>
      refine .inl ((prepares_step rfl).quiet fun shown hshown => ?_)
      rcases @mem_cards_upsertCard net.client shown card hshown with hold | rfl
      · exact .inl hold
      · exact .inr (mem_underWay_of_task (List.mem_append_right _ List.mem_cons_self) List.mem_cons_self)
  | move prevCard newPriority siblingsWithPrev debounced before shown after =>
      exact .inl (quiet_enqueueMove prevCard newPriority siblingsWithPrev debounced before shown after)
  | connect connected => exact .inl ((prepares_step rfl).quiet fun _ => .inl)
  | flushBurst env => exact .inl ((prepares_step rfl).quiet fun _ hcard => .inl (net.cards_flushBurst env ▸ hcard))
  | flushBlocking env =>
      exact .inl ((prepares_step rfl).quiet fun _ hcard => .inl (net.cards_flushBlocking env ▸ hcard))
  | sync => exact .inl ((prepares_step rfl).quiet fun _ => .inl)
  | flush => exact .inl ((prepares_step rfl).quiet fun _ => .inl)
  | start task env => exact .inl (step_start (.refl net) fun work _ => quiet_start task env work)
  | handle task now => exact .inl (step_handle (.refl net) fun _ request _ _ => quiet_handle task now request)
  | lose task env => exact .inl (step_lose (.refl net) fun stage jobs answer _ => quiet_lose env stage jobs answer)
  | restart => exact .inl quiet_restart
  | deliver task env =>
      unfold Network.step
      dsimp only
      split
      · rename_i stage jobs response htask
        unfold Network.deliver
        split
        · exact .inr ⟨task, env, stage, jobs, _, _, rfl, htask, rfl, rfl⟩
        · rename_i hdevice
          refine .inr ⟨task, env, stage, jobs, none, .error .connectionLost, rfl, htask, ?_, rfl⟩
          rw [Task.arrived?, hdevice]
          rfl
        · exact .inl (.refl net)
      · exact .inl (.refl net)

end

end Network

/-! ### What the server says -/

section

variable [Blake3]

theorem Accepts.mem_cardVersions {store after : Store} {versions : List Card} (h : Accepts store versions after)
    {version : Card} (hversion : version ∈ versions) : version ∈ after.cardVersions := by
  obtain ⟨now, written, hcommitted⟩ := h
  have hlineage : version ∈ after.cards.lineage version.id := by
    rw [hcommitted.cards_eq, EntityTables.lineage_stampAll, EntityTables.mem_lineage]
    refine ⟨⟨version, 0⟩, ?_, rfl, rfl⟩
    rw [Table.mem_def, hcommitted.writes.versions_rows]
    exact List.mem_append_right _ (List.mem_map_of_mem hversion)
  exact Network.mem_cardVersions_of_lineage hlineage

/-- Changes are only sent for what the store has. -/
theorem handleRequest_changes {store : Store} {now : Int} {request : Request} {changes : ChangeSet}
    (hread : request.mutation? = none) (h : (handleRequest store now request).2 = .changes changes) :
    ∃ since, changesSince store since = .ok changes := by
  cases request with
  | getChangesSince sequence rootHash =>
      unfold handleRequest getChangesSince at h
      dsimp only at h
      split at h
      · rename_i found hfound
        cases h
        split at hfound
        · split at hfound
          · exact ⟨_, hfound⟩
          · cases hfound
        · exact ⟨_, hfound⟩
      · cases h
  | getCard id =>
      unfold handleRequest at h
      dsimp only at h
      split at h <;> cases h
  | pushCardVersions versions => cases hread
  | pushTagVersions versions => cases hread
  | pushBatch items => cases hread
  | deleteCard id => cases hread
  | deleteTag id => cases hread
  | getRoot => cases h
  | subscribe => cases h

theorem brings_handleRequest {stage : Stage} {request : Request} (hrequest : stage.request? = some request)
    (store : Store) (now : Int) :
    ∀ card ∈ stage.brings (.ok (handleRequest store now request).2),
      card ∈ (handleRequest store now request).1.cardVersions := by
  intro card hcard
  rcases request_sends hrequest with ⟨hnil, hread⟩ | ⟨hne, hsends⟩
  · cases hresponse : (handleRequest store now request).2 with
    | root root =>
        rw [hresponse, Stage.brings, hnil] at hcard
        cases hcard
    | changes changes =>
        rw [hresponse] at hcard
        obtain ⟨since, hchanges⟩ := handleRequest_changes hread hresponse
        obtain ⟨row, hrow, -, rfl⟩ := (mem_changes_cards hchanges).mp hcard
        rw [handleRequest_read hread]
        exact List.mem_append_left _ (EntityTables.mem_entities.mpr ⟨row, hrow, rfl⟩)
    | _ =>
        rw [hresponse] at hcard
        cases hcard
  · have hmap : stage.sends.map Prod.snd ≠ [] := fun hnil => hne (List.map_eq_nil_iff.mp hnil)
    rcases handleRequest_sends store now hsends hmap with ⟨haccepts, root, hroot⟩ | ⟨-, error, herror⟩
    · rw [hroot] at hcard
      exact haccepts.mem_cardVersions hcard
    · rw [herror] at hcard
      cases hcard

end

namespace Network

variable {net : Network}

/-- What the answers on their way bring is what the server has had. -/
def Truthful (net : Network) : Prop :=
  ∀ stage jobs response, Task.waiting stage jobs (some response) ∈ net.tasks →
    ∀ card ∈ stage.brings (.ok response), card ∈ net.history

theorem Truthful.step [Blake3] (h : net.Truthful) (step : NetworkStep) : (net.step step).Truthful := by
  intro stage jobs response htask card hcard
  rcases answered_step htask with hold | ⟨task, now, request, rfl, hrequest, hhandled, rfl⟩
  · exact mem_history_step (h stage jobs response hold card hcard) step
  · rw [hhandled]
    exact List.mem_append_right _ (brings_handleRequest hrequest net.store now card hcard)

theorem Truthful.brings (h : net.Truthful) {stage : Stage} {jobs : List Job} {response : Option Response}
    {answer : Answer} (htask : Task.waiting stage jobs response ∈ net.tasks)
    (harrived : (Task.waiting stage jobs response).arrived? = some (stage, answer)) :
    ∀ card ∈ stage.brings answer, card ∈ net.history := by
  unfold Task.arrived? at harrived
  split at harrived
  · rename_i waits more response heq
    cases heq
    cases harrived
    exact h stage jobs response htask
  · split at harrived
    · cases harrived
      exact fun _ hcard => absurd hcard List.not_mem_nil
    · cases harrived
  · cases harrived
  · cases harrived
  · cases harrived
  · cases harrived

end Network

/-! ### The invariant -/

namespace Network

variable {net other : Network}

/-- Every version that is shown or saved is with the server or under way, and the saved ones are accounted for. -/
structure Covered (net : Network) : Prop where
  truthful : net.Truthful
  locals : ∀ card ∈ net.client.cards ++ net.saved, card ∈ net.history ∨ card.id ∈ net.underWay
  files : ∀ card ∈ net.saved, net.Accounted net.client.files.queue card

theorem Accounted.mono {queue : List Card} {card : Card} (h : net.Accounted queue card)
    (hhistory : ∀ known ∈ net.history, known ∈ other.history) : other.Accounted queue card :=
  h.imp_left (hhistory card)

theorem Covered.tracked (h : net.Covered) : net.Tracked :=
  fun card hcard => h.files card (mem_saved.mpr (.inl hcard))

section

variable [Blake3]

/-- What has been shown or saved stays with the server or under way, or is settled when it is let go of. -/
theorem Covered.kept (h : net.Covered) {step : NetworkStep} (hne : step ≠ .restart) (hletsGo : net.LetsGoSettled step)
    {card : Card} (hold : card ∈ net.client.cards ++ net.saved)
    (hnew : card ∈ (net.step step).client.cards ++ (net.step step).saved) :
    card ∈ (net.step step).history ∨ card.id ∈ (net.step step).underWay := by
  rcases h.locals card hold with hknown | hway
  · exact .inl (mem_history_step hknown step)
  · have hsettled : card.id ∈ (net.step step).underWay ∨ (net.step step).Settled card.id := by
      cases step with
      | restart => exact absurd rfl hne
      | _ => exact hletsGo card.id hway
    rcases hsettled with hstill | hsettled
    · exact .inr hstill
    · exact .inl (hsettled card hnew rfl)

theorem Covered.quiet (h : net.Covered) {step : NetworkStep} (hquiet : net.Quiet (net.step step))
    (hne : step ≠ .restart) (hletsGo : net.LetsGoSettled step) : (net.step step).Covered := by
  refine ⟨h.truthful.step step, fun card hcard => ?_, fun card hcard => ?_⟩
  · rcases List.mem_append.mp hcard with hshown | hsaved
    · rcases hquiet.cards card hshown with hold | hnew
      · exact h.kept hne hletsGo hold hcard
      · exact hnew
    · exact h.kept hne hletsGo (List.mem_append_right _ (hquiet.saved hsaved)) hcard
  · rw [hquiet.files]
    exact (h.files card (hquiet.saved hcard)).mono hquiet.history

/-- A start from the files takes over the entries. -/
theorem Covered.restart (h : net.Covered) : net.restart.Covered := by
  have hfiles : ∀ card ∈ net.restart.saved, net.Accounted net.client.files.queue card :=
    fun card hcard => h.files card (quiet_restart.saved hcard)
  refine ⟨h.truthful.step .restart, fun card hcard => ?_, hfiles⟩
  have hsaved : card ∈ net.restart.saved :=
    (List.mem_append.mp hcard).elim (fun hshown => mem_saved.mpr (.inl hshown)) id
  refine (hfiles card hsaved).imp_right ?_
  rintro ⟨entry, hentry, hid⟩
  exact hid ▸ @mem_underWay_of_queued net.restart entry hentry

/-- The state file is the one before, or a snapshot that was on its way. -/
theorem mem_saved_advanced {task : Nat} {env : Env} {stage : Stage} {jobs : List Job} {response : Option Response}
    {answer : Answer} (htask : net.tasks[task]? = some (.waiting stage jobs response)) {card : Card}
    (h : card ∈ (net.advanced task (advance env net.client stage jobs answer)).saved) :
    card ∈ net.saved ∨ card ∈ stage.saves net.client answer := by
  have hleaves := @leaves_advance net.client _ env stage answer jobs
  rcases mem_saved.mp h with hfile | ⟨other, hother, hmem⟩
  · left
    have hloaded : card ∈ (ClientState.load (stage.written net.client.files)).cards := hleaves.files ▸ hfile
    cases stage with
    | saveState snapshot =>
        obtain ⟨state, hstate, hmem⟩ := mem_load.mp hloaded
        cases Option.eq_some_of_filter_eq_some hstate
        exact mem_saved_of_task (List.mem_of_getElem? htask) hmem
    | _ => exact mem_saved.mpr (.inl hloaded)
  · rcases List.mem_or_eq_of_mem_set hother with hold | rfl
    · exact .inl (mem_saved_of_task hold hmem)
    · exact .inr (hleaves.snapshot card hmem)

/-- A task is answered: what it saves is with the server or has an entry, and so has what was saved before. -/
theorem Covered.deliver (h : net.Covered) {task : Nat} {env : Env} {stage : Stage} {jobs : List Job}
    {response : Option Response} {answer : Answer}
    (htask : net.tasks[task]? = some (.waiting stage jobs response))
    (harrived : (Task.waiting stage jobs response).arrived? = some (stage, answer))
    (hstep : net.step (.deliver task env) = net.advanced task (advance env net.client stage jobs answer))
    (hqueued : net.SavesQueued (.deliver task env)) (hletsGo : net.LetsGoSettled (.deliver task env)) :
    (net.step (.deliver task env)).Covered := by
  have hleaves := @leaves_advance net.client _ env stage answer jobs
  have hway : ∀ id ∈ net.underWay, stage.isSave answer = true ∨ id ∈ net.client.files.queue.map Card.id →
      id ∈ (stage.queue?.getD net.client.files.queue).map Card.id := by
    refine hqueued (stage, answer) ?_
    rw [htask]
    exact harrived
  have hbrings := h.truthful.brings (List.mem_of_getElem? htask) harrived
  have hne : NetworkStep.deliver task env ≠ .restart := nofun
  have haccounted : ∀ {id : Uuid}, id ∈ (stage.queue?.getD net.client.files.queue).map Card.id →
      ∃ entry ∈ stage.queue?.getD net.client.files.queue, entry.id = id := List.mem_map.mp
  -- what was saved is still accounted for
  have hkept : ∀ card ∈ net.saved, net.Accounted (stage.queue?.getD net.client.files.queue) card := by
    intro card hcard
    rcases h.files card hcard with hknown | ⟨entry, hentry, hid⟩
    · exact .inl hknown
    · rcases h.locals card (List.mem_append_right _ hcard) with hknown | hunderWay
      · exact .inl hknown
      · exact .inr (haccounted (hway card.id hunderWay (.inr (hid ▸ List.mem_map_of_mem hentry))))
  have hsaves : ∀ card ∈ stage.saves net.client answer,
      net.Accounted (stage.queue?.getD net.client.files.queue) card := by
    intro card hcard
    rcases mem_saves hcard with hshown | hbrought
    · rcases h.locals card (List.mem_append_left _ hshown) with hknown | hunderWay
      · exact .inl hknown
      · exact .inr (haccounted (hway card.id hunderWay (.inl (isSave_of_mem hcard))))
    · exact .inl (hbrings card hbrought)
  have hsaved : ∀ card ∈ (net.step (.deliver task env)).saved,
      card ∈ net.saved ∨ card ∈ stage.saves net.client answer := by
    rw [hstep]
    exact fun card => mem_saved_advanced htask
  have hkeptLocal : ∀ card ∈ (net.step (.deliver task env)).client.cards ++ (net.step (.deliver task env)).saved,
      card ∈ net.client.cards ++ net.saved ∨ card ∈ stage.brings answer := by
    intro card hcard
    rcases List.mem_append.mp hcard with hshown | hmem
    · rw [hstep] at hshown
      exact (hleaves.cards card hshown).imp_left (List.mem_append_left _)
    · rcases hsaved card hmem with hold | hnew
      · exact .inl (List.mem_append_right _ hold)
      · exact (mem_saves hnew).imp_left (List.mem_append_left _)
  refine ⟨h.truthful.step _, fun card hcard => ?_, fun card hcard => ?_⟩
  · rcases hkeptLocal card hcard with hold | hbrought
    · exact h.kept hne hletsGo hold hcard
    · exact .inl (mem_history_step (hbrings card hbrought) _)
  · have hnow : net.Accounted (stage.queue?.getD net.client.files.queue) card :=
      (hsaved card hcard).elim (hkept card) (hsaves card)
    have hqueue : (net.step (.deliver task env)).client.files.queue = stage.queue?.getD net.client.files.queue := by
      rw [hstep]
      exact congrArg Files.queue hleaves.files
    rw [hqueue]
    exact hnow.mono fun known hknown => mem_history_step hknown _

theorem Covered.step (h : net.Covered) (step : NetworkStep)
    (hcondition : net.SavesQueued step ∧ net.LetsGoSettled step) : (net.step step).Covered := by
  rcases net.step_quiet step with hquiet | ⟨task, env, stage, jobs, response, answer, rfl, htask, harrived, hstep⟩
  · by_cases hrestart : step = .restart
    · rw [hrestart]
      exact h.restart
    · exact h.quiet hquiet hrestart hcondition.2
  · exact h.deliver htask harrived hstep hcondition.1 hcondition.2

end

end Network

end BlazeList
