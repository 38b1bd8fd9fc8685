import BlazeList.Client.Flush

/-!
# Pushes while the queue is flushed

A flush works on the queue as it was when the flush started, and in the end it writes back what it has
kept. Calls that push cards change the queue in the meantime. A version that such a call puts there
stays, or is replaced by a later call, or is settled by the server, unless an answer to another call or
the end of the flush takes it away.
-/

namespace BlazeList

/-! ### Calls and what they do to the queue -/

/-- What an observer sees: a version put into the queue in place of others, and an answer to a request
made on behalf of local versions. -/
inductive QueueEvent where
  | put (call : Nat) (entry : Card) (displaced : List Card) (flushing : Bool)
  | answered (cards : List Card) (answer : Answer)

/-- The calls on one client in the order they were started, at most one of which is a flush. -/
structure QueueWorld where
  client : ClientState
  calls : List Progress
  flush : Option Nat
  log : List QueueEvent

inductive QueueStep where
  | push (card : Card)
  | burst (primary : Card) (siblings : List Card)
  | flush
  | connect (connected : Bool)
  | resume (call : Nat) (env : Env) (answer : Answer)

def QueueWorld.new (client : ClientState) : QueueWorld := ⟨client, [], none, []⟩

def Stage.onBehalf : Stage → List Card
  | .push card | .pushRebased card _ | .pushRecreated card _ => [card]
  | .pushBatch primary siblings => primary :: siblings
  | .flush _ card stage => (stage.version? card).toList.map fun _ => card
  | _ => []

def Progress.put? : Progress → Option Card
  | .waiting (.saveEntry entry _) _ => some entry
  | _ => none

def QueueWorld.flushing (world : QueueWorld) : Bool :=
  match world.flush.bind fun call => world.calls[call]? with
  | some (.waiting _ _) => true
  | _ => false

def QueueWorld.putEvents (world : QueueWorld) (call : Nat) (progress : Progress) : List QueueEvent :=
  progress.put?.toList.map fun entry =>
    .put call entry (world.client.offlineQueue.filter fun other => other.id = entry.id) world.flushing

def QueueWorld.started (world : QueueWorld) (state : ClientState × Progress) : QueueWorld :=
  { world with
    client := state.1
    calls := world.calls ++ [state.2]
    log := world.log ++ world.putEvents world.calls.length state.2 }

def QueueWorld.resumed (world : QueueWorld) (call : Nat) (stage : Stage) (answer : Answer)
    (state : ClientState × Progress) : QueueWorld :=
  { world with
    client := state.1
    calls := world.calls.set call state.2
    log := world.log ++ .answered stage.onBehalf answer :: world.putEvents call state.2 }

def QueueWorld.step [Blake3] (world : QueueWorld) : QueueStep → QueueWorld
  | .push card => world.started (runJobs world.client [.pushCardOrQueue card])
  | .burst primary siblings => world.started (runJobs world.client [.pushBurst primary siblings])
  | .flush =>
      if world.flush.isSome then world
      else
        { world.started (runJobs world.client [.flushOfflineQueue]) with
          flush := some world.calls.length }
  | .connect connected => { world with client := { world.client with connected } }
  | .resume call env answer =>
      match world.calls[call]? with
      | some (.waiting stage jobs) =>
          world.resumed call stage answer (advance env world.client stage jobs answer)
      | _ => world

/-! ### What becomes of a version put into the queue -/

def Answer.accepts (answer : Answer) : Bool :=
  match answer.intoRoot with
  | .ok _ => true
  | .error _ => false

/-- The server has the version, or does not want it any more. -/
def Answer.settles (answer : Answer) : Bool :=
  match answer.intoRoot with
  | .ok _ | .error (.protocol (.pushFailed .alreadyDeleted)) => true
  | .error _ => false

def QueueEvent.settles (entry : Card) : QueueEvent → Bool
  | .answered cards answer => entry ∈ cards && answer.settles
  | .put _ _ _ _ => false

/-- A call not older than `call` puts a version in the place of the entry. -/
def QueueEvent.Displaces (call : Nat) (entry : Card) : QueueEvent → Prop
  | .put later _ displaced _ => call ≤ later ∧ entry ∈ displaced
  | .answered _ _ => False

def SettledBy (log : List QueueEvent) (entry : Card) : Prop :=
  ∃ event ∈ log, event.settles entry = true

instance (log : List QueueEvent) (entry : Card) : Decidable (SettledBy log entry) :=
  inferInstanceAs (Decidable (∃ event ∈ log, _))

/-- Every version put into the queue while the flush was running is still there, or was replaced there
by a later version, or is settled. -/
def KeptWhileFlushing (log : List QueueEvent) (queue : List Card) : Prop :=
  ∀ before after call entry displaced, log = before ++ .put call entry displaced true :: after →
    entry ∈ queue ∨ (∃ event ∈ after, event.Displaces call entry) ∨ SettledBy log entry

/-! ### When nothing is taken away -/

def Stage.clears : Stage → List Uuid
  | .push card | .pushRebased card _ | .pushRecreated card _ => [card.id]
  | .pushBatch primary siblings => primary.id :: siblings.map Card.id
  | _ => []

/-- The version that goes to the queue because the request for it has failed. -/
def Stage.fallback? (answer : Answer) : Stage → Option Card
  | .push card =>
      match answer.intoRoot with
      | .ok _ | .error (.protocol (.pushFailed (.cardAncestorMismatch _)))
      | .error (.protocol (.pushFailed .hashVerificationFailed)) => none
      | .error _ => some card
  | .pushRebased card _ => if answer.accepts then none else some card
  | .pushRecreated _ recreated => if answer.accepts then none else some recreated
  | _ => none

def Stage.nextJobs (client : ClientState) (jobs : List Job) (answer : Answer) : Stage → List Job
  | .push card | .pushRebased card _ | .pushRecreated card _ =>
      if answer.accepts ∧ ¬ client.offlineQueue.any fun entry => entry.id = card.id then jobs else []
  | .pushBatch primary siblings => if answer.accepts then [] else perCard primary siblings ++ jobs
  | .saveEntry _ _ => if client.root.isNone then jobs else []
  | .saveQueue _ | .saveState _ => jobs
  | _ => []

def queuedJob? (connected : Bool) : List Job → Option Card
  | .pushCardOrQueue card :: _ => if connected then none else some card
  | _ => none

def Stage.puts? (client : ClientState) (jobs : List Job) (answer : Answer) (stage : Stage) :
    Option Card :=
  (stage.fallback? answer).or (queuedJob? client.connected (stage.nextJobs client jobs answer))

inductive FlushTurn where
  | sameCard
  | nextCard
  | stop
  deriving DecidableEq

def FlushStage.turn (answer : Answer) : FlushStage → FlushTurn
  | .push =>
      match answer.intoRoot with
      | .ok _ | .error (.protocol (.pushFailed .alreadyDeleted)) => .nextCard
      | .error (.protocol (.pushFailed (.duplicatePriority _ _)))
      | .error (.protocol (.pushFailed (.cardAncestorMismatch _)))
      | .error (.protocol (.pushFailed .hashVerificationFailed)) => .sameCard
      | .error _ => .stop
  | .fetch _ =>
      match answer.intoCard with
      | .ok _ => .sameCard
      | .error .connectionLost => .stop
      | .error _ => .nextCard
  | .retry _ | .batch _ _ | .rebased _ | .recreated _ =>
      match answer.intoRoot with
      | .error .connectionLost => .stop
      | _ => .nextCard

def FlushLoop.Ends (loop : FlushLoop) (stage : FlushStage) (answer : Answer) : Prop :=
  stage.turn answer = .stop ∨ stage.turn answer = .nextCard ∧ loop.rest = []

instance (loop : FlushLoop) (stage : FlushStage) (answer : Answer) :
    Decidable (loop.Ends stage answer) :=
  inferInstanceAs (Decidable (_ ∨ _ ∧ _))

/-- The card is given up after a rejected rebase, or another first version takes its place. -/
def FlushStage.replaces (answer : Answer) : FlushStage → Bool
  | .rebased _ =>
      match answer.intoRoot with
      | .ok _ | .error .connectionLost | .error (.protocol (.pushFailed .alreadyDeleted)) => false
      | .error _ => true
  | .recreated _ => !answer.accepts
  | _ => false

/-- The entry is not among what the flush leaves in the queue at its end. -/
def Stage.Overwrites (answer : Answer) (entry : Card) : Stage → Prop
  | .flush loop card stage =>
      loop.Ends stage answer ∧ entry ∉ loop.remaining ∧ entry ∉ loop.rest ∧
        ¬ (entry = card ∧ stage.replaces answer = false)
  | _ => False

instance (answer : Answer) (entry : Card) : (stage : Stage) → Decidable (stage.Overwrites answer entry)
  | .flush _ _ _ => inferInstanceAs (Decidable (_ ∧ _ ∧ _ ∧ ¬ _))
  | .push _ | .pushRebased _ _ | .pushRecreated _ _ | .pushBatch _ _ | .getChanges _ _
  | .clearHistoryCache | .saveEntry _ _ | .saveQueue _ | .saveRemaining _ _ | .saveState _ =>
      inferInstanceAs (Decidable False)

/-- An answer to `call` does not take away the entry that `put.1` has put into the queue. -/
structure Spares (client : ClientState) (call : Nat) (stage : Stage) (jobs : List Job)
    (answer : Answer) (put : Nat × Card) : Prop where
  accepted : answer.accepts = true → put.2.id ∈ stage.clears → put.2 ∈ stage.onBehalf
  queued : ∀ entry ∈ stage.puts? client jobs answer, entry.id = put.2.id → put.1 ≤ call
  flushed : ¬ stage.Overwrites answer put.2

def QueueEvent.putWhileFlushing : QueueEvent → Option (Nat × Card)
  | .put call entry _ true => some (call, entry)
  | .put _ _ _ false | .answered _ _ => none

/-- No answer takes away what was put into the queue while the flush was running and is not settled. -/
def QueueWorld.Careful (world : QueueWorld) : QueueStep → Prop
  | .resume call _ answer =>
      ∀ stage jobs, world.calls[call]? = some (.waiting stage jobs) →
        ∀ put ∈ world.log.filterMap QueueEvent.putWhileFlushing,
          put.2 ∈ world.client.offlineQueue → ¬ SettledBy world.log put.2 →
            Spares world.client call stage jobs answer put
  | _ => True

/-! ### A step of a call that pushes cards -/

def PushJobs (jobs : List Job) : Prop := ∀ job ∈ jobs, ∃ card, job = .pushCardOrQueue card

def Stage.Pushing : Stage → Prop
  | .push _ | .pushRebased _ _ | .pushRecreated _ _ | .pushBatch _ _ | .saveEntry _ _ | .saveQueue _
  | .saveState _ => True
  | _ => False

def Progress.Pushing : Progress → Prop
  | .waiting stage jobs => stage.Pushing ∧ PushJobs jobs
  | .finished | .panicked => True

theorem pushJobs_perCard (primary : Card) (siblings : List Card) :
    PushJobs (perCard primary siblings) := by
  intro job hjob
  obtain ⟨card, -, rfl⟩ := List.mem_map.mp hjob
  exact ⟨card, rfl⟩

theorem PushJobs.append {jobs more : List Job} (hjobs : PushJobs jobs) (hmore : PushJobs more) :
    PushJobs (jobs ++ more) := by
  intro job hjob
  exact (List.mem_append.mp hjob).elim (hjobs job) (hmore job)

inductive Queued (queue : List Card) : Option Card → ClientState × Progress → Prop
  | same {client : ClientState} {progress : Progress} (hqueue : client.offlineQueue = queue)
      (hput : progress.put? = none) : Queued queue none (client, progress)
  | put {client : ClientState} {progress : Progress} {entry : Card}
      (hqueue : client.offlineQueue = replaceCard queue entry) (hput : progress.put? = some entry) :
      Queued queue (some entry) (client, progress)

inductive QueueEffect (client : ClientState) (stage : Stage) (jobs : List Job) (answer : Answer)
    (result : ClientState × Progress) : Prop
  | queued (hqueued : Queued client.offlineQueue (stage.puts? client jobs answer) result)
  | cleared (haccepts : answer.accepts = true)
      (hqueue : result.1.offlineQueue =
        client.offlineQueue.filter fun entry => entry.id ∉ stage.clears)
      (hput : result.2.put? = none)

section

variable {client : ClientState} {stage : Stage} {jobs : List Job} {answer : Answer}

theorem queued_pushCardOrQueue (card : Card) (rest : List Job) (hrest : PushJobs rest) :
    Queued client.offlineQueue (queuedJob? client.connected (.pushCardOrQueue card :: rest))
        (runJobs client (.pushCardOrQueue card :: rest)) ∧
      (runJobs client (.pushCardOrQueue card :: rest)).2.Pushing := by
  by_cases hconnected : client.connected = true
  · have hrun : runJobs client (.pushCardOrQueue card :: rest) = (client, .waiting (.push card) rest) := by
      simp only [runJobs, startJob, pushCardOrQueue, hconnected, if_true, List.nil_append]
    have hjob : queuedJob? client.connected (.pushCardOrQueue card :: rest) = none :=
      if_pos hconnected
    rw [hrun, hjob]
    exact ⟨.same rfl rfl, trivial, hrest⟩
  · have hrun : runJobs client (.pushCardOrQueue card :: rest) =
        ({ client with offlineQueue := replaceCard client.offlineQueue card },
          .waiting (.saveEntry card (replaceCard client.offlineQueue card)) rest) := by
      simp only [runJobs, startJob, pushCardOrQueue, queueCard, if_neg hconnected, List.nil_append]
    have hjob : queuedJob? client.connected (.pushCardOrQueue card :: rest) = some card :=
      if_neg hconnected
    rw [hrun, hjob]
    exact ⟨.put rfl rfl, trivial, hrest⟩

theorem queued_runJobs (hjobs : PushJobs jobs) :
    Queued client.offlineQueue (queuedJob? client.connected jobs) (runJobs client jobs) ∧
      (runJobs client jobs).2.Pushing := by
  cases jobs with
  | nil => exact ⟨.same rfl rfl, trivial⟩
  | cons job rest =>
      obtain ⟨card, rfl⟩ := hjobs job List.mem_cons_self
      exact queued_pushCardOrQueue card rest fun other hother =>
        hjobs other (List.mem_cons_of_mem _ hother)

/-- What a call pushes or queues first when it starts. -/
theorem queued_pushBurst (primary : Card) (siblings : List Card) :
    ∃ entry, Queued client.offlineQueue entry (runJobs client [.pushBurst primary siblings]) ∧
      (runJobs client [.pushBurst primary siblings]).2.Pushing := by
  by_cases hsingle : siblings.isEmpty ∨ client.connected = false
  · have hrun : runJobs client [.pushBurst primary siblings] =
        runJobs client (.pushCardOrQueue primary :: siblings.map .pushCardOrQueue) := by
      simp only [runJobs, startJob, pushBurst, if_pos hsingle, List.append_nil, List.nil_append]
    rw [hrun]
    exact ⟨_, queued_pushCardOrQueue primary _ fun job hjob => by
      obtain ⟨card, -, rfl⟩ := List.mem_map.mp hjob
      exact ⟨card, rfl⟩⟩
  · have hrun : runJobs client [.pushBurst primary siblings] =
        (client, .waiting (.pushBatch primary siblings) []) := by
      simp only [runJobs, startJob, pushBurst, if_neg hsingle, List.append_nil]
    rw [hrun]
    exact ⟨none, .same rfl rfl, trivial, fun _ hjob => absurd hjob List.not_mem_nil⟩

/-- The next calls are made at once. -/
theorem queueEffect_runJobs {after : ClientState} {next : List Job}
    (hfallback : stage.fallback? answer = none) (hnext : stage.nextJobs client jobs answer = next)
    (hqueue : after.offlineQueue = client.offlineQueue) (hconnected : after.connected = client.connected)
    (hjobs : PushJobs next) :
    QueueEffect client stage jobs answer (runJobs after next) ∧ (runJobs after next).2.Pushing := by
  have hputs : stage.puts? client jobs answer = queuedJob? after.connected next := by
    rw [Stage.puts?, hfallback, hnext, Option.none_or, hconnected]
  obtain ⟨hqueued, hpushing⟩ := @queued_runJobs after next hjobs
  exact ⟨.queued (hputs ▸ hqueue ▸ hqueued), hpushing⟩

theorem queueEffect_saveLocalState {after : ClientState} (hfallback : stage.fallback? answer = none)
    (hnext : stage.nextJobs client jobs answer = if after.root.isNone then jobs else [])
    (hqueue : after.offlineQueue = client.offlineQueue) (hconnected : after.connected = client.connected)
    (hjobs : PushJobs jobs) :
    QueueEffect client stage jobs answer (goOn jobs (saveLocalState after [])) ∧
      (goOn jobs (saveLocalState after [])).2.Pushing := by
  unfold saveLocalState
  cases hroot : after.root with
  | none =>
      rw [hroot] at hnext
      exact queueEffect_runJobs hfallback hnext hqueue hconnected hjobs
  | some root =>
      have hputs : stage.puts? client jobs answer = none := by
        rw [hroot] at hnext
        rw [Stage.puts?, hfallback, hnext]
        rfl
      exact ⟨.queued (hputs ▸ .same hqueue rfl), trivial, hjobs⟩

theorem queueEffect_awaitQueued (entry : Card) (hfallback : stage.fallback? answer = some entry)
    (hjobs : PushJobs jobs) :
    QueueEffect client stage jobs answer (goOn jobs (awaitQueued client entry)) ∧
      (goOn jobs (awaitQueued client entry)).2.Pushing := by
  have hputs : stage.puts? client jobs answer = some entry := by
    rw [Stage.puts?, hfallback, Option.some_or]
  exact ⟨.queued (hputs ▸ .put rfl rfl), trivial, hjobs⟩

theorem queueEffect_await {next : Stage} (hputs : stage.puts? client jobs answer = none)
    (hput : Progress.put? (.waiting next jobs) = none) (hpushing : next.Pushing)
    (hjobs : PushJobs jobs) :
    QueueEffect client stage jobs answer (client, .waiting next jobs) ∧
      Progress.Pushing (.waiting next jobs) :=
  ⟨.queued (hputs ▸ .same rfl hput), hpushing, hjobs⟩

theorem queueEffect_clearQueuedCard {after : ClientState} {card : Card}
    (hclears : stage.clears = [card.id]) (haccepts : answer.accepts = true)
    (hfallback : stage.fallback? answer = none)
    (hnext : stage.nextJobs client jobs answer =
      if answer.accepts ∧ ¬ client.offlineQueue.any fun entry => entry.id = card.id then jobs else [])
    (hqueue : after.offlineQueue = client.offlineQueue) (hconnected : after.connected = client.connected)
    (hjobs : PushJobs jobs) :
    QueueEffect client stage jobs answer (goOn jobs (clearQueuedCard after card.id)) ∧
      (goOn jobs (clearQueuedCard after card.id)).2.Pushing := by
  unfold clearQueuedCard
  rw [hqueue]
  by_cases hany : client.offlineQueue.any fun entry => entry.id = card.id
  · rw [if_pos hany]
    refine ⟨.cleared haccepts ?_ rfl, trivial, hjobs⟩
    rw [hclears, ← hqueue]
    rfl
  · rw [if_neg hany]
    rw [if_pos ⟨haccepts, hany⟩] at hnext
    exact queueEffect_runJobs hfallback hnext hqueue hconnected hjobs

theorem Answer.accepts_of_ok {root : RootState} (hroot : answer.intoRoot = .ok root) :
    answer.accepts = true := by
  rw [accepts, hroot]

theorem Answer.accepts_of_error {error : ClientError} (herror : answer.intoRoot = .error error) :
    answer.accepts = false := by
  rw [accepts, herror]

variable [Blake3] {env : Env}

theorem queueEffect_push {card : Card} (hjobs : PushJobs jobs) :
    QueueEffect client (.push card) jobs answer (advance env client (.push card) jobs answer) ∧
      (advance env client (.push card) jobs answer).2.Pushing := by
  unfold advance resume afterPush
  dsimp only
  cases hroot : answer.intoRoot with
  | ok root =>
      have haccepts := Answer.accepts_of_ok hroot
      have hfallback : (Stage.push card).fallback? answer = none := by
        rw [Stage.fallback?, hroot]
      exact queueEffect_clearQueuedCard rfl haccepts hfallback rfl rfl rfl hjobs
  | error error =>
      have hnext : (Stage.push card).nextJobs client jobs answer = [] := by
        rw [Stage.nextJobs, Answer.accepts_of_error hroot]
        rfl
      split
      · rename_i heq
        cases heq
      · rename_i serverCard heq
        have hputs : (Stage.push card).puts? client jobs answer = none := by
          rw [Stage.puts?, hnext, Stage.fallback?, hroot, heq]
          rfl
        split
        · exact queueEffect_await hputs rfl trivial hjobs
        · exact ⟨.queued (hputs ▸ .same rfl rfl), trivial⟩
      · rename_i heq
        have hputs : (Stage.push card).puts? client jobs answer = none := by
          rw [Stage.puts?, hnext, Stage.fallback?, hroot, heq]
          rfl
        rw [rebuildCard_none]
        exact queueEffect_await hputs rfl trivial hjobs
      · rename_i other hmismatch hverification heq
        obtain rfl := Except.error.inj heq
        refine queueEffect_awaitQueued card ?_ hjobs
        rw [Stage.fallback?, hroot]
        split
        · rename_i heq
          cases heq
        · rename_i heq
          exact absurd (Except.error.inj heq) (hmismatch _)
        · rename_i heq
          exact absurd (Except.error.inj heq) hverification
        · rfl

theorem queueEffect_advance (hstage : stage.Pushing) (hjobs : PushJobs jobs) :
    QueueEffect client stage jobs answer (advance env client stage jobs answer) ∧
      (advance env client stage jobs answer).2.Pushing := by
  cases stage with
  | push card => exact queueEffect_push hjobs
  | pushRebased card rebased =>
      unfold advance resume afterRebased
      dsimp only
      cases hroot : answer.intoRoot with
      | ok root =>
          have haccepts := Answer.accepts_of_ok hroot
          exact queueEffect_clearQueuedCard rfl haccepts (if_pos haccepts) rfl rfl rfl hjobs
      | error error =>
          have hfails := Answer.accepts_of_error hroot
          exact queueEffect_awaitQueued card (if_neg (hfails ▸ Bool.false_ne_true)) hjobs
  | pushRecreated card recreated =>
      unfold advance resume afterRecreated
      dsimp only
      cases hroot : answer.intoRoot with
      | ok root =>
          have haccepts := Answer.accepts_of_ok hroot
          exact queueEffect_clearQueuedCard rfl haccepts (if_pos haccepts) rfl rfl rfl hjobs
      | error error =>
          have hfails := Answer.accepts_of_error hroot
          exact queueEffect_awaitQueued recreated (if_neg (hfails ▸ Bool.false_ne_true)) hjobs
  | pushBatch primary siblings =>
      unfold advance resume afterBatch
      dsimp only
      cases hroot : answer.intoRoot with
      | ok root => exact ⟨.cleared (Answer.accepts_of_ok hroot) rfl rfl, trivial, hjobs⟩
      | error error =>
          have hnext : (Stage.pushBatch primary siblings).nextJobs client jobs answer =
              perCard primary siblings ++ jobs :=
            if_neg (Answer.accepts_of_error hroot ▸ Bool.false_ne_true)
          have hall := (pushJobs_perCard primary siblings).append hjobs
          exact queueEffect_runJobs rfl hnext rfl rfl hall
  | saveEntry entry queue => exact queueEffect_saveLocalState rfl rfl rfl rfl hjobs
  | saveQueue queue => exact queueEffect_runJobs rfl rfl rfl rfl hjobs
  | saveState snapshot => exact queueEffect_runJobs rfl rfl rfl rfl hjobs
  | _ => exact hstage.elim

end

/-! ### A step of the flush -/

section

variable [Blake3]

def Progress.Flushing : Progress → Prop
  | .waiting (.flush _ card stage) jobs => stage.Sound card ∧ jobs = []
  | .waiting stage jobs => stage.Saving ∧ jobs = []
  | .finished | .panicked => True

inductive FlushEffect (client : ClientState) (stage : Stage) (answer : Answer)
    (result : ClientState × Progress) : Prop
  | same (hqueue : result.1.offlineQueue = client.offlineQueue)
  | ended {loop : FlushLoop} {card : Card} {flushStage : FlushStage} {kept : Option Card} {hit : Bool}
      (hstage : stage = .flush loop card flushStage) (hends : loop.Ends flushStage answer)
      (hverdict : Verdict ⟨card, flushStage, answer⟩ kept hit)
      (hqueue : result.1.offlineQueue = loop.remaining ++ kept.toList ++ loop.rest)

def Next.endsFlush : Next → Bool
  | .await (.saveRemaining _ _) _ => true
  | _ => false

variable {env : Env} {client : ClientState} {loop : FlushLoop} {card : Card} {stage : FlushStage}
  {answer : Answer}

omit [Blake3] in
theorem ends_of_continueFlush {after : ClientState} {kept : Option Card} {hit : Bool}
    (hturn : stage.turn answer = if hit then .stop else .nextCard)
    (hends : (continueFlush after loop kept hit).2.endsFlush = true) : loop.Ends stage answer := by
  unfold continueFlush at hends
  dsimp only at hends
  split at hends
  · rename_i hrest
    cases hit with
    | false => exact .inr ⟨hturn, hrest⟩
    | true => exact .inl hturn
  · cases hit with
    | false => cases hends
    | true => exact .inl hturn

theorem placeQueued_endsFlush {cards : List Card} {ancestor : Option Card} :
    (placeQueued env client loop card cards ancestor).2.endsFlush = false := by
  unfold placeQueued
  split
  · split <;> rfl
  · split <;> rfl

omit [Blake3] in
theorem afterRetry_ends {accepted : ClientState} {entry : Card}
    (hturn : stage.turn answer =
      match answer.intoRoot with
      | .error .connectionLost => .stop
      | _ => .nextCard)
    (hends : (afterRetry client accepted loop entry answer).2.endsFlush = true) :
    loop.Ends stage answer := by
  unfold afterRetry at hends
  split at hends
  · rename_i root hroot
    rw [hroot] at hturn
    exact ends_of_continueFlush (by rw [hturn]; rfl) hends
  · rename_i hlost
    rw [hlost] at hturn
    exact ends_of_continueFlush (by rw [hturn]; rfl) hends
  · rename_i error hlost herror
    rw [herror] at hturn
    refine ends_of_continueFlush (hturn.trans ?_) hends
    split
    · rename_i heq
      exact absurd (Except.error.inj heq) hlost
    · rfl

theorem afterFlushPush_ends
    (hends : (afterFlushPush env client loop card answer).2.endsFlush = true) :
    loop.Ends .push answer := by
  unfold afterFlushPush at hends
  split at hends
  · rename_i hroot
    exact ends_of_continueFlush (by rw [FlushStage.turn, hroot]; rfl) hends
  · rename_i hroot
    exact ends_of_continueFlush (by rw [FlushStage.turn, hroot]; rfl) hends
  · dsimp only at hends
    split at hends
    · cases hends
    · rw [placeQueued_endsFlush] at hends
      cases hends
  · split at hends <;> cases hends
  · split at hends <;> cases hends
  · rename_i hroot
    exact ends_of_continueFlush (by rw [FlushStage.turn, hroot]; rfl) hends
  · rename_i error hlost hduplicate hmismatch hverification hdeleted hroot
    refine ends_of_continueFlush ?_ hends
    rw [FlushStage.turn, hroot]
    split
    · rename_i heq
      cases heq
    · rename_i heq
      exact absurd (Except.error.inj heq) hdeleted
    · rename_i heq
      exact absurd (Except.error.inj heq) (hduplicate _ _)
    · rename_i heq
      exact absurd (Except.error.inj heq) (hmismatch _)
    · rename_i heq
      exact absurd (Except.error.inj heq) hverification
    · rfl

theorem resumeFlush_ends
    (hends : (resumeFlush env client loop card stage answer).2.endsFlush = true) :
    loop.Ends stage answer := by
  cases stage with
  | push => exact afterFlushPush_ends hends
  | fetch cards =>
      unfold resumeFlush at hends
      dsimp only at hends
      split at hends
      · rw [placeQueued_endsFlush] at hends
        cases hends
      · rename_i hcard
        exact ends_of_continueFlush (by rw [FlushStage.turn, hcard]; rfl) hends
      · rename_i error hlost hcard
        refine ends_of_continueFlush ?_ hends
        rw [FlushStage.turn, hcard]
        split <;> simp_all
  | retry retry => exact afterRetry_ends rfl hends
  | batch shifted retry => exact afterRetry_ends rfl hends
  | rebased rebased =>
      unfold resumeFlush at hends
      dsimp only at hends
      split at hends
      · rename_i hroot
        exact ends_of_continueFlush (by rw [FlushStage.turn, hroot]; rfl) hends
      · rename_i hroot
        exact ends_of_continueFlush (by rw [FlushStage.turn, hroot]; rfl) hends
      · rename_i error hlost hroot
        refine ends_of_continueFlush ?_ hends
        rw [FlushStage.turn, hroot]
        split <;> simp_all
  | recreated recreated => exact afterRetry_ends rfl hends

/-- What the end of the flush, or its next card, makes of the queue. -/
theorem flushEffect_continueFlush {after : ClientState} {kept : Option Card} {hit : Bool}
    (hverdict : Verdict ⟨card, stage, answer⟩ kept hit)
    (hqueue : after.offlineQueue = client.offlineQueue)
    (hends : (continueFlush after loop kept hit).2.endsFlush = true → loop.Ends stage answer) :
    FlushEffect client (.flush loop card stage) answer (goOn [] (continueFlush after loop kept hit)) ∧
      (goOn [] (continueFlush after loop kept hit)).2.Flushing ∧
      (goOn [] (continueFlush after loop kept hit)).2.put? = none := by
  unfold continueFlush at hends ⊢
  dsimp only at hends ⊢
  split at hends
  · rename_i hrest
    refine ⟨.ended rfl (hends rfl) hverdict ?_, ⟨trivial, rfl⟩, rfl⟩
    rw [hrest, List.append_nil]
    rfl
  · rename_i next rest hrest
    cases hit with
    | false => exact ⟨.same hqueue, ⟨FlushStage.sound_push next, rfl⟩, rfl⟩
    | true =>
        refine ⟨.ended rfl (hends rfl) hverdict ?_, ⟨trivial, rfl⟩, rfl⟩
        rw [hrest]
        rfl

theorem flushEffect_advance {point : Stage} {jobs : List Job}
    (hflushing : Progress.Flushing (.waiting point jobs)) :
    FlushEffect client point answer (advance env client point jobs answer) ∧
      (advance env client point jobs answer).2.Flushing ∧
      (advance env client point jobs answer).2.put? = none := by
  cases point with
  | flush loop card stage =>
      obtain ⟨hsound, rfl⟩ := hflushing
      have hresumed : Resumed client loop ⟨card, stage, answer⟩
          (resumeFlush env client loop card stage answer) := resumed_resumeFlush hsound
      have hends : (resumeFlush env client loop card stage answer).2.endsFlush = true →
          loop.Ends stage answer := resumeFlush_ends
      unfold advance resume
      dsimp only
      generalize resumeFlush env client loop card stage answer = result at hresumed hends ⊢
      cases hresumed with
      | panic => exact ⟨.same rfl, trivial, rfl⟩
      | again hnext _ => exact ⟨.same rfl, ⟨hnext, rfl⟩, rfl⟩
      | next hqueue hverdict => exact flushEffect_continueFlush hverdict hqueue hends
  | saveQueue queue =>
      obtain ⟨-, rfl⟩ := hflushing
      exact ⟨.same rfl, trivial, rfl⟩
  | saveRemaining queue flushed =>
      obtain ⟨-, rfl⟩ := hflushing
      cases flushed with
      | false => exact ⟨.same rfl, trivial, rfl⟩
      | true =>
          unfold advance resume
          dsimp only
          rcases saveLocalState_cases { client with files := { client.files with queue } } [] with
            hdone | ⟨snapshot, hsave⟩
          · rw [if_pos rfl, hdone]
            exact ⟨.same rfl, trivial, rfl⟩
          · rw [if_pos rfl, hsave]
            exact ⟨.same rfl, ⟨trivial, rfl⟩, rfl⟩
  | saveState snapshot =>
      obtain ⟨-, rfl⟩ := hflushing
      exact ⟨.same rfl, trivial, rfl⟩
  | _ => exact hflushing.1.elim

omit [Blake3] in
theorem flushOfflineQueue_cases (client : ClientState) :
    (runJobs client [.flushOfflineQueue]).2 = .finished ∨
      (runJobs client [.flushOfflineQueue]).2 = .waiting (.saveQueue []) [] ∨
        ∃ loop card, (runJobs client [.flushOfflineQueue]).2 = .waiting (.flush loop card .push) [] := by
  unfold runJobs startJob flushOfflineQueue
  by_cases hempty : client.offlineQueue.isEmpty
  · rw [if_pos hempty]
    exact .inl rfl
  · rw [if_neg hempty]
    cases reconcileOfflineQueue client.offlineQueue client.cards with
    | nil => exact .inr (.inl rfl)
    | cons card rest => exact .inr (.inr ⟨_, card, rfl⟩)

theorem flushing_startFlush : (runJobs client [.flushOfflineQueue]).2.Flushing := by
  rcases flushOfflineQueue_cases client with hstart | hstart | ⟨loop, card, hstart⟩
  · rw [hstart]
    trivial
  · rw [hstart]
    exact ⟨trivial, rfl⟩
  · rw [hstart]
    exact ⟨FlushStage.sound_push card, rfl⟩

omit [Blake3] in
theorem put?_startFlush : (runJobs client [.flushOfflineQueue]).2.put? = none := by
  rcases flushOfflineQueue_cases client with hstart | hstart | ⟨loop, card, hstart⟩ <;> rw [hstart] <;> rfl

end

/-! ### A step of the whole -/

/-- What a step leaves of the watched entries, and what it adds to the log. -/
theorem KeptWhileFlushing.extend {log more : List QueueEvent} {queue queue' : List Card}
    (hkept : KeptWhileFlushing log queue)
    (hold : ∀ put ∈ log.filterMap QueueEvent.putWhileFlushing, put.2 ∈ queue →
      ¬ SettledBy log put.2 →
        put.2 ∈ queue' ∨ (∃ event ∈ more, event.Displaces put.1 put.2) ∨ SettledBy more put.2)
    (hnew : ∀ call entry displaced, .put call entry displaced true ∈ more → entry ∈ queue') :
    KeptWhileFlushing (log ++ more) queue' := by
  intro before after call entry displaced hlog
  have hsettled : SettledBy log entry → SettledBy (log ++ more) entry := fun ⟨event, hevent, h⟩ =>
    ⟨event, List.mem_append_left more hevent, h⟩
  rcases List.append_eq_append_iff.mp hlog with ⟨head, rfl, hmore⟩ | ⟨tail, hbefore, htail⟩
  · exact .inl (hnew call entry displaced (hmore ▸ List.mem_append_right head List.mem_cons_self))
  · rcases List.append_eq_cons_iff.mp htail.symm with ⟨rfl, hmore⟩ | ⟨mid, rfl, rfl⟩
    · exact .inl (hnew call entry displaced (hmore ▸ List.mem_cons_self))
    · rcases hkept before mid call entry displaced hbefore with hqueue | ⟨event, hevent, h⟩ | h
      · by_cases hlogged : SettledBy log entry
        · exact .inr (.inr (hsettled hlogged))
        · have hput : (call, entry) ∈ log.filterMap QueueEvent.putWhileFlushing := by
            refine List.mem_filterMap.mpr ⟨.put call entry displaced true, ?_, rfl⟩
            exact hbefore ▸ List.mem_append_right before List.mem_cons_self
          rcases hold (call, entry) hput hqueue hlogged with hstays | ⟨event, hevent, h⟩ | h
          · exact .inl hstays
          · exact .inr (.inl ⟨event, List.mem_append_right mid hevent, h⟩)
          · obtain ⟨event, hevent, h⟩ := h
            exact .inr (.inr ⟨event, List.mem_append_right log hevent, h⟩)
      · exact .inr (.inl ⟨event, List.mem_append_left more hevent, h⟩)
      · exact .inr (.inr (hsettled h))

theorem exists_put {log : List QueueEvent} {call : Nat} {entry : Card}
    (h : (call, entry) ∈ log.filterMap QueueEvent.putWhileFlushing) :
    ∃ before after displaced, log = before ++ .put call entry displaced true :: after := by
  obtain ⟨event, hevent, hput⟩ := List.mem_filterMap.mp h
  obtain ⟨before, after, hlog⟩ := List.append_of_mem hevent
  cases event with
  | put other version displaced flushing =>
      cases flushing with
      | false => cases hput
      | true =>
          obtain ⟨rfl, rfl⟩ := Prod.mk.inj (Option.some.inj hput)
          exact ⟨before, after, displaced, hlog⟩
  | answered cards answer => cases hput

theorem keptWhileFlushing_nil (queue : List Card) : KeptWhileFlushing [] queue := by
  intro before after call entry displaced hlog
  exact absurd hlog.symm (List.append_ne_nil_of_right_ne_nil before (List.cons_ne_nil _ after))

/-- What is replaced in the queue by a new version is displaced by its event. -/
theorem queued_keeps {queue : List Card} {queued? : Option Card} {result : ClientState × Progress}
    (hqueued : Queued queue queued? result) {world : QueueWorld} (hqueue : world.client.offlineQueue = queue)
    {call : Nat} {put : Nat × Card} (hput : put.2 ∈ queue)
    (hlater : ∀ entry ∈ queued?, entry.id = put.2.id → put.1 ≤ call) :
    put.2 ∈ result.1.offlineQueue ∨
      ∃ event ∈ world.putEvents call result.2, event.Displaces put.1 put.2 := by
  cases hqueued with
  | same hsame _ => exact .inl (hsame ▸ hput)
  | @put _ progress entry hreplaced hentry =>
      by_cases hid : put.2.id = entry.id
      · have hmem : put.2 ∈ world.client.offlineQueue.filter fun other => other.id = entry.id :=
          List.mem_filter.mpr ⟨hqueue ▸ hput, decide_eq_true hid⟩
        have hevents : world.putEvents call progress = [.put call entry
            (world.client.offlineQueue.filter fun other => other.id = entry.id) world.flushing] := by
          rw [QueueWorld.putEvents, hentry]
          rfl
        rw [hevents]
        exact .inr ⟨_, List.mem_cons_self, hlater entry rfl hid.symm, hmem⟩
      · exact .inl (hreplaced ▸ mem_replaceCard.mpr (.inl ⟨hput, hid⟩))

theorem queued_puts {queue : List Card} {queued? : Option Card} {result : ClientState × Progress}
    (hqueued : Queued queue queued? result) {world : QueueWorld} {call other : Nat} {entry : Card}
    {displaced : List Card} {flushing : Bool}
    (hevent : .put other entry displaced flushing ∈ world.putEvents call result.2) :
    entry ∈ result.1.offlineQueue := by
  obtain ⟨version, hversion, heq⟩ := List.mem_map.mp hevent
  cases heq
  cases hqueued with
  | same _ hnone =>
      rw [hnone] at hversion
      cases hversion
  | put hreplaced hentry =>
      rw [hentry] at hversion
      rw [hreplaced, List.mem_singleton.mp hversion]
      exact mem_replaceCard.mpr (.inr rfl)

namespace QueueWorld

theorem mem_putsWhileFlushing {world : QueueWorld} {call : Nat} {progress : Progress}
    {put : Nat × Card}
    (h : put ∈ (world.putEvents call progress).filterMap QueueEvent.putWhileFlushing) :
    put.1 = call ∧ world.flushing = true := by
  obtain ⟨event, hevent, hput⟩ := List.mem_filterMap.mp h
  obtain ⟨entry, -, rfl⟩ := List.mem_map.mp hevent
  cases hflushing : world.flushing with
  | false =>
      rw [hflushing] at hput
      cases hput
  | true =>
      rw [hflushing] at hput
      exact ⟨(congrArg Prod.fst (Option.some.inj hput)).symm, rfl⟩

theorem not_flushing {world : QueueWorld} (hflush : world.flush = none) : world.flushing = false := by
  rw [flushing, hflush]
  rfl

variable [Blake3]

/-- The calls are pushing calls or the flush, and no version that was put is lost. -/
structure Invariant (world : QueueWorld) : Prop where
  pushing : ∀ call progress, world.flush ≠ some call → world.calls[call]? = some progress →
    progress.Pushing
  flush : ∀ call progress, world.flush = some call → world.calls[call]? = some progress →
    progress.Flushing
  flushCall : ∀ call, world.flush = some call → call < world.calls.length
  puts : ∀ put ∈ world.log.filterMap QueueEvent.putWhileFlushing,
    put.1 < world.calls.length ∧ world.flush.isSome
  kept : KeptWhileFlushing world.log world.client.offlineQueue

variable {world : QueueWorld}

theorem invariant_new (client : ClientState) : Invariant (.new client) where
  pushing _ _ _ hcall := by cases hcall
  flush _ _ hflush := by cases hflush
  flushCall _ hflush := by cases hflush
  puts _ hput := by cases hput
  kept := keptWhileFlushing_nil _

theorem Invariant.puts_append (h : world.Invariant) {call length : Nat} {progress : Progress}
    (hcall : call < length) (hlength : world.calls.length ≤ length) {put : Nat × Card}
    (hput : put ∈ (world.log ++ world.putEvents call progress).filterMap
      QueueEvent.putWhileFlushing) : put.1 < length ∧ world.flush.isSome := by
  rw [List.filterMap_append, List.mem_append] at hput
  rcases hput with hold | hnew
  · exact ⟨(h.puts put hold).1.trans_le hlength, (h.puts put hold).2⟩
  · obtain ⟨rfl, hflushing⟩ := mem_putsWhileFlushing hnew
    refine ⟨hcall, ?_⟩
    cases hflush : world.flush with
    | none =>
        rw [not_flushing hflush] at hflushing
        cases hflushing
    | some flush => rfl

theorem Invariant.started (h : world.Invariant) {queued? : Option Card}
    {result : ClientState × Progress} (hqueued : Queued world.client.offlineQueue queued? result)
    (hpushing : result.2.Pushing) : (world.started result).Invariant where
  pushing call progress hflush hcall := by
    change (world.calls ++ [result.2])[call]? = some progress at hcall
    rw [List.getElem?_append] at hcall
    split at hcall
    · exact h.pushing call progress hflush hcall
    · obtain rfl := List.mem_singleton.mp (List.mem_of_getElem? hcall)
      exact hpushing
  flush call progress hflush hcall := by
    change (world.calls ++ [result.2])[call]? = some progress at hcall
    rw [List.getElem?_append_left (h.flushCall call hflush)] at hcall
    exact h.flush call progress hflush hcall
  flushCall call hflush := by
    have hlt := h.flushCall call hflush
    rw [QueueWorld.started, List.length_append]
    exact Nat.lt_add_right _ hlt
  puts put hput := by
    rw [QueueWorld.started, List.length_append]
    exact h.puts_append (Nat.lt_succ_self _) (Nat.le_succ _) hput
  kept := by
    refine h.kept.extend (fun put hput hqueue _ => ?_) fun call entry displaced hevent =>
      queued_puts hqueued hevent
    have hle : put.1 ≤ world.calls.length := (h.puts put hput).1.le
    exact (queued_keeps hqueued rfl hqueue fun _ _ _ => hle).imp_right .inl

omit [Blake3] in
theorem startFlush_log (world : QueueWorld) :
    (world.started (runJobs world.client [.flushOfflineQueue])).log = world.log := by
  rw [started, putEvents, put?_startFlush]
  exact List.append_nil world.log

theorem Invariant.startFlush (h : world.Invariant) (hflush : world.flush = none) :
    Invariant { world.started (runJobs world.client [.flushOfflineQueue]) with
      flush := some world.calls.length } where
  pushing call progress hne hcall := by
    change (world.calls ++ [_])[call]? = some progress at hcall
    rw [List.getElem?_append] at hcall
    split at hcall
    · exact h.pushing call progress (by rw [hflush]; exact Option.some_ne_none call |>.symm) hcall
    · rename_i hlt
      have hle := (List.getElem?_eq_some_iff.mp hcall).1
      rw [List.length_singleton] at hle
      exact absurd (congrArg some (by omega : world.calls.length = call)) hne
  flush call progress hcall hprogress := by
    obtain rfl := Option.some.inj hcall
    change (world.calls ++ [_])[world.calls.length]? = some progress at hprogress
    rw [List.getElem?_concat_length] at hprogress
    exact Option.some.inj hprogress ▸ flushing_startFlush
  flushCall call hcall := by
    obtain rfl := Option.some.inj hcall
    rw [QueueWorld.started, List.length_append]
    exact Nat.lt_succ_self _
  puts put hput := by
    change put ∈ (world.started _).log.filterMap QueueEvent.putWhileFlushing at hput
    rw [startFlush_log] at hput
    have hsome := (h.puts put hput).2
    rw [hflush] at hsome
    cases hsome
  kept := by
    change KeptWhileFlushing (world.started _).log _
    rw [startFlush_log, ← List.append_nil world.log]
    refine h.kept.extend (fun put hput _ _ => ?_) fun _ _ _ hevent => absurd hevent List.not_mem_nil
    have hsome := (h.puts put hput).2
    rw [hflush] at hsome
    cases hsome

omit [Blake3] in
theorem putEvents_none {call : Nat} {progress : Progress} (hput : progress.put? = none) :
    world.putEvents call progress = [] := by
  rw [putEvents, hput]
  rfl

omit [Blake3] in
theorem settledBy_answered {cards : List Card} {answer : Answer} {entry : Card}
    (hentry : entry ∈ cards) (hsettles : answer.settles = true) (events : List QueueEvent) :
    SettledBy (.answered cards answer :: events) entry := by
  refine ⟨_, List.mem_cons_self, ?_⟩
  rw [QueueEvent.settles, decide_eq_true hentry, hsettles]
  rfl

omit [Blake3] in
theorem settles_of_accepts {answer : Answer} (haccepts : answer.accepts = true) :
    answer.settles = true := by
  unfold Answer.accepts at haccepts
  unfold Answer.settles
  split at haccepts
  · rename_i hroot
    rw [hroot]
  · cases haccepts

variable {call : Nat} {stage : Stage} {jobs : List Job} {answer : Answer} {env : Env}

/-- A pushing call takes nothing away that is not settled by its answer. -/
theorem kept_pushing (hkept : KeptWhileFlushing world.log world.client.offlineQueue)
    (hstage : stage.Pushing) (hjobs : PushJobs jobs)
    (hspares : ∀ put ∈ world.log.filterMap QueueEvent.putWhileFlushing,
      put.2 ∈ world.client.offlineQueue → ¬ SettledBy world.log put.2 →
        Spares world.client call stage jobs answer put) :
    KeptWhileFlushing
      (world.resumed call stage answer (advance env world.client stage jobs answer)).log
      (world.resumed call stage answer (advance env world.client stage jobs answer)).client.offlineQueue := by
  have heffect : QueueEffect world.client stage jobs answer (advance env world.client stage jobs answer) :=
    (queueEffect_advance hstage hjobs).1
  cases heffect with
  | queued hqueued =>
      refine hkept.extend (fun put hput hqueue hunsettled => ?_) fun other entry displaced hevent => ?_
      · have hlater := (hspares put hput hqueue hunsettled).queued
        refine (queued_keeps hqueued rfl hqueue hlater).imp_right fun ⟨event, hevent, hdisplaces⟩ => ?_
        exact .inl ⟨event, List.mem_cons_of_mem _ hevent, hdisplaces⟩
      · rcases List.mem_cons.mp hevent with heq | hevent
        · cases heq
        · exact queued_puts hqueued hevent
  | cleared haccepts hqueue' hput' =>
      refine hkept.extend (fun put hput hqueue hunsettled => ?_) fun other entry displaced hevent => ?_
      · by_cases hclears : put.2.id ∈ stage.clears
        · have hentry := (hspares put hput hqueue hunsettled).accepted haccepts hclears
          exact .inr (.inr (settledBy_answered hentry (settles_of_accepts haccepts) _))
        · refine .inl ?_
          change put.2 ∈ (advance env world.client stage jobs answer).1.offlineQueue
          rw [hqueue']
          exact List.mem_filter.mpr ⟨hqueue, decide_eq_true hclears⟩
      · rw [putEvents_none hput'] at hevent
        cases List.mem_singleton.mp hevent

omit [Blake3] in
theorem settles_of_settled {card : Card} {stage : FlushStage}
    (h : (Exchange.mk card stage answer).Settled) :
    answer.settles = true ∧ card ∈ (stage.version? card).toList.map fun _ => card := by
  rcases h with ⟨⟨root, hroot⟩, version, hversion, -⟩ | ⟨hdeleted, hsome⟩
  · refine ⟨settles_of_accepts (Answer.accepts_of_ok hroot), List.mem_map.mpr ⟨version, ?_, rfl⟩⟩
    exact Option.mem_toList.mpr hversion
  · obtain ⟨version, hversion⟩ := Option.isSome_iff_exists.mp hsome
    refine ⟨?_, List.mem_map.mpr ⟨version, Option.mem_toList.mpr hversion, rfl⟩⟩
    change answer.intoRoot = _ at hdeleted
    rw [Answer.settles, hdeleted]

/-- A card that the flush is done with, and that nothing replaces, is kept or settled. -/
theorem kept_of_verdict {card : Card} {stage : FlushStage} {kept : Option Card} {hit : Bool}
    (hverdict : Verdict ⟨card, stage, answer⟩ kept hit) (hreplaces : stage.replaces answer = false) :
    card ∈ kept.toList ∨ (Exchange.mk card stage answer).Settled := by
  cases hverdict with
  | kept hentry _ =>
      rcases hentry with rfl | ⟨-, ⟨version, hstage⟩, hroot⟩
      · exact .inl List.mem_cons_self
      · change stage = _ at hstage
        rw [hstage, FlushStage.replaces, Bool.not_eq_false'] at hreplaces
        unfold Answer.accepts at hreplaces
        split at hreplaces
        · rename_i root hok
          exact absurd hok (hroot root)
        · cases hreplaces
  | settled hsettled => exact .inr hsettled
  | givenUp hrejected =>
      obtain ⟨⟨rebased, hstage⟩, error, herror, hlost, hdeleted⟩ := hrejected
      change stage = _ at hstage
      change answer.intoRoot = _ at herror
      rw [hstage, FlushStage.replaces, herror] at hreplaces
      split at hreplaces
      · rename_i heq
        cases heq
      · rename_i heq
        exact absurd (Except.error.inj heq) hlost
      · rename_i heq
        exact absurd (Except.error.inj heq) hdeleted
      · cases hreplaces

/-- Neither does the flush. -/
theorem kept_flushing (hkept : KeptWhileFlushing world.log world.client.offlineQueue)
    (hflushing : Progress.Flushing (.waiting stage jobs))
    (hspares : ∀ put ∈ world.log.filterMap QueueEvent.putWhileFlushing,
      put.2 ∈ world.client.offlineQueue → ¬ SettledBy world.log put.2 →
        Spares world.client call stage jobs answer put) :
    KeptWhileFlushing
      (world.resumed call stage answer (advance env world.client stage jobs answer)).log
      (world.resumed call stage answer (advance env world.client stage jobs answer)).client.offlineQueue := by
  have heffect : FlushEffect world.client stage answer (advance env world.client stage jobs answer) :=
    (flushEffect_advance hflushing).1
  refine hkept.extend (fun put hput hqueue hunsettled => ?_) fun other entry displaced hevent => ?_
  · change put.2 ∈ (advance env world.client stage jobs answer).1.offlineQueue ∨ _
    cases heffect with
    | same hsame => exact .inl (hsame ▸ hqueue)
    | @ended loop card flushStage kept hit hstage hends hverdict hended =>
        have hspared := (hspares put hput hqueue hunsettled).flushed
        subst hstage
        rw [hended, List.mem_append, List.mem_append]
        by_cases hremaining : put.2 ∈ loop.remaining
        · exact .inl (.inl (.inl hremaining))
        by_cases hrest : put.2 ∈ loop.rest
        · exact .inl (.inr hrest)
        · have hcard : put.2 = card ∧ flushStage.replaces answer = false :=
            not_not.mp fun hnot => hspared ⟨hends, hremaining, hrest, hnot⟩
          rw [hcard.1]
          rcases kept_of_verdict hverdict hcard.2 with hstays | hsettled
          · exact .inl (.inl (.inr hstays))
          · obtain ⟨hsettles, hbehalf⟩ := settles_of_settled hsettled
            exact .inr (.inr (settledBy_answered hbehalf hsettles _))
  · rw [putEvents_none (flushEffect_advance hflushing).2.2] at hevent
    cases List.mem_singleton.mp hevent

omit [Blake3] in
theorem getElem?_set_cases {calls : List Progress} {call other : Nat} {next progress : Progress}
    (hlength : call < calls.length) (h : (calls.set call next)[other]? = some progress) :
    calls[other]? = some progress ∨ other = call ∧ progress = next := by
  by_cases heq : call = other
  · subst heq
    rw [List.getElem?_set_self hlength] at h
    exact .inr ⟨rfl, (Option.some.inj h).symm⟩
  · rw [List.getElem?_set_ne heq] at h
    exact .inl h

theorem Invariant.resumed (h : world.Invariant) (hcall : world.calls[call]? = some (.waiting stage jobs))
    (hspares : ∀ put ∈ world.log.filterMap QueueEvent.putWhileFlushing,
      put.2 ∈ world.client.offlineQueue → ¬ SettledBy world.log put.2 →
        Spares world.client call stage jobs answer put) :
    (world.resumed call stage answer (advance env world.client stage jobs answer)).Invariant := by
  have hlength : call < world.calls.length := (List.getElem?_eq_some_iff.mp hcall).1
  have hlengths : (world.calls.set call (advance env world.client stage jobs answer).2).length =
      world.calls.length := List.length_set
  refine ⟨?_, ?_, ?_, ?_, ?_⟩
  · intro other progress hflush hprogress
    rcases getElem?_set_cases hlength hprogress with hold | ⟨rfl, rfl⟩
    · exact h.pushing other progress hflush hold
    · obtain ⟨hstage, hjobs⟩ := h.pushing _ _ hflush hcall
      exact (queueEffect_advance hstage hjobs).2
  · intro other progress hflush hprogress
    rcases getElem?_set_cases hlength hprogress with hold | ⟨rfl, rfl⟩
    · exact h.flush other progress hflush hold
    · exact (flushEffect_advance (h.flush _ _ hflush hcall)).2.1
  · intro other hflush
    exact hlengths ▸ h.flushCall other hflush
  · intro put hput
    rw [QueueWorld.resumed, List.filterMap_append, List.filterMap_cons_none rfl,
      ← List.filterMap_append] at hput
    exact hlengths ▸ h.puts_append hlength le_rfl hput
  · by_cases hflush : world.flush = some call
    · exact kept_flushing h.kept (h.flush call _ hflush hcall) hspares
    · obtain ⟨hstage, hjobs⟩ := h.pushing call _ hflush hcall
      exact kept_pushing h.kept hstage hjobs hspares

theorem Invariant.step (h : world.Invariant) (label : QueueStep) (hcareful : world.Careful label) :
    (world.step label).Invariant := by
  cases label with
  | push card =>
      obtain ⟨hqueued, hpushing⟩ := @queued_pushCardOrQueue world.client card [] (by simp [PushJobs])
      exact h.started hqueued hpushing
  | burst primary siblings =>
      obtain ⟨entry, hqueued, hpushing⟩ := @queued_pushBurst world.client primary siblings
      exact h.started hqueued hpushing
  | flush =>
      unfold QueueWorld.step
      dsimp only
      cases hflush : world.flush with
      | none => exact h.startFlush hflush
      | some call => exact h
  | connect connected => exact ⟨h.pushing, h.flush, h.flushCall, h.puts, h.kept⟩
  | resume call env answer =>
      unfold QueueWorld.step
      dsimp only
      split
      · rename_i stage jobs hcall
        exact h.resumed hcall (hcareful stage jobs hcall)
      · exact h

end QueueWorld

/-- No version that is put into the queue while the flush is running is lost, as long as no answer takes
away what is not settled. -/
theorem queued_run [Blake3] (client : ClientState) (steps : List QueueStep)
    (hcareful : Run.Meets QueueWorld.step QueueWorld.Careful (.new client) steps) :
    KeptWhileFlushing (Run.after QueueWorld.step (.new client) steps).log
      (Run.after QueueWorld.step (.new client) steps).client.offlineQueue :=
  (hcareful.invariant QueueWorld.Invariant (QueueWorld.invariant_new client)
    fun _ label h hlabel => h.step label hlabel).kept

/-! ### A push during the flush -/

instance (client : ClientState) (call : Nat) (stage : Stage) (jobs : List Job) (answer : Answer)
    (put : Nat × Card) : Decidable (Spares client call stage jobs answer put) :=
  decidable_of_iff
    ((answer.accepts = true → put.2.id ∈ stage.clears → put.2 ∈ stage.onBehalf) ∧
      (∀ entry ∈ (stage.puts? client jobs answer).toList, entry.id = put.2.id → put.1 ≤ call) ∧
      ¬ stage.Overwrites answer put.2)
    ⟨fun h => ⟨h.1, fun entry hentry => h.2.1 entry (Option.mem_toList.mpr hentry), h.2.2⟩,
      fun h => ⟨h.accepted, fun entry hentry => h.queued entry (Option.mem_toList.mp hentry), h.flushed⟩⟩

instance (world : QueueWorld) : (step : QueueStep) → Decidable (world.Careful step)
  | .resume call _ answer =>
      match hcall : world.calls[call]? with
      | some (.waiting stage jobs) =>
          decidable_of_iff
            (∀ put ∈ world.log.filterMap QueueEvent.putWhileFlushing,
              put.2 ∈ world.client.offlineQueue → ¬ SettledBy world.log put.2 →
                Spares world.client call stage jobs answer put)
            ⟨fun h stage' jobs' hcall' => by
                cases hcall.symm.trans hcall'
                exact h,
              fun h => h stage jobs hcall⟩
      | none | some .finished | some .panicked =>
          isTrue fun stage jobs hcall' => by cases hcall.symm.trans hcall'
  | .push _ | .burst _ _ | .flush | .connect _ => isTrue trivial

def queuedBefore : Card := sampleCard 1 ⟨7, seven_mem_i64⟩

def queuedMeanwhile : Card := sampleCard 2 ⟨9, nine_mem_i64⟩

def offlineClient : ClientState :=
  { sampleClient [queuedBefore, queuedMeanwhile] [queuedBefore] with connected := false }

/-- The flush has written back its remainder when the other card is queued. -/
theorem queued_run_afterTheLoop :
    let _ := polynomialBlake3
    let steps : List QueueStep := [.flush, .resume 0 sampleEnv (.ok (.root .empty)),
      .push queuedMeanwhile, .resume 0 sampleEnv (.error .connectionLost),
      .resume 1 sampleEnv (.error .connectionLost)]
    KeptWhileFlushing (Run.after QueueWorld.step (.new offlineClient) steps).log
      (Run.after QueueWorld.step (.new offlineClient) steps).client.offlineQueue :=
  @queued_run polynomialBlake3 _ _ (by decide +kernel)

def QueueEvent.displacesNothing : QueueEvent → Bool
  | .put _ _ displaced _ => displaced.isEmpty
  | .answered _ _ => true

/-- The other card is queued between the push of the first and its answer, and the end of the flush
takes it away. -/
theorem not_kept_queuedInTheLoop :
    let _ := polynomialBlake3
    let steps : List QueueStep := [.flush, .push queuedMeanwhile,
      .resume 0 sampleEnv (.ok (.root .empty)), .resume 0 sampleEnv (.error .connectionLost),
      .resume 1 sampleEnv (.error .connectionLost)]
    let world := Run.after QueueWorld.step (.new offlineClient) steps
    world.calls.all Progress.isFinished = true ∧
      ¬ KeptWhileFlushing world.log world.client.offlineQueue := by
  intro _ steps world
  have hput : (1, queuedMeanwhile) ∈ world.log.filterMap QueueEvent.putWhileFlushing := by
    decide +kernel
  have hqueue : world.client.offlineQueue = [] := by decide +kernel
  have hnothing : world.log.all QueueEvent.displacesNothing = true := by decide +kernel
  have hunsettled : ¬ SettledBy world.log queuedMeanwhile := by decide +kernel
  refine ⟨by decide +kernel, fun hkept => ?_⟩
  obtain ⟨before, after, displaced, hlog⟩ := exists_put hput
  rcases hkept before after 1 queuedMeanwhile displaced hlog with hmem | ⟨event, hevent, h⟩ | h
  · exact absurd (hqueue ▸ hmem) List.not_mem_nil
  · have hmem : event ∈ world.log := hlog ▸ List.mem_append_right before (List.mem_cons_of_mem _ hevent)
    have hdisplaced := List.all_eq_true.mp hnothing event hmem
    cases event with
    | put call entry taken flushing => exact List.ne_nil_of_mem h.2 (List.isEmpty_iff.mp hdisplaced)
    | answered cards answer => exact h
  · exact hunsettled h

end BlazeList
