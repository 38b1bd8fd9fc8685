import BlazeList.Client.QueueRace
import BlazeList.Client.CleanSync

/-!
# A client among others

One client with all its tasks, the server, and the calls of other clients. A request that has been sent
is handled at any time, its answer can get lost, and the client can be cut off and started again. The
observer writes down which versions the server has accepted so far, and which versions were built for
moves on which snapshots.
-/

namespace BlazeList

/-! ### Tasks -/

/-- What a task is started for. An edit of the user can first push the pending burst. -/
inductive Work where
  | push (card : Card) (flushNow : Bool)
  | burst (primary : Card) (siblings : List Card)
  | stashed (primary : Card) (siblings : List Card)
  | sync
  | flush

def Work.cards : Work → List Card
  | .push card _ => [card]
  | .burst primary siblings | .stashed primary siblings => primary :: siblings
  | .sync | .flush => []

/-- A task waits with the answer, once there is one. The request of a task that is gone stays on its
way. -/
inductive Task where
  | started (work : Work)
  | waiting (stage : Stage) (jobs : List Job) (answer : Option Response)
  | finished
  | panicked
  | orphaned (stage : Stage)

def Progress.task : Progress → Task
  | .waiting stage jobs => .waiting stage jobs none
  | .finished => .finished
  | .panicked => .panicked

def Task.isDone : Task → Bool
  | .finished | .orphaned _ => true
  | .started _ | .waiting _ _ _ | .panicked => false

/-- The point whose request the server has not handled. -/
def Task.open? : Task → Option Stage
  | .waiting stage _ none | .orphaned stage => some stage
  | .started _ | .waiting _ _ (some _) | .finished | .panicked => none

def Task.answered (response : Response) : Task → Task
  | .waiting stage jobs _ => .waiting stage jobs (some response)
  | .orphaned _ => .finished
  | .started work => .started work
  | .finished => .finished
  | .panicked => .panicked

/-- What is left of a task when its client is gone. -/
def Task.orphan : Task → Task
  | .waiting stage _ none | .orphaned stage => .orphaned stage
  | .started _ | .waiting _ _ (some _) | .finished | .panicked => .finished

/-! ### The state -/

structure Network where
  store : Store
  client : ClientState
  tasks : List Task
  history : List Card
  moves : List (Card × Card)

def Store.cardVersions (store : Store) : List Card :=
  store.cards.entities ++ store.cards.versions.rows.map VersionRow.entity

def Network.new (store : Store) (client : ClientState) : Network :=
  ⟨store, client, [], store.cardVersions, []⟩

namespace Network

def storeAfter (net : Network) (store : Store) : Network :=
  { net with store, history := net.history ++ store.cardVersions }

def spawn (net : Network) (work : Work) : Network :=
  { net with tasks := net.tasks ++ [.started work] }

def advanced (net : Network) (task : Nat) (state : ClientState × Progress) : Network :=
  { net with client := state.1, tasks := net.tasks.set task state.2.task }

end Network

/-! ### Bursts -/

def PriorityBurst.cards (burst : PriorityBurst) : List (Card × I64) :=
  (burst.base, burst.priority) :: burst.siblings

/-- The burst of a move: the pending one, if it is of the same card. -/
def ClientState.burstOf (client : ClientState) (prevCard : Card) (newPriority : I64)
    (siblingsWithPrev : List (Card × I64)) : PriorityBurst :=
  let burst :=
    match client.pendingPriority with
    | some burst =>
        if burst.base.id = prevCard.id then burst else .new prevCard newPriority
    | none => .new prevCard newPriority
  burst.applyMove newPriority siblingsWithPrev

def ClientState.bursting (client : ClientState) (cardId : Uuid) : Bool :=
  client.pendingPriority.any fun burst => burst.base.id ≠ cardId

def ClientState.load (files : Files) : ClientState :=
  let local? := files.state.filter fun state => state.root.sequence ≠ .min
  { cards := (local?.map LocalState.cards).getD []
    tags := (local?.map LocalState.tags).getD []
    root := local?.map LocalState.root
    offlineQueue := files.queue
    pendingPriority := none
    connected := false
    files }

section

variable [Blake3]

/-- What is pushed for a burst, each version with the snapshot it builds on. -/
def PriorityBurst.moves (burst : PriorityBurst) (env : Env) : List (Card × Card) :=
  burst.cards.filterMap fun move =>
    (move.1.reprioritized move.2 env.now).map fun version => (move.1, version)

namespace Network

def flushSyncTake (net : Network) (env : Env) : Network × Option (Option (Card × List Card)) :=
  match net.client.pendingPriority with
  | none => (net, none)
  | some burst =>
      ({ net with
          client := { net.client with pendingPriority := none }
          moves := net.moves ++ burst.moves env },
        some (burst.buildVersions env))

def flushBurst (net : Network) (env : Env) : Network :=
  match net.flushSyncTake env with
  | (net, none) => net
  | (net, some (some (primary, siblings))) => net.spawn (.burst primary siblings)
  | (net, some none) => { net with tasks := net.tasks ++ [.panicked] }

/-- When the page is hidden the versions also go to the queue right away. -/
def flushBlocking (net : Network) (env : Env) : Network :=
  match net.flushSyncTake env with
  | (net, none) => net
  | (net, some (some (primary, siblings))) =>
      { net with
        client := { net.client with
          offlineQueue := (primary :: siblings).foldl replaceCard net.client.offlineQueue } }.spawn
        (.stashed primary siblings)
  | (net, some none) => { net with tasks := net.tasks ++ [.panicked] }

def recordMove (net : Network) (prevCard : Card) (newPriority : I64)
    (siblingsWithPrev : List (Card × I64)) (env : Env) : Network :=
  let burst := net.client.burstOf prevCard newPriority siblingsWithPrev
  let client := { net.client with pendingPriority := some burst }
  match burst.buildVersions env with
  | some (primary, siblings) =>
      { net with client := (primary :: siblings).foldl ClientState.upsertCard client }
  | none => { net with client, tasks := net.tasks ++ [.panicked] }

/-- The clock is read when another burst is flushed, when the move is shown, and when the burst is
flushed because there is no delay. -/
def enqueueMove (net : Network) (prevCard : Card) (newPriority : I64)
    (siblingsWithPrev : List (Card × I64)) (debounced : Bool) (before shown after : Env) : Network :=
  let net := if net.client.bursting prevCard.id then net.flushBurst before else net
  let net := net.recordMove prevCard newPriority siblingsWithPrev shown
  if debounced then net else net.flushBurst after

/-! ### Steps -/

def start (net : Network) (task : Nat) (env : Env) : Work → Network
  | .push card false => net.advanced task (runJobs net.client [.pushCardOrQueue card])
  | .push card true =>
      match net.flushSyncTake env with
      | (net, none) => net.advanced task (runJobs net.client [.pushCardOrQueue card])
      | (net, some (some (primary, siblings))) =>
          net.advanced task
            (runJobs net.client [.pushBurst primary siblings, .pushCardOrQueue card])
      | (net, some none) => net.advanced task (net.client, .panicked)
  | .burst primary siblings => net.advanced task (runJobs net.client [.pushBurst primary siblings])
  | .stashed primary siblings =>
      net.advanced task
        (net.client, .waiting (.saveQueue net.client.offlineQueue) [.pushBurst primary siblings])
  | .sync => net.advanced task (runJobs net.client [.incrementalSync])
  | .flush => net.advanced task (runJobs net.client [.flushOfflineQueue])

def handle (net : Network) (task : Nat) (now : Int) (request : Request) : Network :=
  let (store, response) := handleRequest net.store now request
  { net.storeAfter store with tasks := net.tasks.modify task (.answered response) }

/-- The answer arrives. A write to the device needs none. -/
def deliver (net : Network) (task : Nat) (env : Env) (stage : Stage) (jobs : List Job)
    (answer : Option Response) : Network :=
  match answer, stage.request? with
  | some response, _ => net.advanced task (advance env net.client stage jobs (.ok response))
  | none, none => net.advanced task (advance env net.client stage jobs (.error .connectionLost))
  | none, some _ => net

/-- The connection is lost. The server can still handle the request. -/
def lose (net : Network) (task : Nat) (env : Env) (stage : Stage) (jobs : List Job)
    (answer : Option Response) : Network :=
  match stage.request? with
  | some _ =>
      let net := net.advanced task (advance env net.client stage jobs (.error .connectionLost))
      if answer.isSome then net else { net with tasks := net.tasks ++ [.orphaned stage] }
  | none => net

def restart (net : Network) : Network :=
  { net with client := .load net.client.files, tasks := net.tasks.map Task.orphan }

end Network

end

inductive NetworkStep where
  | foreign (call : Call)
  | connect (connected : Bool)
  | edit (card : Card) (flushNow : Bool)
  | move (prevCard : Card) (newPriority : I64) (siblingsWithPrev : List (Card × I64))
      (debounced : Bool) (before shown after : Env)
  | flushBurst (env : Env)
  | flushBlocking (env : Env)
  | sync
  | flush
  | start (task : Nat) (env : Env)
  | handle (task : Nat) (now : Int)
  | deliver (task : Nat) (env : Env)
  | lose (task : Nat) (env : Env)
  | restart

def Network.open? (net : Network) (task : Nat) : Option Stage := net.tasks[task]?.bind Task.open?

def Network.step [Blake3] (net : Network) : NetworkStep → Network
  | .foreign call => net.storeAfter (execute net.store call)
  | .connect connected => { net with client := { net.client with connected } }
  | .edit card flushNow =>
      { net with client := net.client.upsertCard card }.spawn (.push card flushNow)
  | .move prevCard newPriority siblingsWithPrev debounced before shown after =>
      net.enqueueMove prevCard newPriority siblingsWithPrev debounced before shown after
  | .flushBurst env => net.flushBurst env
  | .flushBlocking env => net.flushBlocking env
  | .sync => net.spawn .sync
  | .flush => net.spawn .flush
  | .start task env =>
      match net.tasks[task]? with
      | some (.started work) => net.start task env work
      | _ => net
  | .handle task now =>
      match (net.open? task).bind Stage.request? with
      | some request => net.handle task now request
      | none => net
  | .deliver task env =>
      match net.tasks[task]? with
      | some (.waiting stage jobs answer) => net.deliver task env stage jobs answer
      | _ => net
  | .lose task env =>
      match net.tasks[task]? with
      | some (.waiting stage jobs answer) => net.lose task env stage jobs answer
      | _ => net
  | .restart => net.restart

/-! ### Steps of a task

A step that names a task does nothing unless the task is there to take it. -/

section Steps

variable [Blake3] {net : Network} {p : Network → Prop} {task : Nat}

theorem Network.step_start (h : p net) {env : Env}
    (hstart : ∀ work, net.tasks[task]? = some (.started work) → p (net.start task env work)) :
    p (net.step (.start task env)) := by
  unfold Network.step
  dsimp only
  split
  · rename_i work htask
    exact hstart work htask
  · exact h

theorem Network.step_handle (h : p net) {now : Int}
    (hhandle : ∀ stage request, net.open? task = some stage → stage.request? = some request →
      p (net.handle task now request)) : p (net.step (.handle task now)) := by
  unfold Network.step
  dsimp only
  split
  · rename_i request hrequest
    obtain ⟨stage, hopen, hstage⟩ := Option.bind_eq_some_iff.mp hrequest
    exact hhandle stage request hopen hstage
  · exact h

theorem Network.step_deliver (h : p net) {env : Env}
    (hdeliver : ∀ stage jobs answer, net.tasks[task]? = some (.waiting stage jobs answer) →
      p (net.deliver task env stage jobs answer)) : p (net.step (.deliver task env)) := by
  unfold Network.step
  dsimp only
  split
  · rename_i stage jobs answer htask
    exact hdeliver stage jobs answer htask
  · exact h

theorem Network.step_lose (h : p net) {env : Env}
    (hlose : ∀ stage jobs answer, net.tasks[task]? = some (.waiting stage jobs answer) →
      p (net.lose task env stage jobs answer)) : p (net.step (.lose task env)) := by
  unfold Network.step
  dsimp only
  split
  · rename_i stage jobs answer htask
    exact hlose stage jobs answer htask
  · exact h

end Steps

/-! ### What the steps leave alone -/

def Task.idle : Task → Bool
  | .started _ | .finished | .panicked => true
  | .waiting _ _ _ | .orphaned _ => false

/-- Neither the server nor the device nor a running task has noticed anything. -/
structure Network.Prepares (net other : Network) : Prop where
  store : other.store = net.store
  history : other.history = net.history
  files : other.client.files = net.client.files
  tasks : ∃ more, other.tasks = net.tasks ++ more ∧ ∀ task ∈ more, task.idle = true

def NetworkStep.isLocal : NetworkStep → Bool
  | .connect _ | .edit _ _ | .move _ _ _ _ _ _ _ | .flushBurst _ | .flushBlocking _ | .sync | .flush =>
      true
  | .foreign _ | .start _ _ | .handle _ _ | .deliver _ _ | .lose _ _ | .restart => false

namespace Network

variable {net other : Network}

theorem Prepares.refl (net : Network) : net.Prepares net :=
  ⟨rfl, rfl, rfl, [], (List.append_nil _).symm, fun _ hnil => absurd hnil List.not_mem_nil⟩

theorem Prepares.trans {last : Network} (h : net.Prepares other) (hlast : other.Prepares last) :
    net.Prepares last := by
  obtain ⟨more, htasks, hidle⟩ := h.tasks
  obtain ⟨evenMore, htasks', hidle'⟩ := hlast.tasks
  refine ⟨hlast.store.trans h.store, hlast.history.trans h.history, hlast.files.trans h.files,
    more ++ evenMore, ?_, fun task htask => ?_⟩
  · rw [htasks', htasks, List.append_assoc]
  · exact (List.mem_append.mp htask).elim (hidle task) (hidle' task)

theorem Prepares.add {task : Task} (hstore : other.store = net.store)
    (hhistory : other.history = net.history) (hfiles : other.client.files = net.client.files)
    (htasks : other.tasks = net.tasks ++ [task]) (hidle : task.idle = true) : net.Prepares other :=
  ⟨hstore, hhistory, hfiles, [task], htasks, fun _ hmem => List.mem_singleton.mp hmem ▸ hidle⟩

theorem Prepares.client {client : ClientState} (hfiles : client.files = net.client.files) :
    net.Prepares { net with client } :=
  ⟨rfl, rfl, hfiles, [], (List.append_nil _).symm, fun _ hnil => absurd hnil List.not_mem_nil⟩

variable [Blake3]

theorem prepares_flushSyncTake (net : Network) (env : Env) :
    net.Prepares (net.flushSyncTake env).1 ∧ (net.flushSyncTake env).1.tasks = net.tasks ∧
      (net.flushSyncTake env).1.client.offlineQueue = net.client.offlineQueue := by
  unfold flushSyncTake
  split
  · exact ⟨.refl net, rfl, rfl⟩
  · exact ⟨⟨rfl, rfl, rfl, [], (List.append_nil _).symm,
      fun _ hnil => absurd hnil List.not_mem_nil⟩, rfl, rfl⟩

/-- Where a burst is pending, its flush starts a task or panics. -/
theorem flushBurst_cases (net : Network) (env : Env) : ∃ more,
    net.flushBurst env = { (net.flushSyncTake env).1 with tasks := (net.flushSyncTake env).1.tasks ++ more } ∧
      ∀ task ∈ more, task.idle = true := by
  unfold flushBurst
  split
  · rename_i taken heq
    rw [heq]
    exact ⟨[], by rw [List.append_nil], fun _ hnil => absurd hnil List.not_mem_nil⟩
  · rename_i taken primary siblings heq
    rw [heq]
    exact ⟨[.started (.burst primary siblings)], rfl, fun _ hmem => List.mem_singleton.mp hmem ▸ rfl⟩
  · rename_i taken heq
    rw [heq]
    exact ⟨[.panicked], rfl, fun _ hmem => List.mem_singleton.mp hmem ▸ rfl⟩

theorem prepares_flushBurst (net : Network) (env : Env) : net.Prepares (net.flushBurst env) := by
  obtain ⟨more, heq, hidle⟩ := net.flushBurst_cases env
  rw [heq]
  exact (net.prepares_flushSyncTake env).1.trans ⟨rfl, rfl, rfl, more, rfl, hidle⟩

/-- A task starts with its calls, maybe after the pending burst has been taken. -/
theorem start_cases (net : Network) (task : Nat) (env : Env) (work : Work) : ∃ middle state,
    (middle = net ∨ middle = (net.flushSyncTake env).1) ∧ net.start task env work = middle.advanced task state ∧
      ((∃ jobs, state = runJobs middle.client jobs) ∨ state = (middle.client, .panicked) ∨
        ∃ queue jobs, state = (middle.client, .waiting (.saveQueue queue) jobs)) := by
  cases work with
  | push card flushNow =>
      cases flushNow with
      | false => exact ⟨net, _, .inl rfl, rfl, .inl ⟨_, rfl⟩⟩
      | true =>
          unfold Network.start
          dsimp only
          split
          · rename_i taken heq
            exact ⟨taken, _, .inr (by rw [heq]), rfl, .inl ⟨_, rfl⟩⟩
          · rename_i taken primary siblings heq
            exact ⟨taken, _, .inr (by rw [heq]), rfl, .inl ⟨_, rfl⟩⟩
          · rename_i taken heq
            exact ⟨taken, _, .inr (by rw [heq]), rfl, .inr (.inl rfl)⟩
  | stashed primary siblings => exact ⟨net, _, .inl rfl, rfl, .inr (.inr ⟨_, _, rfl⟩)⟩
  | burst primary siblings => exact ⟨net, _, .inl rfl, rfl, .inl ⟨_, rfl⟩⟩
  | sync => exact ⟨net, _, .inl rfl, rfl, .inl ⟨_, rfl⟩⟩
  | flush => exact ⟨net, _, .inl rfl, rfl, .inl ⟨_, rfl⟩⟩

theorem prepares_flushBlocking (net : Network) (env : Env) : net.Prepares (net.flushBlocking env) := by
  have htaken := (net.prepares_flushSyncTake env).1
  unfold flushBlocking
  split
  · rename_i taken heq
    rw [heq] at htaken
    exact htaken
  · rename_i taken primary siblings heq
    rw [heq] at htaken
    exact htaken.trans (.add rfl rfl rfl rfl rfl)
  · rename_i taken heq
    rw [heq] at htaken
    exact htaken.trans (.add rfl rfl rfl rfl rfl)

theorem prepares_recordMove (net : Network) (prevCard : Card) (newPriority : I64)
    (siblingsWithPrev : List (Card × I64)) (env : Env) :
    net.Prepares (net.recordMove prevCard newPriority siblingsWithPrev env) := by
  unfold recordMove
  dsimp only
  split
  · exact .client (by rw [foldl_upsertCard])
  · exact .add rfl rfl rfl rfl rfl

theorem prepares_step {step : NetworkStep} (h : step.isLocal = true) : net.Prepares (net.step step) := by
  cases step with
  | connect connected => exact .client rfl
  | edit card flushNow => exact .add rfl rfl rfl rfl rfl
  | move prevCard newPriority siblingsWithPrev debounced before shown after =>
      unfold Network.step enqueueMove
      dsimp only
      have hbefore : net.Prepares
          (if net.client.bursting prevCard.id then net.flushBurst before else net) := by
        split
        · exact net.prepares_flushBurst before
        · exact .refl net
      have hrecorded := hbefore.trans
        (prepares_recordMove _ prevCard newPriority siblingsWithPrev shown)
      split
      · exact hrecorded
      · exact hrecorded.trans (prepares_flushBurst _ after)
  | flushBurst env => exact net.prepares_flushBurst env
  | flushBlocking env => exact net.prepares_flushBlocking env
  | sync => exact .add rfl rfl rfl rfl rfl
  | flush => exact .add rfl rfl rfl rfl rfl
  | foreign call => cases h
  | start task env => cases h
  | handle task now => cases h
  | deliver task env => cases h
  | lose task env => cases h
  | restart => cases h

end Network

end BlazeList
