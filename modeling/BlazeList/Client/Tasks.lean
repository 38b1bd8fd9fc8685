import BlazeList.Client.IncrementalSync
import BlazeList.Client.Priority
import BlazeList.Protocol.Chain
import BlazeList.Server.Handler

/-!
# Tasks of the client

The client is single-threaded: an asynchronous task runs undisturbed from one `await` to the next. A
suspended task is given by the point it waits at, with the local variables it still needs, and by the
calls it makes after that.
-/

namespace BlazeList

/-! ### Answers -/

inductive ClientError where
  | protocol (error : ProtocolError)
  | unexpectedResponse
  | connectionLost

/-- What comes back from a request: a response, or nothing when the connection is lost. -/
abbrev Answer := Except ClientError Response

def Answer.intoRoot : Answer → Except ClientError RootState
  | .ok (.root root) => .ok root
  | .ok (.error error) => .error (.protocol error)
  | .ok _ => .error .unexpectedResponse
  | .error error => .error error

def Answer.intoCard : Answer → Except ClientError Card
  | .ok (.card card) => .ok card
  | .ok (.error error) => .error (.protocol error)
  | .ok _ => .error .unexpectedResponse
  | .error error => .error error

def Answer.intoChanges : Answer → Except ClientError ChangeSet
  | .ok (.changes changes) => .ok changes
  | .ok (.error error) => .error (.protocol error)
  | .ok _ => .error .unexpectedResponse
  | .error error => .error error

/-- What the code reads from outside while it runs: the clock, the random numbers, and the order in
which a hash map is walked. -/
structure Env where
  now : DateTime
  randomRange : Int → Int
  hashOrder : List Uuid

/-! ### Bursts of moves -/

/-- Pre-burst snapshots of the moved card and of each shifted sibling, with their target priorities. -/
structure PriorityBurst where
  base : Card
  priority : I64
  siblings : List (Card × I64)

def PriorityBurst.new (base : Card) (priority : I64) : PriorityBurst := ⟨base, priority, []⟩

/-- Only the first snapshot of a sibling is kept, and only its last target. -/
def recordSibling (siblings : List (Card × I64)) (move : Card × I64) : List (Card × I64) :=
  if siblings.any fun sibling => sibling.1.id = move.1.id then
    siblings.map fun sibling =>
      if sibling.1.id = move.1.id then (sibling.1, move.2) else sibling
  else
    siblings ++ [move]

def PriorityBurst.applyMove (burst : PriorityBurst) (newPriority : I64)
    (siblingsWithPrev : List (Card × I64)) : PriorityBurst :=
  { burst with
    priority := newPriority
    siblings := siblingsWithPrev.foldl recordSibling burst.siblings }

section

variable [Blake3]

def Card.reprioritized (card : Card) (priority : I64) (now : DateTime) : Option Card :=
  card.next card.content priority card.tags card.blazed now card.dueDate

def PriorityBurst.buildVersions (burst : PriorityBurst) (env : Env) : Option (Card × List Card) := do
  let primary ← burst.base.reprioritized burst.priority env.now
  let siblings ← (burst.siblings.orderBy fun sibling => env.hashOrder.idxOf sibling.1.id).mapM
    fun sibling => sibling.1.reprioritized sibling.2 env.now
  return (primary, siblings)

/-- With an ancestor the next version on top of it, else a new first version. -/
def rebuildCard (now : DateTime) (card : Card) (priority : I64) (ancestor : Option Card) :
    Option Card :=
  match ancestor with
  | some ancestor => ancestor.next card.content priority card.tags card.blazed now card.dueDate
  | none =>
      some (Card.first card.id card.content priority card.tags card.blazed card.createdAt card.dueDate)

end

/-! ### The state -/

structure LocalState where
  cards : List Card
  tags : List Tag
  root : RootState

structure Files where
  state : Option LocalState
  queue : List Card

structure ClientState extends AppState where
  offlineQueue : List Card
  pendingPriority : Option PriorityBurst
  connected : Bool
  files : Files

/-- The card takes the place of the one with its id, at the end. -/
def replaceCard (cards : List Card) (card : Card) : List Card :=
  cards.filter (fun other => other.id ≠ card.id) ++ [card]

theorem mem_replaceCard {cards : List Card} {card other : Card} :
    other ∈ replaceCard cards card ↔ other ∈ cards ∧ other.id ≠ card.id ∨ other = card := by
  rw [replaceCard, List.mem_append, List.mem_filter, List.mem_singleton, decide_eq_true_eq]

def ClientState.upsertCard (client : ClientState) (card : Card) : ClientState :=
  { client with cards := replaceCard client.cards card }

theorem foldl_upsertCard (client : ClientState) (cards : List Card) :
    cards.foldl ClientState.upsertCard client =
      { client with cards := cards.foldl replaceCard client.cards } := by
  induction cards generalizing client with
  | nil => rfl
  | cons card rest ih => exact ih (client.upsertCard card)

def ClientState.dropEntries (client : ClientState) (ids : List Uuid) : ClientState :=
  { client with offlineQueue := client.offlineQueue.filter fun entry => entry.id ∉ ids }

/-! ### Suspended tasks -/

inductive FlushStage where
  | push
  | fetch (cards : List Card)
  | retry (retry : Card)
  | batch (shifted : List Card) (retry : Card)
  | rebased (rebased : Card)
  | recreated (recreated : Card)

structure FlushLoop where
  rest : List Card
  remaining : List Card
  total : Nat

inductive Job where
  | pushCardOrQueue (card : Card)
  | pushBurst (primary : Card) (siblings : List Card)
  | flushOfflineQueue
  | incrementalSync
  | recoverySync

def Job.cards : Job → List Card
  | .pushCardOrQueue card => [card]
  | .pushBurst primary siblings => primary :: siblings
  | .flushOfflineQueue | .incrementalSync | .recoverySync => []

/-- The points a task waits at. -/
inductive Stage where
  | push (card : Card)
  | pushRebased (card rebased : Card)
  | pushRecreated (card recreated : Card)
  | pushBatch (primary : Card) (siblings : List Card)
  | flush (loop : FlushLoop) (card : Card) (stage : FlushStage)
  | getChanges (root : Option RootState) (recovering : Bool)
  | clearHistoryCache
  | saveEntry (entry : Card) (queue : List Card)
  | saveQueue (queue : List Card)
  | saveRemaining (queue : List Card) (flushed : Bool)
  | saveState (snapshot : LocalState)

/-- How a task goes on: it waits, with calls to make afterwards, or it makes the calls right away. A
version past the last count does not exist, and the source panics. -/
inductive Next where
  | await (stage : Stage) (jobs : List Job)
  | done (jobs : List Job)
  | panic

inductive Progress where
  | waiting (stage : Stage) (jobs : List Job)
  | finished
  | panicked

def Progress.isFinished : Progress → Bool
  | .finished => true
  | .waiting _ _ | .panicked => false

theorem Progress.isFinished_iff {progress : Progress} :
    progress.isFinished = true ↔ progress = .finished := by
  cases progress <;> simp [isFinished]

def Stage.request? : Stage → Option Request
  | .push card => some (.pushCardVersions [card])
  | .pushRebased _ rebased => some (.pushCardVersions [rebased])
  | .pushRecreated _ recreated => some (.pushCardVersions [recreated])
  | .pushBatch primary siblings =>
      some (.pushBatch (.cards [primary] :: siblings.map fun sibling => .cards [sibling]))
  | .flush _ card stage =>
      some <| match stage with
        | .push => .pushCardVersions [card]
        | .fetch _ => .getCard card.id
        | .retry retry => .pushCardVersions [retry]
        | .batch shifted retry =>
            .pushBatch ((shifted.map fun version => .cards [version]) ++ [.cards [retry]])
        | .rebased rebased => .pushCardVersions [rebased]
        | .recreated recreated => .pushCardVersions [recreated]
  | .getChanges root _ =>
      some (root.elim (.getChangesSince .min zeroHash) fun root =>
        .getChangesSince root.sequence root.hash)
  | .clearHistoryCache | .saveEntry _ _ | .saveQueue _ | .saveRemaining _ _ | .saveState _ => none

/-! ### Saving -/

/-- Without a root there is nothing to save. -/
def saveLocalState (client : ClientState) (jobs : List Job) : ClientState × Next :=
  match client.root with
  | none => (client, .done jobs)
  | some root => (client, .await (.saveState ⟨client.cards, client.tags, root⟩) jobs)

/-! ### Pushing one card -/

/-- Keep only the latest version of a card. -/
def queueCard (client : ClientState) (entry : Card) : ClientState × Stage :=
  let queue := replaceCard client.offlineQueue entry
  ({ client with offlineQueue := queue }, .saveEntry entry queue)

def clearQueuedCard (client : ClientState) (cardId : Uuid) : ClientState × Next :=
  if client.offlineQueue.any fun entry => entry.id = cardId then
    let client := client.dropEntries [cardId]
    (client, .await (.saveQueue client.offlineQueue) [])
  else
    (client, .done [])

def pushCardOrQueue (client : ClientState) (card : Card) : ClientState × Stage :=
  if client.connected then (client, .push card) else queueCard client card

def awaitQueued (client : ClientState) (entry : Card) : ClientState × Next :=
  let (client, stage) := queueCard client entry
  (client, .await stage [])

section

variable [Blake3]

def afterPush (env : Env) (client : ClientState) (card : Card) (answer : Answer) :
    ClientState × Next :=
  match answer.intoRoot with
  | .ok _ => clearQueuedCard client card.id
  | .error (.protocol (.pushFailed (.cardAncestorMismatch serverCard))) =>
      match rebuildCard env.now card card.priority (some serverCard) with
      | some rebased => (client, .await (.pushRebased card rebased) [])
      | none => (client, .panic)
  | .error (.protocol (.pushFailed .hashVerificationFailed)) =>
      match rebuildCard env.now card card.priority none with
      | some recreated => (client, .await (.pushRecreated card recreated) [])
      | none => (client, .panic)
  | .error _ => awaitQueued client card

end

def afterRebased (client : ClientState) (card rebased : Card) (answer : Answer) :
    ClientState × Next :=
  match answer.intoRoot with
  | .ok _ => clearQueuedCard (client.upsertCard rebased) card.id
  | .error _ => awaitQueued client card

/-- The recreated version is queued, so that no reconciliation drops it. -/
def afterRecreated (client : ClientState) (card recreated : Card) (answer : Answer) :
    ClientState × Next :=
  match answer.intoRoot with
  | .ok _ => clearQueuedCard (client.upsertCard recreated) card.id
  | .error _ => awaitQueued client recreated

/-! ### Pushing a burst -/

def perCard (primary : Card) (siblings : List Card) : List Job :=
  (primary :: siblings).map .pushCardOrQueue

/-- The batch of a burst has been answered. On a failure each card is pushed by itself. -/
def afterBatch (client : ClientState) (primary : Card) (siblings : List Card) (answer : Answer) :
    ClientState × Next :=
  match answer.intoRoot with
  | .ok _ =>
      let client := client.dropEntries (primary.id :: siblings.map Card.id)
      (client, .await (.saveQueue client.offlineQueue) [])
  | .error _ => (client, .done (perCard primary siblings))

def pushBurst (client : ClientState) (primary : Card) (siblings : List Card) :
    ClientState × Stage × List Job :=
  if siblings.isEmpty ∨ client.connected = false then
    let (client, stage) := pushCardOrQueue client primary
    (client, stage, siblings.map .pushCardOrQueue)
  else
    (client, .pushBatch primary siblings, [])

/-! ### Flushing the queue -/

def reconcileOfflineQueue (queue localCards : List Card) : List Card :=
  queue.filter fun queued =>
    queued.ancestorHash = zeroHash ∨
      ¬ localCards.any fun card => card.id = queued.id ∧ card.count.val > queued.count.val

def endFlush (client : ClientState) (remaining : List Card) (total : Nat) : ClientState × Next :=
  ({ client with offlineQueue := remaining },
    .await (.saveRemaining remaining (remaining.length < total)) [])

/-- On to the next card, with `kept` put back. After a connection error the rest is put back too. -/
def continueFlush (client : ClientState) (loop : FlushLoop) (kept : Option Card)
    (hitConnectionError : Bool) : ClientState × Next :=
  let remaining := loop.remaining ++ kept.toList
  match loop.rest with
  | [] => endFlush client remaining loop.total
  | card :: rest =>
      if hitConnectionError then
        endFlush client (remaining ++ card :: rest) loop.total
      else
        (client, .await (.flush { loop with rest, remaining } card .push) [])

def flushOfflineQueue (client : ClientState) : ClientState × Option Stage :=
  if client.offlineQueue.isEmpty then
    (client, none)
  else
    match reconcileOfflineQueue client.offlineQueue client.cards with
    | [] => ({ client with offlineQueue := [] }, some (.saveQueue []))
    | card :: rest => (client, some (.flush ⟨rest, [], rest.length + 1⟩ card .push))

section

variable [Blake3]

def placeQueued (env : Env) (client : ClientState) (loop : FlushLoop) (card : Card)
    (cards : List Card) (serverAncestor : Option Card) : ClientState × Next :=
  match resolveCollision env.randomRange cards card.priority with
  | .simple newPriority =>
      match rebuildCard env.now card newPriority serverAncestor with
      | some retry => (client, .await (.flush loop card (.retry retry)) [])
      | none => (client, .panic)
  | .rebalanced priority shifted =>
      match rebuildCard env.now card priority serverAncestor,
        buildShiftedVersions shifted cards env.now with
      | some retry, some shifted => (client, .await (.flush loop card (.batch shifted retry)) [])
      | _, _ => (client, .panic)

def afterFlushPush (env : Env) (client : ClientState) (loop : FlushLoop) (card : Card)
    (answer : Answer) : ClientState × Next :=
  match answer.intoRoot with
  | .ok _ => continueFlush (client.upsertCard card) loop none false
  | .error .connectionLost => continueFlush client loop (some card) true
  | .error (.protocol (.pushFailed (.duplicatePriority _ _))) =>
      let cards := byPriority (client.cards.filter fun other => other.id ≠ card.id)
      if card.ancestorHash ≠ zeroHash then
        (client, .await (.flush loop card (.fetch cards)) [])
      else
        placeQueued env client loop card cards none
  | .error (.protocol (.pushFailed (.cardAncestorMismatch serverCard))) =>
      match rebuildCard env.now card card.priority (some serverCard) with
      | some rebased => (client, .await (.flush loop card (.rebased rebased)) [])
      | none => (client, .panic)
  | .error (.protocol (.pushFailed .hashVerificationFailed)) =>
      match rebuildCard env.now card card.priority none with
      | some recreated => (client, .await (.flush loop card (.recreated recreated)) [])
      | none => (client, .panic)
  | .error (.protocol (.pushFailed .alreadyDeleted)) => continueFlush client loop none false
  | .error _ => continueFlush client loop (some card) true

/-- Another version has been sent for a card. Unless it is accepted, `entry` stays in the queue. -/
def afterRetry (client accepted : ClientState) (loop : FlushLoop) (entry : Card) (answer : Answer) :
    ClientState × Next :=
  match answer.intoRoot with
  | .ok _ => continueFlush accepted loop none false
  | .error .connectionLost => continueFlush client loop (some entry) true
  | .error _ => continueFlush client loop (some entry) false

def resumeFlush (env : Env) (client : ClientState) (loop : FlushLoop) (card : Card)
    (stage : FlushStage) (answer : Answer) : ClientState × Next :=
  match stage with
  | .push => afterFlushPush env client loop card answer
  | .fetch cards =>
      match answer.intoCard with
      | .ok serverCard => placeQueued env client loop card cards (some serverCard)
      | .error .connectionLost => continueFlush client loop (some card) true
      | .error _ => continueFlush client loop (some card) false
  | .retry retry => afterRetry client (client.upsertCard retry) loop card answer
  | .batch shifted retry =>
      afterRetry client ((shifted.foldl ClientState.upsertCard client).upsertCard retry) loop card answer
  | .rebased rebased =>
      match answer.intoRoot with
      | .ok _ => continueFlush (client.upsertCard rebased) loop none false
      | .error .connectionLost => continueFlush client loop (some card) true
      -- rejected by the server: the edit is dropped, with a notice to the user
      | .error _ => continueFlush client loop none false
  | .recreated recreated =>
      afterRetry client (client.upsertCard recreated) loop recreated answer

end

/-! ### Syncing -/

def ClientState.merge (client : ClientState) (root : Option RootState) (changes : ChangeSet) :
    ClientState :=
  { client with toAppState := (receiveChanges client.toAppState root (.ok changes)).1 }

def afterChanges (client : ClientState) (root : Option RootState) (recovering : Bool)
    (answer : Answer) : ClientState × Next :=
  match answer.intoChanges, root with
  | .ok changes, some root =>
      saveLocalState (client.merge (some root) changes) [.flushOfflineQueue]
  | .ok changes, none =>
      saveLocalState (client.merge none changes) (if recovering then [.flushOfflineQueue] else [])
  -- the local state is out of sync with the server: start over
  | .error (.protocol (.rootHashMismatch _ _)), some _ =>
      (client, .await .clearHistoryCache [.recoverySync])
  | .error _, _ => (client, .done [])

/-! ### Running a task -/

def startJob (client : ClientState) : Job → ClientState × Option (Stage × List Job)
  | .pushCardOrQueue card =>
      let (client, stage) := pushCardOrQueue client card
      (client, some (stage, []))
  | .pushBurst primary siblings =>
      let (client, stage, jobs) := pushBurst client primary siblings
      (client, some (stage, jobs))
  | .flushOfflineQueue =>
      let (client, stage?) := flushOfflineQueue client
      (client, stage?.map fun stage => (stage, []))
  | .incrementalSync => (client, some (.getChanges client.root false, []))
  | .recoverySync => ({ client with root := none }, some (.getChanges none true, []))

def runJobs (client : ClientState) : List Job → ClientState × Progress
  | [] => (client, .finished)
  | job :: rest =>
      match startJob client job with
      | (client, some (stage, jobs)) => (client, .waiting stage (jobs ++ rest))
      | (client, none) => runJobs client rest

def goOn (jobs : List Job) : ClientState × Next → ClientState × Progress
  | (client, .await stage more) => (client, .waiting stage (more ++ jobs))
  | (client, .done more) => runJobs client (more ++ jobs)
  | (client, .panic) => (client, .panicked)

variable [Blake3]

/-- The point is answered, and the task runs on to its next `await`. A write to the device takes effect
when it is answered. -/
def resume (env : Env) (client : ClientState) (stage : Stage) (answer : Answer) :
    ClientState × Next :=
  match stage with
  | .push card => afterPush env client card answer
  | .pushRebased card rebased => afterRebased client card rebased answer
  | .pushRecreated card recreated => afterRecreated client card recreated answer
  | .pushBatch primary siblings => afterBatch client primary siblings answer
  | .flush loop card stage => resumeFlush env client loop card stage answer
  | .getChanges root recovering => afterChanges client root recovering answer
  | .clearHistoryCache => (client, .done [])
  | .saveEntry _ queue =>
      saveLocalState { client with files := { client.files with queue } } []
  | .saveQueue queue => ({ client with files := { client.files with queue } }, .done [])
  | .saveRemaining queue flushed =>
      let client := { client with files := { client.files with queue } }
      if flushed then saveLocalState client [] else (client, .done [])
  | .saveState snapshot =>
      ({ client with files := { client.files with state := some snapshot } }, .done [])

def advance (env : Env) (client : ClientState) (stage : Stage) (jobs : List Job) (answer : Answer) :
    ClientState × Progress :=
  goOn jobs (resume env client stage answer)

/-! ### Rebuilt versions -/

/-- What the user edits in a card besides its place, the tags up to order. -/
structure CardFields where
  content : String
  tags : List Uuid
  blazed : Bool
  dueDate : Option DateTime
  deriving DecidableEq

def Card.fields (card : Card) : CardFields :=
  ⟨card.content, card.tags.insertionSort (· ≤ ·), card.blazed, card.dueDate⟩

omit [Blake3] in
theorem insertionSort_idem (ids : List Uuid) :
    (ids.insertionSort (· ≤ ·)).insertionSort (· ≤ ·) = ids.insertionSort (· ≤ ·) :=
  (List.pairwise_insertionSort (· ≤ ·) ids).insertionSort_eq

structure Rebuilt (card : Card) (priority : I64) (ancestor : Option Card) (version : Card) : Prop where
  verified : Entity.verify version = true
  id : version.id = ancestor.elim card.id Card.id
  fields : version.fields = card.fields
  priority : version.priority = priority
  count : version.count.val = ancestor.elim 0 (fun ancestor => ancestor.count.val) + 1
  ancestorHash : version.ancestorHash = ancestor.elim zeroHash Card.hash

theorem rebuilt_of_rebuildCard {now : DateTime} {card version : Card} {priority : I64}
    {ancestor : Option Card} (h : rebuildCard now card priority ancestor = some version) :
    Rebuilt card priority ancestor version := by
  cases ancestor with
  | none =>
      obtain rfl := Option.some.inj h
      refine ⟨Entity.verify_iff.mpr rfl, rfl, ?_, rfl, rfl, rfl⟩
      simp only [Card.fields, Card.first, insertionSort_idem]
  | some ancestor =>
      obtain ⟨hverified, hid, hcontent, hpriority, htags, hblazed, -, -, hdue, hcount, hancestor⟩ :=
        Card.next_eq_some_iff.mp h
      refine ⟨hverified, hid, ?_, hpriority, hcount, hancestor⟩
      simp only [Card.fields, hcontent, htags, hblazed, hdue, insertionSort_idem]

def Card.recreated (card : Card) : Card :=
  Card.first card.id card.content card.priority card.tags card.blazed card.createdAt card.dueDate

theorem rebuildCard_none (now : DateTime) (card : Card) :
    rebuildCard now card card.priority none = some card.recreated := rfl

theorem recreated_rebuilt (card : Card) : Rebuilt card card.priority none card.recreated :=
  rebuilt_of_rebuildCard (rebuildCard_none .epoch card)

/-! ### Samples -/

def sampleEnv : Env := ⟨.epoch, fun _ => 0, []⟩

def sampleEdit (card : Card) (content : String) : Card :=
  (@Card.next polynomialBlake3 card content card.priority card.tags card.blazed .epoch
    card.dueDate).getD card

def sampleClient (cards offlineQueue : List Card) : ClientState where
  cards
  tags := []
  root := none
  offlineQueue
  pendingPriority := none
  connected := true
  files := ⟨none, []⟩

end BlazeList
