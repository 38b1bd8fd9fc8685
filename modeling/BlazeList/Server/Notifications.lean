import BlazeList.Server.Handler
import BlazeList.Server.RootHistory

/-!
# Change notifications

Every stream of a connection is served by a task of its own. A subscription confirms the request, then
creates its receiver, and then passes on what is broadcast. A mutation commits, answers, reads the root
again and broadcasts it. The steps of the tasks interleave in any order, so a broadcast can fall between
the confirmation of a subscription and its receiver.
-/

namespace BlazeList

/-! ### Streams -/

/-- What a broadcast receiver has yet to take, and whether it missed something before that. -/
structure Receiver where
  queue : List RootState
  lagged : Bool

def channelCapacity : Nat := 64

/-- A full receiver loses the oldest value. -/
def Receiver.push (root : RootState) (receiver : Receiver) : Receiver :=
  if receiver.queue.length < channelCapacity then
    { receiver with queue := receiver.queue ++ [root] }
  else
    ⟨receiver.queue.tail ++ [root], true⟩

inductive StreamTask where
  | received (request : Request)
  | answering (response : Response) (notifies : Bool)
  | rereading
  | broadcasting (root : RootState)
  | subscribing
  | listening (receiver : Receiver)
  | finished

/-- A stream between the server and a client. The last two fields are notes of an observer: the sequence
at which the client read the confirmation, and whether the receiver has ever lagged. -/
structure Stream where
  task : StreamTask
  inFlight : List Response
  delivered : List Response
  closed : Bool
  ackedAt : Option Nat
  lagged : Bool

def Stream.opened (request : Request) : Stream := ⟨.received request, [], [], false, none, false⟩

def Stream.write (response : Response) (stream : Stream) : Stream :=
  if stream.closed then stream else { stream with inFlight := stream.inFlight ++ [response] }

def Response.isError : Response → Bool
  | .error _ => true
  | _ => false

def Response.isOk : Response → Bool
  | .ok => true
  | _ => false

def Stream.deliver (sequence : Nat) (stream : Stream) : Stream :=
  match stream.closed, stream.inFlight with
  | false, response :: inFlight =>
      { stream with
        inFlight
        delivered := stream.delivered ++ [response]
        ackedAt := if response.isOk then stream.ackedAt.or (some sequence) else stream.ackedAt }
  | _, _ => stream

def Stream.close (stream : Stream) : Stream := { stream with closed := true }

def Stream.receive (root : RootState) (stream : Stream) : Stream :=
  match stream.task with
  | .listening receiver =>
      { stream with
        task := .listening (receiver.push root)
        lagged := stream.lagged || decide (channelCapacity ≤ receiver.queue.length) }
  | _ => stream

section

variable [Blake3]

def Stream.advance (store : Store) (now : Int) (stream : Stream) : Store × Stream :=
  match stream.task with
  | .received .subscribe =>
      (store,
        if stream.closed then { stream with task := .finished }
        else { stream.write .ok with task := .subscribing })
  | .received request =>
      let (after, response) := handleRequest store now request
      (after,
        { stream with
          task := .answering response (request.mutation?.isSome && ! response.isError) })
  | .answering response notifies =>
      (store, { stream.write response with task := if notifies then .rereading else .finished })
  | .rereading => (store, { stream with task := .broadcasting (getRoot store) })
  | .broadcasting _ => (store, { stream with task := .finished })
  | .subscribing => (store, { stream with task := .listening ⟨[], false⟩ })
  -- a receiver that lagged is told so once, and goes on
  | .listening ⟨queue, true⟩ => (store, { stream with task := .listening ⟨queue, false⟩ })
  | .listening ⟨root :: queue, false⟩ =>
      (store,
        if stream.closed then { stream with task := .finished }
        else { stream.write (.notification root) with task := .listening ⟨queue, false⟩ })
  | .listening ⟨[], false⟩ => (store, stream)
  | .finished => (store, stream)

def StreamTask.broadcast? : StreamTask → Option RootState
  | .broadcasting root => some root
  | _ => none

/-! ### The server -/

structure Server where
  store : Store
  streams : List Stream

def Server.start (store : Store) : Server := ⟨store, []⟩

def Server.sequence (server : Server) : Nat := server.store.rootState.sequence.val

/-- What happens: a request arrives on a new stream, a task takes a step, a client reads a response or
goes away. -/
inductive Event where
  | request (request : Request)
  | run (stream : Nat) (now : Int)
  | deliver (stream : Nat)
  | close (stream : Nat)

def Server.replace (server : Server) (i : Nat) (f : Stream → Stream) : Server :=
  match server.streams[i]? with
  | none => server
  | some stream => { server with streams := server.streams.set i (f stream) }

def Server.run (server : Server) (i : Nat) (now : Int) : Server :=
  match server.streams[i]? with
  | none => server
  | some stream =>
      let (store, advanced) := stream.advance server.store now
      let streams := server.streams.set i advanced
      match stream.task.broadcast? with
      | some root => ⟨store, streams.map (Stream.receive root)⟩
      | none => ⟨store, streams⟩

def Server.step (server : Server) : Event → Server
  | .request request => { server with streams := server.streams ++ [.opened request] }
  | .run i now => server.run i now
  | .deliver i => server.replace i (Stream.deliver server.sequence)
  | .close i => server.replace i Stream.close

end

/-! ### What a subscription is owed -/

def StreamTask.isSubscription : StreamTask → Bool
  | .subscribing | .listening _ => true
  | _ => false

def StreamTask.answer? : StreamTask → Option Response
  | .answering response _ => some response
  | _ => none

def StreamTask.queue : StreamTask → List RootState
  | .listening receiver => receiver.queue
  | _ => []

def StreamTask.promises (sequence : Nat) : StreamTask → Bool
  | .answering _ notifies => notifies
  | .rereading => true
  | .broadcasting root => sequence ≤ root.sequence.val
  | .received _ | .subscribing | .listening _ | .finished => false

/-- A notification of at least this sequence has been read, is on its way, or waits in the receiver. -/
def Stream.Reaches (sequence : Nat) (stream : Stream) : Prop :=
  ∃ root : RootState, sequence ≤ root.sequence.val ∧
    (.notification root ∈ stream.delivered ∨ .notification root ∈ stream.inFlight ∨
      root ∈ stream.task.queue)

/-- The client is there, has read the confirmation, and something was committed since. -/
def Stream.Owed (sequence : Nat) (stream : Stream) : Prop :=
  (∃ acked, stream.ackedAt = some acked ∧ acked < sequence) ∧ stream.closed = false ∧
    stream.lagged = false

structure Stream.Sound (sequence : Nat) (stream : Stream) : Prop where
  subscribed : .ok ∈ stream.inFlight ∨ stream.ackedAt.isSome → stream.closed = false →
    stream.task.isSubscription = true
  answer : stream.task.answer? ≠ some .ok
  acked : .ok ∈ stream.delivered → stream.ackedAt.isSome
  past : ∀ acked, stream.ackedAt = some acked → acked ≤ sequence

def Promised (streams : List Stream) (sequence : Nat) : Prop :=
  ∃ stream ∈ streams, stream.task.promises sequence = true

def Stream.waits (sequence : Nat) (stream : Stream) : Bool :=
  (match stream.task with
    | .subscribing => true
    | _ => false) &&
    stream.ackedAt.any (· < sequence) && ! stream.closed

/-- No broadcast falls between a confirmation that was read and the receiver, unless another task has a
broadcast of the same root or a later one before it. -/
def Server.announces (server : Server) : Event → Bool
  | .run i _ =>
      match (server.streams[i]?).bind fun stream => stream.task.broadcast? with
      | none => true
      | some _ =>
          ! (server.streams.any fun stream => stream.waits server.sequence) ||
            (server.streams.eraseIdx i).any fun stream => stream.task.promises server.sequence
  | _ => true

structure Server.Invariant (server : Server) : Prop where
  sound : ∀ stream ∈ server.streams, stream.Sound server.sequence
  served : ∀ stream ∈ server.streams, stream.Owed server.sequence →
    stream.Reaches server.sequence ∨ Promised server.streams server.sequence

/-! ### One stream -/

structure Keeps (sequence : Nat) (stream after : Stream) : Prop where
  sound : stream.Sound sequence → after.Sound sequence
  owed : after.Owed sequence → stream.Owed sequence
  reaches : after.Owed sequence → stream.Reaches sequence → after.Reaches sequence

variable {sequence : Nat} {stream : Stream}

theorem Promised.set {streams : List Stream} {i : Nat} {advanced : Stream}
    (h : Promised streams sequence) (hstream : streams[i]? = some stream)
    (hkeeps : stream.task.promises sequence = true → advanced.task.promises sequence = true) :
    Promised (streams.set i advanced) sequence := by
  obtain ⟨other, hother, hpromises⟩ := h
  obtain ⟨j, hj⟩ := List.mem_iff_getElem?.mp hother
  by_cases hij : i = j
  · subst hij
    obtain rfl : stream = other := Option.some.inj (hstream.symm.trans hj)
    have hbound := (List.getElem?_eq_some_iff.mp hstream).1
    exact ⟨advanced, List.mem_set hbound advanced, hkeeps hpromises⟩
  · refine ⟨other, List.mem_iff_getElem?.mpr ⟨j, ?_⟩, hpromises⟩
    rw [List.getElem?_set_ne hij, hj]

theorem Server.Invariant.replace {server : Server} (hinv : server.Invariant) (i : Nat)
    (f : Stream → Stream) (hkeeps : ∀ stream, Keeps server.sequence stream (f stream))
    (hpromises : ∀ stream, (f stream).task.promises server.sequence = stream.task.promises server.sequence) :
    (server.replace i f).Invariant := by
  unfold Server.replace
  cases hstream : server.streams[i]? with
  | none => exact hinv
  | some stream =>
      have hmem : stream ∈ server.streams := List.mem_of_getElem? hstream
      have hpromised : Promised server.streams server.sequence →
          Promised (server.streams.set i (f stream)) server.sequence :=
        fun h => h.set hstream fun hp => (hpromises stream).trans hp
      constructor
      · intro other hother
        rcases List.mem_or_eq_of_mem_set hother with hold | rfl
        · exact hinv.sound other hold
        · exact (hkeeps stream).sound (hinv.sound stream hmem)
      · intro other hother howed
        rcases List.mem_or_eq_of_mem_set hother with hold | rfl
        · exact (hinv.served other hold howed).imp_right hpromised
        · exact (hinv.served stream hmem ((hkeeps stream).owed howed)).imp
            ((hkeeps stream).reaches howed) hpromised

theorem Response.isOk_iff {response : Response} : response.isOk = true ↔ response = .ok := by
  cases response <;> simp [isOk]

/-- What was acked stays so; reading the confirmation acks what is committed by then. -/
theorem keeps_deliver (sequence : Nat) (stream : Stream) :
    Keeps sequence stream (stream.deliver sequence) := by
  unfold Stream.deliver
  split
  next response inFlight hopen hinFlight =>
    have hacked : (if response.isOk then stream.ackedAt.or (some sequence) else stream.ackedAt) =
        stream.ackedAt ∨ response = .ok ∧
          (if response.isOk then stream.ackedAt.or (some sequence) else stream.ackedAt) =
            some sequence := by
      cases hok : response.isOk with
      | false => exact .inl rfl
      | true =>
          cases hold : stream.ackedAt with
          | some acked => exact .inl rfl
          | none => exact .inr ⟨Response.isOk_iff.mp hok, rfl⟩
    refine ⟨fun h => ⟨?_, h.answer, ?_, ?_⟩, ?_, ?_⟩
    · intro hconfirmed
      apply h.subscribed
      rw [hinFlight]
      rcases hconfirmed with hmem | hsome
      · exact .inl (List.mem_cons_of_mem response hmem)
      · rcases hacked with hsame | ⟨rfl, -⟩
        · exact .inr (hsame ▸ hsome)
        · exact .inl List.mem_cons_self
    · intro hmem
      rcases hacked with hsame | ⟨-, hnew⟩
      · rcases List.mem_append.mp hmem with hbefore | hread
        · dsimp only
          rw [hsame]
          exact h.acked hbefore
        · -- the response read is the confirmation
          obtain rfl := List.mem_singleton.mp hread
          cases hold : stream.ackedAt <;> rfl
      · rw [hnew]
        rfl
    · intro acked hsome
      rcases hacked with hsame | ⟨-, hnew⟩
      · exact h.past acked (hsame ▸ hsome)
      · exact (Option.some.inj (hnew.symm.trans hsome)).symm.le
    · rintro ⟨⟨acked, hsome, hlt⟩, hclosed, hlagged⟩
      refine ⟨⟨acked, ?_, hlt⟩, hclosed, hlagged⟩
      rcases hacked with hsame | ⟨-, hnew⟩
      · exact hsame ▸ hsome
      · obtain rfl := Option.some.inj (hnew.symm.trans hsome)
        exact absurd hlt (lt_irrefl _)
    · rintro - ⟨root, hle, hwhere⟩
      refine ⟨root, hle, ?_⟩
      rw [hinFlight] at hwhere
      rcases hwhere with hdelivered | hnext | hqueued
      · exact .inl (List.mem_append_left _ hdelivered)
      · rcases List.mem_cons.mp hnext with hread | hlater
        · exact .inl (List.mem_append_right _ (List.mem_singleton.mpr hread))
        · exact .inr (.inl hlater)
      · exact .inr (.inr hqueued)
  next => exact ⟨id, id, fun _ => id⟩

theorem keeps_close (sequence : Nat) (stream : Stream) : Keeps sequence stream stream.close := by
  refine ⟨fun h => ⟨fun _ hopen => ?_, h.answer, h.acked, h.past⟩, ?_, ?_⟩
  · cases hopen
  · rintro ⟨-, hopen, -⟩
    cases hopen
  · rintro ⟨-, hopen, -⟩
    cases hopen

/-- A step to another task, with something written or not. -/
theorem keeps_to (task : StreamTask) (written : List Response)
    (hsubscribed : .ok ∈ written ∨ stream.task.isSubscription = true → task.isSubscription = true)
    (hanswer : task.answer? ≠ some .ok)
    (hqueue : ∀ root ∈ stream.task.queue, .notification root ∈ written ∨ root ∈ task.queue) :
    Keeps sequence stream { stream with task, inFlight := stream.inFlight ++ written } := by
  refine ⟨fun h => ⟨?_, hanswer, h.acked, h.past⟩, id, ?_⟩
  · intro hconfirmed hopen
    apply hsubscribed
    rcases hconfirmed with hmem | hsome
    · rcases List.mem_append.mp hmem with hbefore | hnew
      · exact .inr (h.subscribed (.inl hbefore) hopen)
      · exact .inl hnew
    · exact .inr (h.subscribed (.inr hsome) hopen)
  · rintro - ⟨root, hle, hdelivered | hinFlight | hqueued⟩
    · exact ⟨root, hle, .inl hdelivered⟩
    · exact ⟨root, hle, .inr (.inl (List.mem_append_left _ hinFlight))⟩
    · rcases hqueue root hqueued with hnew | hnext
      · exact ⟨root, hle, .inr (.inl (List.mem_append_right _ hnew))⟩
      · exact ⟨root, hle, .inr (.inr hnext)⟩

/-- A step to another task that writes nothing. -/
theorem keeps_task (task : StreamTask)
    (hsubscribed : stream.task.isSubscription = true → task.isSubscription = true)
    (hanswer : task.answer? ≠ some .ok)
    (hqueue : ∀ root ∈ stream.task.queue, root ∈ task.queue) :
    Keeps sequence stream { stream with task } := by
  have hkeeps : Keeps sequence stream { stream with task, inFlight := stream.inFlight ++ [] } :=
    keeps_to task [] (fun h => hsubscribed (h.resolve_left List.not_mem_nil)) hanswer
      fun root hroot => .inr (hqueue root hroot)
  rwa [List.append_nil] at hkeeps

/-- Of a client that is gone nothing is owed. -/
theorem keeps_of_closed (task : StreamTask) (hclosed : stream.closed = true)
    (hanswer : task.answer? ≠ some .ok) : Keeps sequence stream { stream with task } := by
  have hgone : stream.closed ≠ false := by
    rw [hclosed]
    exact Bool.noConfusion
  refine ⟨fun h => ⟨fun _ hopen => absurd hopen hgone, hanswer, h.acked, h.past⟩, ?_, ?_⟩
  · rintro ⟨-, hopen, -⟩
    exact absurd hopen hgone
  · rintro ⟨-, hopen, -⟩
    exact absurd hopen hgone

theorem keeps_refl : Keeps sequence stream stream := ⟨id, id, fun _ => id⟩

section

theorem answerMutation_ne_ok {ε : Type} (toProtocol : ε → ProtocolError) (store : Store)
    (outcome : Except ε Store) : (answerMutation toProtocol store outcome).2 ≠ .ok := by
  cases outcome <;> exact Response.noConfusion

theorem answerDelete_ne_ok (store : Store) (outcome : Except StorageError (DeletedEntity × Store)) :
    (answerDelete store outcome).2 ≠ .ok := by
  cases outcome <;> exact Response.noConfusion

variable [Blake3]

/-- The handler never answers as a subscription is answered. -/
theorem handleRequest_ne_ok (store : Store) (now : Int) (request : Request) :
    (handleRequest store now request).2 ≠ .ok := by
  cases request with
  | pushCardVersions versions => exact answerMutation_ne_ok _ _ _
  | pushTagVersions versions => exact answerMutation_ne_ok _ _ _
  | pushBatch items => exact answerMutation_ne_ok _ _ _
  | deleteCard id => exact answerDelete_ne_ok _ _
  | deleteTag id => exact answerDelete_ne_ok _ _
  | getCard id =>
      unfold handleRequest
      dsimp only
      split <;> exact Response.noConfusion
  | getChangesSince sequence rootHash =>
      unfold handleRequest
      dsimp only
      split <;> exact Response.noConfusion
  | getRoot => exact Response.noConfusion
  | subscribe => exact Response.noConfusion

theorem keeps_advance (hsound : stream.Sound sequence) (store : Store) (now : Int) :
    Keeps sequence stream (stream.advance store now).2 := by
  obtain ⟨task, inFlight, delivered, closed, ackedAt, lagged⟩ := stream
  cases task with
  | received request =>
      have hanswered : ∀ notifies,
          Keeps sequence ⟨.received request, inFlight, delivered, closed, ackedAt, lagged⟩
            ⟨.answering (handleRequest store now request).2 notifies, inFlight, delivered, closed,
              ackedAt, lagged⟩ := by
        intro notifies
        apply keeps_task (.answering _ notifies)
        · simp [StreamTask.isSubscription]
        · simpa [StreamTask.answer?] using handleRequest_ne_ok store now request
        · simp [StreamTask.queue]
      cases request with
      | subscribe =>
          cases closed with
          | true => exact keeps_of_closed .finished rfl (by simp [StreamTask.answer?])
          | false =>
              apply keeps_to .subscribing [.ok]
              · simp [StreamTask.isSubscription]
              · simp [StreamTask.answer?]
              · simp [StreamTask.queue]
      | _ => exact hanswered _
  | answering response notifies =>
      have hne : response ≠ .ok := fun hok => hsound.answer (congrArg some hok)
      cases closed with
      | true =>
          apply keeps_of_closed (if notifies then .rereading else .finished) rfl
          cases notifies <;> simp [StreamTask.answer?]
      | false =>
          apply keeps_to (if notifies then .rereading else .finished) [response]
          · simp [StreamTask.isSubscription, hne.symm]
          · cases notifies <;> simp [StreamTask.answer?]
          · simp [StreamTask.queue]
  | rereading =>
      apply keeps_task (.broadcasting (getRoot store)) <;>
        simp [StreamTask.isSubscription, StreamTask.answer?, StreamTask.queue]
  | broadcasting root =>
      apply keeps_task .finished <;>
        simp [StreamTask.isSubscription, StreamTask.answer?, StreamTask.queue]
  | subscribing =>
      apply keeps_task (.listening ⟨[], false⟩) <;>
        simp [StreamTask.isSubscription, StreamTask.answer?, StreamTask.queue]
  | listening receiver =>
      obtain ⟨queue, missed⟩ := receiver
      cases missed with
      | true =>
          apply keeps_task (.listening ⟨queue, false⟩) <;>
            simp [StreamTask.isSubscription, StreamTask.answer?, StreamTask.queue]
      | false =>
          cases queue with
          | nil => exact keeps_refl
          | cons next queue =>
              cases closed with
              | true => exact keeps_of_closed .finished rfl (by simp [StreamTask.answer?])
              | false =>
                  apply keeps_to (.listening ⟨queue, false⟩) [.notification next] <;>
                    simp [StreamTask.isSubscription, StreamTask.answer?, StreamTask.queue]
  | finished => exact keeps_refl

/-- A request that changes the store is a mutation that succeeds. -/
theorem handleRequest_unchanged {store : Store} {now : Int} {request : Request}
    (hquiet : (request.mutation?.isSome && ! (handleRequest store now request).2.isError) = false) :
    (handleRequest store now request).1 = store := by
  rw [handleRequest_store]
  cases hmutation : request.mutation? with
  | none => rfl
  | some mutation =>
      have herror : ∃ error, (handleRequest store now request).2 = .error error := by
        cases hresponse : (handleRequest store now request).2 with
        | error error => exact ⟨error, rfl⟩
        | _ =>
            rw [hmutation, hresponse] at hquiet
            contradiction
      have hfailed := (handleRequest_error_iff hmutation).mp herror
      simp [execute, hfailed]

theorem handleRequest_sequence_le (store : Store) (now : Int) (request : Request) :
    store.rootState.sequence.val ≤ (handleRequest store now request).1.rootState.sequence.val := by
  rw [handleRequest_store]
  cases request.mutation? with
  | none => exact le_rfl
  | some mutation =>
      rw [Option.map_some, Option.getD_some, execute_sequence]
      exact Nat.le_add_right _ _

structure Advances (store : Store) (stream : Stream) (after : Store) (advanced : Stream) : Prop where
  monotone : store.rootState.sequence.val ≤ after.rootState.sequence.val
  quiet : after = store ∨ ∀ sequence, advanced.task.promises sequence = true
  broadcast : ∀ root, stream.task.broadcast? = some root → after = store ∧ advanced.task = .finished
  promises : stream.task.broadcast? = none →
    stream.task.promises store.rootState.sequence.val = true →
      advanced.task.promises store.rootState.sequence.val = true

omit [Blake3] in
theorem advances_of_quiet {store : Store} {advanced : Stream}
    (hbroadcast : stream.task.broadcast? = none ∨ advanced.task = .finished)
    (hpromises : stream.task.broadcast? = none →
      stream.task.promises store.rootState.sequence.val = true →
        advanced.task.promises store.rootState.sequence.val = true) :
    Advances store stream store advanced := by
  refine ⟨le_rfl, .inl rfl, fun root hroot => ⟨rfl, ?_⟩, hpromises⟩
  rcases hbroadcast with hnone | hfinished
  · rw [hnone] at hroot
    cases hroot
  · exact hfinished

theorem advances_advance (store : Store) (now : Int) (stream : Stream) :
    Advances store stream (stream.advance store now).1 (stream.advance store now).2 := by
  obtain ⟨task, inFlight, delivered, closed, ackedAt, lagged⟩ := stream
  cases task with
  | received request =>
      have hanswered : Advances store ⟨.received request, inFlight, delivered, closed, ackedAt, lagged⟩
          (handleRequest store now request).1
          ⟨.answering (handleRequest store now request).2
            (request.mutation?.isSome && ! (handleRequest store now request).2.isError),
            inFlight, delivered, closed, ackedAt, lagged⟩ := by
        refine ⟨handleRequest_sequence_le store now request, ?_, nofun, fun _ h => by cases h⟩
        cases hnotifies :
            (request.mutation?.isSome && ! (handleRequest store now request).2.isError) with
        | false => exact .inl (handleRequest_unchanged hnotifies)
        | true => exact .inr fun _ => rfl
      cases request with
      | subscribe => exact advances_of_quiet (.inl rfl) fun _ h => by cases h
      | _ => exact hanswered
  | answering response notifies =>
      refine advances_of_quiet (.inl rfl) fun _ hnotifies => ?_
      obtain rfl : notifies = true := hnotifies
      rfl
  | rereading => exact advances_of_quiet (.inl rfl) fun _ _ => decide_eq_true le_rfl
  | broadcasting root => exact advances_of_quiet (.inr rfl) fun hnone => by cases hnone
  | subscribing => exact advances_of_quiet (.inl rfl) fun _ h => by cases h
  | listening receiver => 
      obtain ⟨queue, missed⟩ := receiver
      cases missed with
      | true => exact advances_of_quiet (.inl rfl) fun _ h => by cases h
      | false =>
          cases queue with
          | nil => exact advances_of_quiet (.inl rfl) fun _ h => by cases h
          | cons next queue => exact advances_of_quiet (.inl rfl) fun _ h => by cases h
  | finished => exact advances_of_quiet (.inl rfl) fun _ h => by cases h

/-! ### A broadcast -/

omit [Blake3] in
theorem receive_promises (root : RootState) (stream : Stream) :
    (stream.receive root).task.promises sequence = stream.task.promises sequence := by
  unfold Stream.receive
  split
  next receiver htask => rw [htask]; rfl
  next => rfl

omit [Blake3] in
/-- A receiver that does not lag keeps what it has and takes what is broadcast. -/
theorem mem_queue_receive {root : RootState} (hlagged : (stream.receive root).lagged = false)
    {other : RootState} :
    other ∈ (stream.receive root).task.queue ↔
      other ∈ stream.task.queue ∨ (∃ receiver, stream.task = .listening receiver) ∧ other = root := by
  unfold Stream.receive at hlagged ⊢
  split at hlagged
  next receiver htask =>
    obtain ⟨-, hroom⟩ := Bool.or_eq_false_iff.mp hlagged
    have hlength : receiver.queue.length < channelCapacity :=
      Nat.lt_of_not_le (of_decide_eq_false hroom)
    rw [htask]
    simp [StreamTask.queue, Receiver.push, hlength]
  next hother =>
    refine ⟨.inl, fun h => h.resolve_right ?_⟩
    rintro ⟨⟨receiver, htask⟩, -⟩
    exact hother receiver htask

omit [Blake3] in
theorem receive_eq (root : RootState) (stream : Stream) :
    ∃ task lagged, stream.receive root = { stream with task, lagged } ∧
      task.isSubscription = stream.task.isSubscription ∧ task.answer? = stream.task.answer? ∧
      (lagged = false → stream.lagged = false) := by
  unfold Stream.receive
  split
  next receiver htask =>
    refine ⟨_, _, rfl, ?_, ?_, fun h => (Bool.or_eq_false_iff.mp h).1⟩ <;> rw [htask] <;> rfl
  next => exact ⟨_, _, rfl, rfl, rfl, id⟩

omit [Blake3] in
theorem keeps_receive (root : RootState) (stream : Stream) :
    Keeps sequence stream (stream.receive root) := by
  have hqueue := @mem_queue_receive stream root
  obtain ⟨task, lagged, heq, hsubscription, hanswer, hlagged⟩ := receive_eq root stream
  rw [heq] at hqueue ⊢
  refine ⟨fun h => ⟨?_, ?_, h.acked, h.past⟩, ?_, ?_⟩
  · intro hconfirmed hopen
    exact hsubscription.trans (h.subscribed hconfirmed hopen)
  · exact fun hok => h.answer (hanswer.symm.trans hok)
  · rintro ⟨hacked, hopen, hkept⟩
    exact ⟨hacked, hopen, hlagged hkept⟩
  · rintro ⟨-, -, hkept⟩ ⟨other, hle, hdelivered | hinFlight | hqueued⟩
    · exact ⟨other, hle, .inl hdelivered⟩
    · exact ⟨other, hle, .inr (.inl hinFlight)⟩
    · exact ⟨other, hle, .inr (.inr ((hqueue hkept).mpr (.inl hqueued)))⟩

omit [Blake3] in
theorem Keeps.trans {next after : Stream} (h : Keeps sequence stream next)
    (hnext : Keeps sequence next after) : Keeps sequence stream after :=
  ⟨fun hsound => hnext.sound (h.sound hsound), fun howed => h.owed (hnext.owed howed),
    fun howed hreaches => hnext.reaches howed (h.reaches (hnext.owed howed) hreaches)⟩

omit [Blake3] in
theorem Stream.Sound.mono (h : stream.Sound sequence) {later : Nat} (hle : sequence ≤ later) :
    stream.Sound later :=
  ⟨h.subscribed, h.answer, h.acked, fun acked hacked => (h.past acked hacked).trans hle⟩

omit [Blake3] in
theorem Stream.Owed.isSubscription (howed : stream.Owed sequence) (hsound : stream.Sound sequence) :
    stream.task.isSubscription = true := by
  obtain ⟨⟨acked, hacked, -⟩, hopen, -⟩ := howed
  apply hsound.subscribed _ hopen
  rw [hacked]
  exact .inr rfl

omit [Blake3] in
theorem Stream.Owed.waits (howed : stream.Owed sequence) (htask : stream.task = .subscribing) :
    stream.waits sequence = true := by
  obtain ⟨⟨acked, hacked, hlt⟩, hopen, -⟩ := howed
  simp [Stream.waits, htask, hacked, hopen, hlt]

omit [Blake3] in
/-- The promises of the other streams outlive a broadcast. -/
theorem promised_after_broadcast {streams : List Stream} {i j : Nat} {other : Stream}
    (hother : streams[j]? = some other) (hne : i ≠ j)
    (hpromises : other.task.promises sequence = true) (advanced : Stream) (root : RootState) :
    Promised ((streams.set i advanced).map (Stream.receive root)) sequence := by
  refine ⟨other.receive root, List.mem_map.mpr ⟨other, ?_, rfl⟩, ?_⟩
  · refine List.mem_iff_getElem?.mpr ⟨j, ?_⟩
    rw [List.getElem?_set_ne hne, hother]
  · rw [receive_promises, hpromises]

omit [Blake3] in
theorem Server.Invariant.broadcast {server : Server} (hinv : server.Invariant) {i : Nat} {now : Int}
    (hannounces : server.announces (.run i now) = true) {root : RootState} {advanced : Stream}
    (hstream : server.streams[i]? = some stream) (hroot : stream.task.broadcast? = some root)
    (hkeeps : Keeps server.sequence stream advanced) :
    (⟨server.store, (server.streams.set i advanced).map (Stream.receive root)⟩ : Server).Invariant := by
  have hmem : stream ∈ server.streams := List.mem_of_getElem? hstream
  have htask : stream.task = .broadcasting root := by
    unfold StreamTask.broadcast? at hroot
    split at hroot
    next sent htask => rw [htask, Option.some.inj hroot]
    next => cases hroot
  -- where each stream of the new list comes from
  have hsource : ∀ after ∈ (server.streams.set i advanced).map (Stream.receive root),
      ∃ before ∈ server.streams, Keeps server.sequence before after ∧
        (before = stream ∨ after = before.receive root) := by
    intro after hafter
    obtain ⟨middle, hmiddle, rfl⟩ := List.mem_map.mp hafter
    rcases List.mem_or_eq_of_mem_set hmiddle with hold | rfl
    · exact ⟨middle, hold, keeps_receive root middle, .inr rfl⟩
    · exact ⟨stream, hmem, hkeeps.trans (keeps_receive root middle), .inl rfl⟩
  refine ⟨?_, ?_⟩
  · intro after hafter
    obtain ⟨before, hbefore, hkept, -⟩ := hsource after hafter
    exact hkept.sound (hinv.sound before hbefore)
  · intro after hafter howed
    obtain ⟨before, hbefore, hkept, hcase⟩ := hsource after hafter
    have howedBefore := hkept.owed howed
    have hsubscription := howedBefore.isSubscription (hinv.sound before hbefore)
    rcases hcase with rfl | rfl
    · -- the task that broadcasts serves no subscription
      rw [htask] at hsubscription
      cases hsubscription
    · rcases hinv.served before hbefore howedBefore with hreaches | ⟨other, hother, hpromises⟩
      · exact .inl (hkept.reaches howed hreaches)
      · obtain ⟨j, hj⟩ := List.mem_iff_getElem?.mp hother
        by_cases hij : i = j
        · subst hij
          obtain rfl : stream = other := Option.some.inj (hstream.symm.trans hj)
          cases hkind : before.task with
          | listening receiver =>
              -- the receiver takes it
              refine .inl ⟨root, ?_, .inr (.inr ?_)⟩
              · rw [htask] at hpromises
                exact of_decide_eq_true hpromises
              · exact (mem_queue_receive howed.2.2).mpr (.inr ⟨⟨receiver, hkind⟩, rfl⟩)
          | subscribing =>
              -- the broadcast is lost on it, but another is to come
              have hwaits : server.streams.any (fun stream => stream.waits server.sequence) = true :=
                List.any_eq_true.mpr ⟨before, hbefore, howedBefore.waits hkind⟩
              have hcovered : (server.streams.eraseIdx i).any
                  (fun stream => stream.task.promises server.sequence) = true := by
                simpa [Server.announces, hstream, hroot, hwaits] using hannounces
              obtain ⟨cover, hcover, hcoverPromises⟩ := List.any_eq_true.mp hcovered
              obtain ⟨k, hne, hk⟩ := List.mem_eraseIdx_iff_getElem?.mp hcover
              exact .inr (promised_after_broadcast hk hne.symm hcoverPromises advanced root)
          | _ =>
              rw [hkind] at hsubscription
              cases hsubscription
        · exact .inr (promised_after_broadcast hj hij hpromises advanced root)

theorem Server.Invariant.run {server : Server} (hinv : server.Invariant) (i : Nat) (now : Int)
    (hannounces : server.announces (.run i now) = true) : (server.run i now).Invariant := by
  unfold Server.run
  cases hstream : server.streams[i]? with
  | none => exact hinv
  | some stream =>
      have hmem : stream ∈ server.streams := List.mem_of_getElem? hstream
      have hadvances := advances_advance server.store now stream
      have hkeeps := fun later (hsound : stream.Sound later) => keeps_advance hsound server.store now
      obtain ⟨⟨after, advanced⟩, hadvance⟩ : ∃ result, result = stream.advance server.store now :=
        ⟨_, rfl⟩
      dsimp only
      rw [← hadvance] at hadvances hkeeps ⊢
      dsimp only at hadvances hkeeps ⊢
      cases hroot : stream.task.broadcast? with
      | some root =>
          obtain ⟨rfl, -⟩ := hadvances.broadcast root hroot
          exact hinv.broadcast hannounces hstream hroot (hkeeps _ (hinv.sound stream hmem))
      | none =>
          have hsound : ∀ other ∈ server.streams.set i advanced,
              other.Sound after.rootState.sequence.val := by
            intro other hother
            rcases List.mem_or_eq_of_mem_set hother with hold | rfl
            · exact (hinv.sound other hold).mono hadvances.monotone
            · have hlater := (hinv.sound stream hmem).mono hadvances.monotone
              exact (hkeeps _ hlater).sound hlater
          refine ⟨hsound, fun other hother howed => ?_⟩
          rcases hadvances.quiet with rfl | hpromises
          · have hpromised : Promised server.streams server.sequence →
                Promised (server.streams.set i advanced) server.sequence :=
              fun h => h.set hstream (hadvances.promises hroot)
            rcases List.mem_or_eq_of_mem_set hother with hold | rfl
            · exact (hinv.served other hold howed).imp_right hpromised
            · have hkept := hkeeps _ (hinv.sound stream hmem)
              exact (hinv.served stream hmem (hkept.owed howed)).imp (hkept.reaches howed) hpromised
          · -- the mutation that was committed will be broadcast
            have hbound := (List.getElem?_eq_some_iff.mp hstream).1
            exact .inr ⟨advanced, List.mem_set hbound advanced, hpromises _⟩

theorem Server.Invariant.step {server : Server} (hinv : server.Invariant) (event : Event)
    (hannounces : server.announces event = true) : (server.step event).Invariant := by
  cases event with
  | request request =>
      refine ⟨?_, ?_⟩
      · intro stream hstream
        rcases List.mem_append.mp hstream with hold | hnew
        · exact hinv.sound stream hold
        · obtain rfl := List.mem_singleton.mp hnew
          refine ⟨?_, nofun, nofun, nofun⟩
          rintro (hok | hacked)
          · cases hok
          · cases hacked
      · intro stream hstream howed
        rcases List.mem_append.mp hstream with hold | hnew
        · apply (hinv.served stream hold howed).imp_right
          rintro ⟨other, hother, hpromises⟩
          exact ⟨other, List.mem_append_left _ hother, hpromises⟩
        · obtain rfl := List.mem_singleton.mp hnew
          obtain ⟨⟨acked, hacked, -⟩, -⟩ := howed
          cases hacked
  | run i now => exact hinv.run i now hannounces
  | deliver i =>
      refine hinv.replace i _ (keeps_deliver server.sequence) fun stream => ?_
      unfold Stream.deliver
      split <;> rfl
  | close i => exact hinv.replace i _ (keeps_close server.sequence) fun stream => rfl

/-! ### Runs -/

omit [Blake3] in
theorem invariant_start (store : Store) : (Server.start store).Invariant :=
  ⟨fun _ h => (List.not_mem_nil h).elim, fun _ h => (List.not_mem_nil h).elim⟩

theorem advance_ackedAt (store : Store) (now : Int) (stream : Stream) :
    (stream.advance store now).2.ackedAt = stream.ackedAt := by
  have hwrite : ∀ response, (stream.write response).ackedAt = stream.ackedAt := by
    intro response
    unfold Stream.write
    split <;> rfl
  unfold Stream.advance
  split
  · split
    · rfl
    · exact hwrite .ok
  · rfl
  · exact hwrite _
  · rfl
  · rfl
  · rfl
  · rfl
  · split
    · rfl
    · exact hwrite _
  · rfl
  · rfl

/-- A stream stays, and what was acked stays so. -/
theorem step_stream {server : Server} {i : Nat} (hstream : server.streams[i]? = some stream)
    (event : Event) :
    ∃ after, (server.step event).streams[i]? = some after ∧
      ∀ acked, stream.ackedAt = some acked → after.ackedAt = some acked := by
  have hreplace : ∀ (j : Nat) (f : Stream → Stream),
      (∀ (stream : Stream) acked, stream.ackedAt = some acked → (f stream).ackedAt = some acked) →
        ∃ after, (server.replace j f).streams[i]? = some after ∧
          ∀ acked, stream.ackedAt = some acked → after.ackedAt = some acked := by
    intro j f hf
    unfold Server.replace
    cases hother : server.streams[j]? with
    | none => exact ⟨stream, hstream, fun _ => id⟩
    | some other =>
        dsimp only
        by_cases hij : j = i
        · subst hij
          obtain rfl : other = stream := Option.some.inj (hother.symm.trans hstream)
          have hbound := (List.getElem?_eq_some_iff.mp hstream).1
          exact ⟨f other, List.getElem?_set_self hbound, hf other⟩
        · exact ⟨stream, (List.getElem?_set_ne hij).trans hstream, fun _ => id⟩
  cases event with
  | request request =>
      have hbound := (List.getElem?_eq_some_iff.mp hstream).1
      exact ⟨stream, (List.getElem?_append_left hbound).trans hstream, fun _ => id⟩
  | deliver j =>
      apply hreplace j
      intro stream acked hacked
      unfold Stream.deliver
      split
      · dsimp only
        rw [hacked]
        split <;> rfl
      · exact hacked
  | close j => exact hreplace j _ fun stream acked => id
  | run j now =>
      obtain ⟨after, hafter, hacked⟩ :=
        hreplace j (fun stream => (stream.advance server.store now).2)
          fun stream acked h => (advance_ackedAt server.store now stream).trans h
      have hreceive : ∀ root, (after.receive root).ackedAt = after.ackedAt := by
        intro root
        unfold Stream.receive
        split <;> rfl
      unfold Server.replace at hafter
      change ∃ after, (server.run j now).streams[i]? = some after ∧ _
      unfold Server.run
      cases hother : server.streams[j]? with
      | none => exact ⟨stream, hstream, fun _ => id⟩
      | some other =>
          rw [hother] at hafter
          dsimp only at hafter ⊢
          cases other.task.broadcast? with
          | none => exact ⟨after, hafter, hacked⟩
          | some root =>
              refine ⟨after.receive root, ?_, fun acked h => (hreceive root).trans (hacked acked h)⟩
              dsimp only
              rw [List.getElem?_map, hafter, Option.map_some]

theorem step_sequence_le (server : Server) (event : Event) :
    server.sequence ≤ (server.step event).sequence := by
  have hreplace : ∀ (j : Nat) (f : Stream → Stream),
      (server.replace j f).sequence = server.sequence := by
    intro j f
    unfold Server.replace
    split <;> rfl
  cases event with
  | request request => exact le_rfl
  | deliver j => exact (hreplace j _).ge
  | close j => exact (hreplace j _).ge
  | run j now =>
      change server.sequence ≤ (server.run j now).sequence
      unfold Server.run
      cases server.streams[j]? with
      | none => exact le_rfl
      | some stream =>
          have hmonotone := (advances_advance server.store now stream).monotone
          dsimp only
          split <;> exact hmonotone

omit [Blake3] in
theorem promises_mono {task : StreamTask} {later : Nat} (hle : sequence ≤ later)
    (h : task.promises later = true) : task.promises sequence = true := by
  cases task with
  | broadcasting root => exact decide_eq_true (hle.trans (of_decide_eq_true h))
  | _ => exact h

def Stream.idle (stream : Stream) : Bool :=
  stream.inFlight.isEmpty &&
    match stream.task with
    | .finished | .listening ⟨[], false⟩ => true
    | _ => false

def Server.Idle (server : Server) : Prop := ∀ stream ∈ server.streams, stream.idle = true

/-- Of the mutation that the task of stream `m` commits after the events `before`, the client of stream
`s`, if it had read the confirmation of its subscription and stays, without lagging, is notified: a
notification has come or is on its way, or a task has its broadcast still to do. Once all is done, it has
come. -/
def Notifies (store : Store) (before : List Event) (m : Nat) (now : Int) (later : List Event)
    (s : Nat) : Prop :=
  let earlier := Run.after Server.step (Server.start store) before
  let committed := earlier.step (.run m now)
  let after := Run.after Server.step committed later
  ∀ subscriber, earlier.streams[s]? = some subscriber → .ok ∈ subscriber.delivered →
    earlier.sequence < committed.sequence →
      ∀ stream, after.streams[s]? = some stream → stream.closed = false → stream.lagged = false →
        (stream.Reaches committed.sequence ∨ Promised after.streams committed.sequence) ∧
          (after.Idle → ∃ root : RootState, committed.sequence ≤ root.sequence.val ∧
            .notification root ∈ stream.delivered)

omit [Blake3] in
theorem Stream.idle_iff :
    stream.idle = true ↔ stream.inFlight = [] ∧
      (stream.task = .finished ∨ stream.task = .listening ⟨[], false⟩) := by
  obtain ⟨task, inFlight, delivered, closed, ackedAt, lagged⟩ := stream
  cases task with
  | listening receiver =>
      obtain ⟨queue, missed⟩ := receiver
      cases queue <;> cases missed <;> simp [idle]
  | _ => simp [idle]

omit [Blake3] in
theorem Server.Idle.not_promised {server : Server} (hidle : server.Idle) :
    ¬Promised server.streams sequence := by
  rintro ⟨stream, hstream, hpromises⟩
  obtain ⟨-, htask | htask⟩ := Stream.idle_iff.mp (hidle stream hstream)
  · rw [htask] at hpromises
    cases hpromises
  · rw [htask] at hpromises
    cases hpromises

omit [Blake3] in
theorem Server.Idle.delivered {server : Server} (hidle : server.Idle)
    (hstream : stream ∈ server.streams) (hreaches : stream.Reaches sequence) :
    ∃ root : RootState, sequence ≤ root.sequence.val ∧ .notification root ∈ stream.delivered := by
  obtain ⟨hinFlight, htask⟩ := Stream.idle_iff.mp (hidle stream hstream)
  obtain ⟨root, hle, hdelivered | hsent | hqueued⟩ := hreaches
  · exact ⟨root, hle, hdelivered⟩
  · rw [hinFlight] at hsent
    cases hsent
  · rcases htask with htask | htask
    · rw [htask] at hqueued
      cases hqueued
    · rw [htask] at hqueued
      cases hqueued

/-- In every run in which no broadcast falls into a subscription's gap uncovered, every subscription that
was confirmed before a commit is notified of it. -/
theorem notifies_run (store : Store) (before : List Event) (m : Nat) (now : Int) (later : List Event)
    (s : Nat)
    (hannounces : Run.Meets Server.step (fun server event => server.announces event = true)
      (Server.start store) (before ++ .run m now :: later)) :
    Notifies store before m now later s := by
  unfold Notifies
  intro earlier committed after subscriber hsubscriber hok hcommit stream hstream hopen hlagged
  obtain ⟨hbefore, hrun, hlater⟩ := Run.meets_append.mp hannounces
  have hstep : ∀ (server : Server) (event : Event), server.Invariant → server.announces event = true →
      (server.step event).Invariant := fun server event hinv => hinv.step event
  have hearlier : earlier.Invariant :=
    hbefore.invariant Server.Invariant (invariant_start store) hstep
  have hafter : after.Invariant :=
    hlater.invariant Server.Invariant (hstep earlier _ hearlier hrun) hstep
  -- the confirmation was read at a sequence before the commit, and that is remembered
  have hsound := hearlier.sound subscriber (List.mem_of_getElem? hsubscriber)
  obtain ⟨acked, hacked⟩ := Option.isSome_iff_exists.mp (hsound.acked hok)
  have hpast := hsound.past acked hacked
  have hremembered : ∃ stream, after.streams[s]? = some stream ∧ stream.ackedAt = some acked := by
    obtain ⟨next, hnext, hkept⟩ := step_stream hsubscriber (.run m now)
    refine Run.invariant (fun server : Server => ∃ stream, server.streams[s]? = some stream ∧
      stream.ackedAt = some acked) ⟨next, hnext, hkept acked hacked⟩ ?_ later
    rintro server event ⟨stream, hstream, hstreamAcked⟩
    obtain ⟨next, hnext, hkept⟩ := step_stream hstream event
    exact ⟨next, hnext, hkept acked hstreamAcked⟩
  have hsequence : committed.sequence ≤ after.sequence :=
    Run.invariant (fun server : Server => committed.sequence ≤ server.sequence) le_rfl
      (fun server event h => h.trans (step_sequence_le server event)) later
  obtain ⟨same, hsame, hsameAcked⟩ := hremembered
  obtain rfl : same = stream := Option.some.inj (hsame.symm.trans hstream)
  have hmem : same ∈ after.streams := List.mem_of_getElem? hstream
  have howed : same.Owed after.sequence :=
    ⟨⟨acked, hsameAcked, lt_of_le_of_lt hpast (lt_of_lt_of_le hcommit hsequence)⟩, hopen, hlagged⟩
  have hserved := hafter.served same hmem howed
  refine ⟨hserved.imp ?_ ?_, fun hidle => ?_⟩
  · rintro ⟨root, hle, hwhere⟩
    exact ⟨root, hsequence.trans hle, hwhere⟩
  · rintro ⟨other, hother, hpromises⟩
    exact ⟨other, hother, promises_mono hsequence hpromises⟩
  · obtain ⟨root, hle, hdelivered⟩ := hidle.delivered hmem (hserved.resolve_right hidle.not_promised)
    exact ⟨root, hsequence.trans hle, hdelivered⟩

end

/-- The subscription on stream 0 has its receiver before the push on stream 1 is broadcast. -/
theorem notifies_subscribed :
    let _ := polynomialBlake3
    Notifies initSchema
      [.request .subscribe, .run 0 0, .run 0 0, .deliver 0,
        .request (.pushCardVersions [sampleCard 1 ⟨0, by decide⟩])] 1 0
      [.run 1 0, .run 1 0, .run 1 0, .run 0 0, .deliver 0, .deliver 1] 0 :=
  @notifies_run polynomialBlake3 _ _ _ _ _ _ (by decide +kernel)

def Response.notification? : Response → Option RootState
  | .notification state => some state
  | _ => none

/-- The push is broadcast while the subscription, confirmed long ago, is still without a receiver. -/
theorem not_notifies_unsubscribed :
    let _ := polynomialBlake3
    ¬Notifies initSchema
      [.request .subscribe, .run 0 0, .deliver 0,
        .request (.pushCardVersions [sampleCard 1 ⟨0, by decide⟩])] 1 0
      [.run 1 0, .run 1 0, .run 1 0, .run 0 0, .deliver 1] 0 := by
  intro _ hnotifies
  unfold Notifies at hnotifies
  extract_lets earlier committed after at hnotifies
  have hconfirmed : (earlier.streams[0]?.map fun stream => stream.delivered.any Response.isOk) =
      some true := by
    decide +kernel
  have hended : (after.streams[0]?.map fun stream => (stream.closed, stream.lagged,
      stream.delivered.filterMap Response.notification?)) = some (false, false, []) := by
    decide +kernel
  have hidle : ∀ stream ∈ after.streams, stream.idle = true := by decide +kernel
  obtain ⟨subscriber, hsubscriber, hok⟩ := Option.map_eq_some_iff.mp hconfirmed
  obtain ⟨stream, hstream, hfields⟩ := Option.map_eq_some_iff.mp hended
  obtain ⟨response, hresponse, hisOk⟩ := List.any_eq_true.mp hok
  obtain rfl := Response.isOk_iff.mp hisOk
  obtain ⟨hopen, hlagged, hnone⟩ : stream.closed = false ∧ stream.lagged = false ∧
      stream.delivered.filterMap Response.notification? = [] := by
    simpa using hfields
  obtain ⟨-, hdelivered⟩ := hnotifies subscriber hsubscriber hresponse (by decide +kernel) stream
    hstream hopen hlagged
  obtain ⟨root, -, hroot⟩ := hdelivered hidle
  have hmem : root ∈ stream.delivered.filterMap Response.notification? :=
    List.mem_filterMap.mpr ⟨.notification root, hroot, rfl⟩
  rw [hnone] at hmem
  cases hmem

end BlazeList
