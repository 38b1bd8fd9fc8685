import BlazeList.Client.IncrementalSync
import BlazeList.Server.Notifications

/-!
# A subscribed client

A client connects, syncs, subscribes, and then syncs again for every notification whose root is not its own.
A mutation commits, reads the root again and broadcasts it, and these steps of different mutations interleave
with each other and with the steps of the client. A broadcast that falls between the sync and the receiver of
the subscription does not reach the client, and a receiver that is full loses its oldest value.
-/

namespace BlazeList

/-! ### The client and the server -/

/-- How far the client has got with its connection. A sync is the first one of the connection, or one that a
notification has triggered. -/
inductive Session where
  | disconnected
  | syncing (triggered : Bool) (task : SyncTask)
  | subscribing
  | listening

inductive Announcement where
  | rereading
  | broadcasting (root : RootState)

/-- The calls the server has executed, the client, and what is between them. The last two fields are notes of
an observer: the sequence of the last answer, and whether a newer root was announced since then and lost. -/
structure SubscriptionWorld where
  mutations : List Call
  state : AppState
  session : Session
  announcements : List Announcement
  confirmed : Bool
  receiver : Option Receiver
  inFlight : List RootState
  answered : Nat
  missed : Bool

def SubscriptionWorld.new : SubscriptionWorld :=
  ⟨[], ⟨[], [], none⟩, .disconnected, [], false, none, [], 0, false⟩

inductive SubscriptionStep where
  | mutate (call : Call)
  | reread (index : Nat)
  | broadcast (index : Nat)
  | connect
  | answer
  | deliver
  | confirm
  | listen
  | subscribed
  | forward
  | next
  | drop

def SubscriptionStep.call? : SubscriptionStep → Option Call
  | .mutate call => some call
  | _ => none

def Receiver.dropped (receiver : Receiver) : Option RootState :=
  if receiver.queue.length < channelCapacity then none else receiver.queue.head?

def SubscriptionWorld.lost (world : SubscriptionWorld) (root : RootState) : Option RootState :=
  match world.receiver with
  | none => some root
  | some receiver => receiver.dropped

def SubscriptionWorld.disconnect (world : SubscriptionWorld) : SubscriptionWorld :=
  { world with session := .disconnected, confirmed := false, receiver := none, inFlight := [] }

section Runs

variable [Blake3]

def SubscriptionWorld.store (world : SubscriptionWorld) : Store := Run.after execute initSchema world.mutations

def subscriptionStep (world : SubscriptionWorld) : SubscriptionStep → SubscriptionWorld
  | .mutate call =>
      { world with
        mutations := world.mutations ++ [call]
        announcements :=
          if (perform world.store call).isSome then world.announcements ++ [.rereading]
          else world.announcements }
  | .reread index =>
      match world.announcements[index]? with
      | some .rereading =>
          { world with announcements := world.announcements.set index (.broadcasting world.store.rootState) }
      | _ => world
  | .broadcast index =>
      match world.announcements[index]? with
      | some (.broadcasting root) =>
          { world with
            announcements := world.announcements.eraseIdx index
            receiver := world.receiver.map (Receiver.push root)
            missed := world.missed || (world.lost root).any fun lost => world.answered < lost.sequence.val }
      | _ => world
  | .connect =>
      match world.session with
      | .disconnected => { world with session := .syncing false (.requested world.state.root) }
      | _ => world
  | .answer =>
      match world.session with
      | .syncing triggered (.requested root) =>
          { world with
            session := .syncing triggered (.answered root (requestChanges world.store root))
            answered := world.store.rootState.sequence.val
            missed := false }
      | _ => world
  | .deliver =>
      match world.session with
      | .syncing triggered (.answered root response) =>
          let (state, task) := receiveChanges world.state root response
          match task, response with
          | some task, _ => { world with state, session := .syncing triggered task }
          | none, .ok _ => { world with state, session := if triggered then .listening else .subscribing }
          | none, .error _ => { world with state }.disconnect
      | _ => world
  -- the server writes the confirmation before it creates the receiver
  | .confirm =>
      match world.session with
      | .subscribing => { world with confirmed := true }
      | _ => world
  | .listen =>
      match world.confirmed, world.receiver with
      | true, none => { world with receiver := some ⟨[], false⟩ }
      | _, _ => world
  | .subscribed =>
      match world.confirmed, world.session with
      | true, .subscribing => { world with session := .listening }
      | _, _ => world
  | .forward =>
      match world.receiver with
      | some ⟨queue, true⟩ => { world with receiver := some ⟨queue, false⟩ }
      | some ⟨root :: queue, false⟩ =>
          { world with receiver := some ⟨queue, false⟩, inFlight := world.inFlight ++ [root] }
      | _ => world
  | .next =>
      match world.session, world.inFlight with
      | .listening, root :: inFlight =>
          if world.state.root = some root then { world with inFlight }
          else { world with inFlight, session := .syncing true (.requested world.state.root) }
      | _, _ => world
  | .drop => world.disconnect

structure SubscriptionWorld.Quiet (world : SubscriptionWorld) : Prop where
  session : world.session = .listening
  announcements : world.announcements = []
  receiver : ∀ receiver ∈ world.receiver, receiver.queue = []
  inFlight : world.inFlight = []

omit [Blake3] in
def Session.isListening : Session → Bool
  | .listening => true
  | _ => false

omit [Blake3] in
theorem Session.isListening_iff {session : Session} : session.isListening = true ↔ session = .listening := by
  cases session <;> simp [Session.isListening]

omit [Blake3] in
theorem SubscriptionWorld.quiet_iff {world : SubscriptionWorld} :
    world.Quiet ↔ world.session.isListening = true ∧ world.announcements.isEmpty = true ∧
      (world.receiver.all fun receiver => receiver.queue.isEmpty) = true ∧ world.inFlight.isEmpty = true := by
  have hreceiver : ((world.receiver.all fun receiver => receiver.queue.isEmpty) = true) ↔
      ∀ receiver ∈ world.receiver, receiver.queue = [] := by
    cases world.receiver <;> simp
  rw [Session.isListening_iff, List.isEmpty_iff, List.isEmpty_iff, hreceiver]
  exact ⟨fun h => ⟨h.session, h.announcements, h.receiver, h.inFlight⟩, fun h => ⟨h.1, h.2.1, h.2.2.1, h.2.2.2⟩⟩

instance (world : SubscriptionWorld) : Decidable world.Quiet := decidable_of_iff _ SubscriptionWorld.quiet_iff.symm

/-- The client has the root and the contents of the server. -/
structure SubscriptionWorld.UpToDate (world : SubscriptionWorld) : Prop where
  root : world.state.root = some world.store.rootState
  cards : world.store.cards.Shows world.state.cards
  tags : world.store.tags.Shows world.state.tags

/-! ### The syncs -/

omit [Blake3] in
def Session.tasks : Session → List SyncTask
  | .syncing _ task => [task]
  | _ => []

omit [Blake3] in
def SubscriptionWorld.syncWorld (world : SubscriptionWorld) : SyncWorld :=
  ⟨world.mutations, world.state, world.session.tasks⟩

/-- One sync at a time: its answer is the last one, and is not older than the root of the client. -/
structure SyncsInTurn (calls : List Call) (mutations : List Call) (state : AppState) (session : Session)
    (answered : Nat) : Prop where
  executed : mutations <+: calls
  sync : SyncInvariant (· ∈ pushedCardIds calls) ⟨mutations, state, session.tasks⟩
  rootLe : ∀ root ∈ state.root, root.sequence.val ≤ answered
  answeredLe : answered ≤ (Run.after execute initSchema mutations).rootState.sequence.val
  answer : ∀ triggered root response, session = .syncing triggered (.answered root response) →
    ∃ changes, response = .ok changes ∧ changes.root.sequence.val = answered
  settled : session = .subscribing ∨ session = .listening →
    ∃ root ∈ state.root, root.sequence.val = answered

def SubscriptionWorld.InTurn (calls : List Call) (world : SubscriptionWorld) : Prop :=
  SyncsInTurn calls world.mutations world.state world.session world.answered

section InTurn

variable {calls mutations : List Call} {state : AppState} {session : Session} {answered : Nat}
variable {triggered : Bool} {root : Option RootState}

theorem BuiltRun.of_prefix {earlier : List Call} (hrun : BuiltRun calls) (hearlier : earlier <+: calls) :
    BuiltRun earlier := by
  obtain ⟨rest, rfl⟩ := hearlier
  refine ⟨fun call hcall => hrun.built call (List.mem_append_left rest hcall), fun id hcard htag => ?_⟩
  apply hrun.disjoint id
  · rw [pushedCardIds, List.flatMap_append]
    exact List.mem_append_left _ hcard
  · rw [pushedTagIds, List.flatMap_append]
    exact List.mem_append_left _ htag

omit [Blake3] in
theorem receiveChanges_ok_root (state : AppState) (root : Option RootState) (changes : ChangeSet) :
    (receiveChanges state root (.ok changes)).1.root = some changes.root := by
  cases root <;> rfl

theorem syncsInTurn_new (calls : List Call) : SyncsInTurn calls [] ⟨[], [], none⟩ .disconnected 0 where
  executed := List.nil_prefix
  sync := syncInvariant_new _
  rootLe root hroot := absurd hroot (Option.not_mem_none root)
  answeredLe := Nat.zero_le _
  answer triggered root response h := by cases h
  settled h := by rcases h with h | h <;> cases h

theorem SyncsInTurn.mutate (h : SyncsInTurn calls mutations state session answered) (hrun : BuiltRun calls)
    {call : Call} (hexecuted : mutations ++ [call] <+: calls) :
    SyncsInTurn calls (mutations ++ [call]) state session answered where
  executed := hexecuted
  sync := by
    obtain ⟨rest, hrest⟩ := hexecuted
    have hmeets : Run.Meets execute (AcceptsApart (· ∈ pushedCardIds calls)) initSchema
        (mutations ++ [call] ++ rest) := by
      rw [hrest]
      exact hrun.acceptsApart initSchema
    exact h.sync.mutate (Run.meets_append.mp (Run.meets_append.mp hmeets).1).2.1
  rootLe := h.rootLe
  answeredLe := by
    rw [Run.after_append]
    exact h.answeredLe.trans (sequence_mono _ [call])
  answer := h.answer
  settled := h.settled

theorem SyncsInTurn.start (h : SyncsInTurn calls mutations state session answered) (triggered : Bool)
    (hidle : session.tasks = []) :
    SyncsInTurn calls mutations state (.syncing triggered (.requested state.root)) answered where
  executed := h.executed
  sync := by
    have hstart := h.sync.start
    rw [hidle] at hstart
    exact hstart
  rootLe := h.rootLe
  answeredLe := h.answeredLe
  answer triggered root response h := by cases h
  settled h := by rcases h with h | h <;> cases h

/-- The server answers with all that has changed by now. -/
theorem SyncsInTurn.serve (h : SyncsInTurn calls mutations state (.syncing triggered (.requested root)) answered)
    (hrun : BuiltRun calls) :
    SyncsInTurn calls mutations state
      (.syncing triggered (.answered root (requestChanges (Run.after execute initSchema mutations) root)))
      (Run.after execute initSchema mutations).rootState.sequence.val where
  executed := h.executed
  sync := h.sync.answer 0
  rootLe root hroot := (h.rootLe root hroot).trans h.answeredLe
  answeredLe := le_rfl
  answer _ _ _ heq := by
    cases heq
    have hknown := h.sync.tasks _ (List.mem_singleton_self (SyncTask.requested root))
    have hreads := (hrun.of_prefix h.executed).readsBackInvariant
    obtain ⟨changes, hchanges⟩ := ReadableInvariant.exists_changesSince
      ⟨hreads.cards.mono fun _ h => ⟨_, h⟩, hreads.tags.mono fun _ h => ⟨_, h⟩⟩
      (root.elim 0 fun known => known.sequence.val)
    refine ⟨changes, (requestChanges_eq hknown).trans hchanges, ?_⟩
    rw [(changesSince_eq_ok_iff.mp hchanges).2.2.2]
  settled h := by rcases h with h | h <;> cases h

/-- The answer is merged, and the client has the root that came with it. -/
theorem SyncsInTurn.deliver {changes : ChangeSet}
    (h : SyncsInTurn calls mutations state (.syncing triggered (.answered root (.ok changes))) answered) :
    SyncsInTurn calls mutations (receiveChanges state root (.ok changes)).1
      (if triggered then .listening else .subscribing) answered := by
  obtain ⟨_, heq, hsequence⟩ := h.answer triggered root _ rfl
  cases heq
  have hroot := receiveChanges_ok_root state root changes
  have horder : InOrder (· ∈ pushedCardIds calls) ⟨mutations, state, [.answered root (.ok changes)]⟩
      (.deliver 0) := by
    intro arriving harriving current hcurrent
    cases harriving
    exact (h.rootLe current hcurrent).trans hsequence.ge
  have hdeliver := h.sync.deliver horder
  change SyncInvariant _ ⟨mutations, (receiveChanges state root (.ok changes)).1,
    [] ++ (receiveChanges state root (.ok changes)).2.toList⟩ at hdeliver
  rw [receiveChanges_ok_task] at hdeliver
  refine ⟨h.executed, ?_, ?_, h.answeredLe, ?_, ?_⟩
  · cases triggered <;> exact hdeliver
  · intro current hcurrent
    rw [hroot] at hcurrent
    cases hcurrent
    exact hsequence.le
  · intro _ _ _ heq
    cases triggered <;> cases heq
  · intro _
    exact ⟨changes.root, hroot, hsequence⟩

theorem SyncsInTurn.disconnect (h : SyncsInTurn calls mutations state session answered) :
    SyncsInTurn calls mutations state .disconnected answered where
  executed := h.executed
  sync := ⟨h.sync.apart, h.sync.inStep, fun task htask => absurd htask List.not_mem_nil⟩
  rootLe := h.rootLe
  answeredLe := h.answeredLe
  answer triggered root response h := by cases h
  settled h := by rcases h with h | h <;> cases h

theorem SyncsInTurn.subscribed (h : SyncsInTurn calls mutations state .subscribing answered) :
    SyncsInTurn calls mutations state .listening answered where
  executed := h.executed
  sync := h.sync
  rootLe := h.rootLe
  answeredLe := h.answeredLe
  answer triggered root response h := by cases h
  settled _ := h.settled (.inl rfl)

end InTurn

/-! ### The announcements -/

omit [Blake3] in
def Announcement.root? : Announcement → Option RootState
  | .rereading => none
  | .broadcasting root => some root

omit [Blake3] in
def SubscriptionWorld.announced (world : SubscriptionWorld) : List RootState :=
  world.announcements.filterMap Announcement.root? ++
    (world.receiver.elim [] Receiver.queue ++ world.inFlight)

omit [Blake3] in
/-- The client will get an answer that the server has yet to give. -/
def Session.Asks : Session → Prop
  | .disconnected | .syncing _ (.requested _) => True
  | _ => False

/-- The current root is not announced before the client has it, unless it was lost. -/
structure SubscriptionWorld.Announces (world : SubscriptionWorld) : Prop where
  announcedLe : ∀ root ∈ world.announced, root.sequence.val ≤ world.store.rootState.sequence.val
  missedLt : world.missed = true → world.answered < world.store.rootState.sequence.val
  owed : world.session.Asks ∨ world.missed = true ∨ world.store.rootState.sequence.val ≤ world.answered ∨
    .rereading ∈ world.announcements ∨
      ∃ root ∈ world.announced, world.store.rootState.sequence.val ≤ root.sequence.val

section Announces

variable {world after : SubscriptionWorld} {root : RootState}

omit [Blake3] in
theorem mem_announced {root : RootState} :
    root ∈ world.announced ↔ .broadcasting root ∈ world.announcements ∨
      (∃ receiver ∈ world.receiver, root ∈ receiver.queue) ∨ root ∈ world.inFlight := by
  have hannouncements : root ∈ world.announcements.filterMap Announcement.root? ↔
      .broadcasting root ∈ world.announcements := by
    rw [List.mem_filterMap]
    constructor
    · rintro ⟨announcement, hmem, hroot⟩
      cases announcement with
      | rereading => cases hroot
      | broadcasting other =>
          cases hroot
          exact hmem
    · exact fun hmem => ⟨_, hmem, rfl⟩
  have hreceiver : root ∈ world.receiver.elim [] Receiver.queue ↔
      ∃ receiver ∈ world.receiver, root ∈ receiver.queue := by
    cases world.receiver <;> simp
  rw [SubscriptionWorld.announced, List.mem_append, List.mem_append, hannouncements, hreceiver]

theorem announces_new : SubscriptionWorld.new.Announces where
  announcedLe root hroot := by
    rw [mem_announced] at hroot
    rcases hroot with hroot | ⟨_, hreceiver, -⟩ | hroot
    · exact absurd hroot List.not_mem_nil
    · exact absurd hreceiver (Option.not_mem_none _)
    · exact absurd hroot List.not_mem_nil
  missedLt h := by cases h
  owed := .inl trivial

/-- A step after which the server and its last answer are the same keeps what it owes, if it loses no newer
root without a note. -/
theorem SubscriptionWorld.Announces.kept (h : world.Announces) (hmutations : after.mutations = world.mutations)
    (hanswered : after.answered = world.answered)
    (hannounced : ∀ root ∈ after.announced, root ∈ world.announced)
    (hmissed : after.missed = true → world.missed = true ∨ ∃ root ∈ world.announced,
      world.answered < root.sequence.val)
    (howed : after.session.Asks ∨ ¬ world.session.Asks ∧ (world.missed = true → after.missed = true) ∧
      (.rereading ∈ world.announcements → .rereading ∈ after.announcements) ∧
        ∀ root ∈ world.announced, root ∈ after.announced ∨ after.missed = true ∨
          root.sequence.val ≤ world.answered) : after.Announces := by
  have hstore : after.store = world.store := by rw [SubscriptionWorld.store, hmutations, SubscriptionWorld.store]
  constructor
  · intro root hroot
    rw [hstore]
    exact h.announcedLe root (hannounced root hroot)
  · intro hafter
    rw [hstore, hanswered]
    rcases hmissed hafter with hmissed | ⟨root, hroot, hlt⟩
    · exact h.missedLt hmissed
    · exact hlt.trans_le (h.announcedLe root hroot)
  · rw [hstore, hanswered]
    rcases howed with hasks | ⟨hnot, hmissed, hrereading, hroots⟩
    · exact .inl hasks
    · rcases h.owed with hasks | hlost | hle | hmem | ⟨root, hroot, hle⟩
      · exact absurd hasks hnot
      · exact .inr (.inl (hmissed hlost))
      · exact .inr (.inr (.inl hle))
      · exact .inr (.inr (.inr (.inl (hrereading hmem))))
      · rcases hroots root hroot with hkept | hlost | hanswer
        · exact .inr (.inr (.inr (.inr ⟨root, hkept, hle⟩)))
        · exact .inr (.inl hlost)
        · exact .inr (.inr (.inl (hle.trans hanswer)))

theorem SubscriptionWorld.Announces.mutate (h : world.Announces) (call : Call) :
    (subscriptionStep world (.mutate call)).Announces := by
  have hstore : (subscriptionStep world (.mutate call)).store = execute world.store call := Run.after_append
  have hle : world.store.rootState.sequence.val ≤ (execute world.store call).rootState.sequence.val :=
    sequence_mono world.store [call]
  have hannounced : ∀ root, root ∈ (subscriptionStep world (.mutate call)).announced ↔ root ∈ world.announced := by
    intro root
    rw [mem_announced, mem_announced]
    unfold subscriptionStep
    dsimp only
    split_ifs
    · simp
    · rfl
  constructor
  · intro root hroot
    rw [hstore]
    exact (h.announcedLe root ((hannounced root).mp hroot)).trans hle
  · intro hmissed
    rw [hstore]
    exact (h.missedLt hmissed).trans_le hle
  · cases haccepted : (perform world.store call).isSome with
    | true =>
        refine .inr (.inr (.inr (.inl ?_)))
        unfold subscriptionStep
        dsimp only
        rw [if_pos haccepted]
        exact List.mem_append_right _ (List.mem_singleton_self _)
    | false =>
        have hsame : execute world.store call = world.store := by
          rw [execute, Option.not_isSome_iff_eq_none.mp (Bool.eq_false_iff.mp haccepted), Option.getD_none]
        rw [hstore, hsame]
        have hannouncements : (subscriptionStep world (.mutate call)).announcements = world.announcements := by
          unfold subscriptionStep
          dsimp only
          rw [if_neg (Bool.eq_false_iff.mp haccepted)]
        rw [hannouncements]
        rcases h.owed with howed | howed | howed | howed | ⟨root, hroot, howed⟩
        · exact .inl howed
        · exact .inr (.inl howed)
        · exact .inr (.inr (.inl howed))
        · exact .inr (.inr (.inr (.inl howed)))
        · exact .inr (.inr (.inr (.inr ⟨root, (hannounced root).mpr hroot, howed⟩)))

theorem SubscriptionWorld.Announces.reread (h : world.Announces) (index : Nat) :
    (subscriptionStep world (.reread index)).Announces := by
  unfold subscriptionStep
  dsimp only
  split
  · rename_i hrereading
    constructor
    · intro root hroot
      rcases mem_announced.mp hroot with hmem | hrest
      · rcases List.mem_or_eq_of_mem_set hmem with hmem | heq
        · exact h.announcedLe root (mem_announced.mpr (.inl hmem))
        · cases heq
          exact le_rfl
      · exact h.announcedLe root (mem_announced.mpr (.inr hrest))
    · exact h.missedLt
    · refine .inr (.inr (.inr (.inr ⟨world.store.rootState, mem_announced.mpr (.inl ?_), le_rfl⟩)))
      exact List.mem_set (List.getElem?_eq_some_iff.mp hrereading).1 _
  · exact h

omit [Blake3] in
theorem queue_push (receiver : Receiver) (root : RootState) :
    (receiver.push root).queue =
      (if receiver.queue.length < channelCapacity then receiver.queue else receiver.queue.tail) ++ [root] := by
  unfold Receiver.push
  split_ifs <;> rfl

omit [Blake3] in
/-- A value that waits in a receiver still does after the next one, or it is the one that is lost. -/
theorem mem_queue_push (root : RootState) {receiver : Receiver} {other : RootState} (hother : other ∈ receiver.queue) :
    other ∈ (receiver.push root).queue ∨ receiver.dropped = some other := by
  rw [queue_push, Receiver.dropped]
  split_ifs
  · exact .inl (List.mem_append_left _ hother)
  · cases hqueue : receiver.queue with
    | nil =>
        rw [hqueue] at hother
        exact absurd hother List.not_mem_nil
    | cons first rest =>
        rw [hqueue] at hother
        rcases List.mem_cons.mp hother with rfl | hrest
        · exact .inr rfl
        · exact .inl (List.mem_append_left _ hrest)

omit [Blake3] in
theorem mem_of_mem_queue_push {receiver : Receiver} {other : RootState}
    (hother : other ∈ (receiver.push root).queue) : other ∈ receiver.queue ∨ other = root := by
  rw [queue_push, List.mem_append, List.mem_singleton] at hother
  rcases hother with hother | rfl
  · split_ifs at hother
    · exact .inl hother
    · exact .inl (List.mem_of_mem_tail hother)
  · exact .inr rfl

omit [Blake3] in
theorem mem_queue_of_dropped {receiver : Receiver} {other : RootState} (h : receiver.dropped = some other) :
    other ∈ receiver.queue := by
  unfold Receiver.dropped at h
  split_ifs at h
  exact List.mem_of_head? h

/-- The root of a broadcast reaches the receiver, or what is lost is noted. -/
theorem SubscriptionWorld.Announces.broadcast (h : world.Announces) (index : Nat) :
    (subscriptionStep world (.broadcast index)).Announces := by
  unfold subscriptionStep
  dsimp only
  split
  · rename_i root hbroadcasting
    have hroot : root ∈ world.announced := mem_announced.mpr (.inl (List.mem_of_getElem? hbroadcasting))
    have hnoted : ∀ lost, world.lost root = some lost → (world.missed ||
        (world.lost root).any fun lost => decide (world.answered < lost.sequence.val)) = true ∨
          lost.sequence.val ≤ world.answered := by
      intro lost hlost
      rcases lt_or_ge world.answered lost.sequence.val with hlt | hle
      · left
        rw [hlost, Option.any_some, decide_eq_true hlt, Bool.or_true]
      · exact .inr hle
    have hlostMem : ∀ lost, world.lost root = some lost → lost ∈ world.announced := by
      intro lost hlost
      unfold SubscriptionWorld.lost at hlost
      cases hreceiver : world.receiver with
      | none =>
          rw [hreceiver] at hlost
          cases hlost
          exact hroot
      | some receiver =>
          rw [hreceiver] at hlost
          exact mem_announced.mpr (.inr (.inl ⟨receiver, hreceiver, mem_queue_of_dropped hlost⟩))
    have hreceived : ∀ other, (∃ receiver ∈ world.receiver.map (Receiver.push root), other ∈ receiver.queue) →
        other ∈ world.announced := by
      rintro other ⟨pushed, hpushed, hother⟩
      obtain ⟨receiver, hreceiver, rfl⟩ := Option.map_eq_some_iff.mp hpushed
      rcases mem_of_mem_queue_push hother with hother | rfl
      · exact mem_announced.mpr (.inr (.inl ⟨receiver, hreceiver, hother⟩))
      · exact hroot
    have hkept : ∀ other ∈ world.announced, .broadcasting other ∈ world.announcements.eraseIdx index ∨
        (∃ receiver ∈ world.receiver.map (Receiver.push root), other ∈ receiver.queue) ∨
          other ∈ world.inFlight ∨ world.lost root = some other := by
      intro other hother
      rcases mem_announced.mp hother with hmem | ⟨receiver, hreceiver, hmem⟩ | hmem
      · obtain ⟨position, hposition⟩ := List.getElem?_of_mem hmem
        by_cases heq : position = index
        · rw [heq, hbroadcasting] at hposition
          cases hposition
          cases hreceiver : world.receiver with
          | none =>
              refine .inr (.inr (.inr ?_))
              rw [SubscriptionWorld.lost, hreceiver]
          | some receiver =>
              refine .inr (.inl ⟨receiver.push root, rfl, ?_⟩)
              rw [queue_push]
              exact List.mem_append_right _ (List.mem_singleton_self root)
        · exact .inl (List.mem_eraseIdx_iff_getElem?.mpr ⟨position, heq, hposition⟩)
      · rcases mem_queue_push root hmem with hpushed | hdropped
        · exact .inr (.inl ⟨receiver.push root, by rw [hreceiver]; rfl, hpushed⟩)
        · refine .inr (.inr (.inr ?_))
          rw [SubscriptionWorld.lost, hreceiver]
          exact hdropped
      · exact .inr (.inr (.inl hmem))
    refine h.kept rfl rfl (fun other hother => ?_) (fun hmissed => ?_) ?_
    · rcases mem_announced.mp hother with hmem | hmem | hmem
      · exact mem_announced.mpr (.inl (List.mem_of_mem_eraseIdx hmem))
      · exact hreceived other hmem
      · exact mem_announced.mpr (.inr (.inr hmem))
    · rcases Bool.or_eq_true_iff.mp hmissed with hmissed | hany
      · exact .inl hmissed
      · obtain ⟨lost, hlost, hlt⟩ := (Option.any_eq_true _ _).mp hany
        exact .inr ⟨lost, hlostMem lost hlost, of_decide_eq_true hlt⟩
    · by_cases hasks : world.session.Asks
      · exact .inl hasks
      · refine .inr ⟨hasks, fun hmissed => Bool.or_eq_true_iff.mpr (.inl hmissed), fun hmem => ?_,
          fun other hother => ?_⟩
        · obtain ⟨position, hposition⟩ := List.getElem?_of_mem hmem
          refine List.mem_eraseIdx_iff_getElem?.mpr ⟨position, ?_, hposition⟩
          rintro rfl
          rw [hbroadcasting] at hposition
          cases hposition
        · rcases hkept other hother with hmem | hmem | hmem | hlost
          · exact .inl (mem_announced.mpr (.inl hmem))
          · exact .inl (mem_announced.mpr (.inr (.inl hmem)))
          · exact .inl (mem_announced.mpr (.inr (.inr hmem)))
          · exact .inr (hnoted other hlost)
  · exact h

omit [Blake3] in
/-- Without a connection the next thing is a sync. -/
theorem SubscriptionWorld.announced_disconnect_subset (hroot : root ∈ world.disconnect.announced) :
    root ∈ world.announced := by
  rcases mem_announced.mp hroot with hmem | ⟨_, hreceiver, -⟩ | hmem
  · exact mem_announced.mpr (.inl hmem)
  · exact absurd hreceiver (Option.not_mem_none _)
  · exact absurd hmem List.not_mem_nil

theorem SubscriptionWorld.Announces.disconnect (h : world.Announces) : world.disconnect.Announces :=
  h.kept rfl rfl (fun _ => SubscriptionWorld.announced_disconnect_subset) .inl (.inl trivial)

/-- The client and the server go on, and nothing that is on its way changes. -/
theorem SubscriptionWorld.Announces.goOn (h : world.Announces) (hmutations : after.mutations = world.mutations)
    (hanswered : after.answered = world.answered) (hmissed : after.missed = world.missed)
    (hannouncements : after.announcements = world.announcements)
    (hannounced : ∀ root, root ∈ after.announced ↔ root ∈ world.announced)
    (hasks : after.session.Asks ∨ ¬ world.session.Asks) : after.Announces := by
  apply h.kept hmutations hanswered (fun root => (hannounced root).mp) (fun h => .inl (hmissed ▸ h))
  rcases hasks with hasks | hasks
  · exact .inl hasks
  · exact .inr ⟨hasks, fun h => hmissed.symm ▸ h, fun h => hannouncements.symm ▸ h,
      fun root hroot => .inl ((hannounced root).mpr hroot)⟩

end Announces

/-! ### Along a run -/

structure SubscriptionWorld.Sound (calls : List Call) (world : SubscriptionWorld) : Prop where
  inTurn : world.InTurn calls
  announces : world.Announces

section Steps

variable {calls : List Call} {world : SubscriptionWorld}

theorem SubscriptionWorld.Sound.connect (h : world.Sound calls) :
    (subscriptionStep world .connect).Sound calls := by
  unfold subscriptionStep
  dsimp only
  split
  · rename_i hsession
    refine ⟨h.inTurn.start false (by rw [hsession]; rfl), ?_⟩
    exact h.announces.goOn rfl rfl rfl rfl (fun _ => Iff.rfl) (.inl trivial)
  · exact h

theorem SubscriptionWorld.Sound.answer (h : world.Sound calls) (hrun : BuiltRun calls) :
    (subscriptionStep world .answer).Sound calls := by
  unfold subscriptionStep
  dsimp only
  split
  · rename_i triggered root hsession
    have hturn : SyncsInTurn calls world.mutations world.state (.syncing triggered (.requested root))
        world.answered := hsession ▸ h.inTurn
    refine ⟨hturn.serve hrun, ?_⟩
    exact
      { announcedLe := h.announces.announcedLe
        missedLt := fun hmissed => absurd hmissed Bool.false_ne_true
        owed := .inr (.inr (.inl le_rfl)) }
  · exact h

theorem SubscriptionWorld.Sound.deliver (h : world.Sound calls) :
    (subscriptionStep world .deliver).Sound calls := by
  unfold subscriptionStep
  dsimp only
  split
  · rename_i triggered root response hsession
    have hturn : SyncsInTurn calls world.mutations world.state (.syncing triggered (.answered root response))
        world.answered := hsession ▸ h.inTurn
    obtain ⟨changes, rfl, -⟩ := hturn.answer triggered root response rfl
    have hmerged : receiveChanges world.state root (.ok changes) =
        ((receiveChanges world.state root (.ok changes)).1, none) :=
      Prod.ext rfl (receiveChanges_ok_task world.state root changes)
    rw [hmerged]
    refine ⟨hturn.deliver, h.announces.goOn rfl rfl rfl rfl (fun _ => Iff.rfl) (.inr ?_)⟩
    rw [hsession]
    exact id
  · exact h

theorem SubscriptionWorld.Sound.forward (h : world.Sound calls) :
    (subscriptionStep world .forward).Sound calls := by
  unfold subscriptionStep
  dsimp only
  split
  · rename_i queue hreceiver
    refine ⟨h.inTurn, h.announces.goOn rfl rfl rfl rfl (fun root => ?_) (Classical.em _)⟩
    rw [mem_announced, mem_announced, hreceiver]
    simp
  · rename_i first queue hreceiver
    refine ⟨h.inTurn, h.announces.goOn rfl rfl rfl rfl (fun root => ?_) (Classical.em _)⟩
    rw [mem_announced, mem_announced, hreceiver]
    simp only [Option.mem_some_iff, exists_eq_left', List.mem_append, List.mem_cons]
    tauto
  · exact h

/-- A notification of the root that the client has is skipped, and every other one triggers a sync. -/
theorem SubscriptionWorld.Sound.next (h : world.Sound calls) :
    (subscriptionStep world .next).Sound calls := by
  unfold subscriptionStep
  dsimp only
  split
  · rename_i root inFlight hsession hinFlight
    have hsub : ∀ other, (.broadcasting other ∈ world.announcements ∨
        (∃ receiver ∈ world.receiver, other ∈ receiver.queue) ∨ other ∈ inFlight) → other ∈ world.announced := by
      rintro other (hmem | hmem | hmem)
      · exact mem_announced.mpr (.inl hmem)
      · exact mem_announced.mpr (.inr (.inl hmem))
      · exact mem_announced.mpr (.inr (.inr (hinFlight ▸ List.mem_cons_of_mem root hmem)))
    split_ifs with hsame
    · refine ⟨h.inTurn, h.announces.kept rfl rfl (fun other hother => hsub other (mem_announced.mp hother)) .inl
        (.inr ⟨by rw [hsession]; exact id, id, id, fun other hother => ?_⟩)⟩
      rcases mem_announced.mp hother with hmem | hmem | hmem
      · exact .inl (mem_announced.mpr (.inl hmem))
      · exact .inl (mem_announced.mpr (.inr (.inl hmem)))
      · rw [hinFlight] at hmem
        rcases List.mem_cons.mp hmem with rfl | hmem
        · exact .inr (.inr (h.inTurn.rootLe other hsame))
        · exact .inl (mem_announced.mpr (.inr (.inr hmem)))
    · refine ⟨h.inTurn.start true (by rw [hsession]; rfl), ?_⟩
      exact h.announces.kept rfl rfl (fun other hother => hsub other (mem_announced.mp hother)) .inl
        (.inl trivial)
  · exact h

theorem SubscriptionWorld.Sound.step (h : world.Sound calls) (hrun : BuiltRun calls) (step : SubscriptionStep)
    (hcall : ∀ call ∈ step.call?, world.mutations ++ [call] <+: calls) :
    (subscriptionStep world step).Sound calls := by
  cases step with
  | mutate call => exact ⟨h.inTurn.mutate hrun (hcall call rfl), h.announces.mutate call⟩
  | reread index =>
      refine ⟨?_, h.announces.reread index⟩
      unfold subscriptionStep
      dsimp only
      split <;> exact h.inTurn
  | broadcast index =>
      refine ⟨?_, h.announces.broadcast index⟩
      unfold subscriptionStep
      dsimp only
      split <;> exact h.inTurn
  | connect => exact h.connect
  | answer => exact h.answer hrun
  | deliver => exact h.deliver
  | confirm =>
      unfold subscriptionStep
      dsimp only
      split
      · exact ⟨h.inTurn, h.announces.goOn rfl rfl rfl rfl (fun _ => Iff.rfl) (Classical.em _)⟩
      · exact h
  | listen =>
      unfold subscriptionStep
      dsimp only
      split
      · rename_i hreceiver
        refine ⟨h.inTurn, h.announces.goOn rfl rfl rfl rfl (fun root => ?_) (Classical.em _)⟩
        rw [mem_announced, mem_announced, hreceiver]
        simp
      · exact h
  | subscribed =>
      unfold subscriptionStep
      dsimp only
      split
      · rename_i hsession
        have hturn : SyncsInTurn calls world.mutations world.state .subscribing world.answered :=
          hsession ▸ h.inTurn
        exact ⟨hturn.subscribed,
          h.announces.goOn rfl rfl rfl rfl (fun _ => Iff.rfl) (.inr (by rw [hsession]; exact id))⟩
      · exact h
  | forward => exact h.forward
  | next => exact h.next
  | drop => exact ⟨h.inTurn.disconnect, h.announces.disconnect⟩

theorem mutations_step (world : SubscriptionWorld) (step : SubscriptionStep) :
    (subscriptionStep world step).mutations = world.mutations ++ step.call?.toList := by
  cases step with
  | mutate call => rfl
  | deliver =>
      unfold subscriptionStep
      dsimp only
      split
      · split <;> exact (List.append_nil _).symm
      · exact (List.append_nil _).symm
  | next =>
      unfold subscriptionStep
      dsimp only
      split
      · split_ifs <;> exact (List.append_nil _).symm
      · exact (List.append_nil _).symm
  | drop => exact (List.append_nil _).symm
  | _ =>
      unfold subscriptionStep
      dsimp only
      split <;> exact (List.append_nil _).symm

theorem executed_run {steps : List SubscriptionStep}
    (h : world.mutations ++ steps.filterMap SubscriptionStep.call? <+: calls) :
    Run.Meets subscriptionStep (fun world step => ∀ call ∈ step.call?, world.mutations ++ [call] <+: calls)
      world steps := by
  induction steps generalizing world with
  | nil => trivial
  | cons step rest ih =>
      have happend : (subscriptionStep world step).mutations ++ rest.filterMap SubscriptionStep.call? =
          world.mutations ++ (step :: rest).filterMap SubscriptionStep.call? := by
        rw [mutations_step, List.append_assoc, List.filterMap_cons]
        cases step.call? <;> rfl
      refine ⟨fun call hcall => List.IsPrefix.trans ?_ h, ih (happend ▸ h)⟩
      rw [List.filterMap_cons, hcall]
      exact ⟨rest.filterMap SubscriptionStep.call?, by rw [List.append_assoc]; rfl⟩

theorem sound_run (steps : List SubscriptionStep) (hrun : BuiltRun (steps.filterMap SubscriptionStep.call?)) :
    (Run.after subscriptionStep .new steps).Sound (steps.filterMap SubscriptionStep.call?) :=
  (executed_run (List.nil_append _ ▸ List.prefix_rfl)).invariant _ ⟨syncsInTurn_new _, announces_new⟩
    fun _ step hsound hcall => hsound.step hrun step hcall

/-- When nothing is on its way, the client has the current root if no newer one was lost. -/
theorem SubscriptionWorld.Sound.upToDate_iff (h : world.Sound calls) (hquiet : world.Quiet) :
    world.UpToDate ↔ world.missed = false := by
  obtain ⟨root, hroot, hanswered⟩ := h.inTurn.settled (.inr hquiet.session)
  constructor
  · intro hupToDate
    by_contra hmissed
    have hlt := h.announces.missedLt (Bool.not_eq_false _ ▸ hmissed)
    have heq := Option.some.inj (hroot.symm.trans hupToDate.root)
    rw [← heq, hanswered] at hlt
    exact lt_irrefl _ hlt
  · intro hmissed
    have hcurrent : world.store.rootState.sequence.val ≤ root.sequence.val := by
      rw [hanswered]
      rcases h.announces.owed with hasks | hlost | hle | hmem | ⟨other, hother, -⟩
      · rw [hquiet.session] at hasks
        exact hasks.elim
      · exact absurd hlost (Bool.eq_false_iff.mp hmissed)
      · exact hle
      · rw [hquiet.announcements] at hmem
        exact absurd hmem List.not_mem_nil
      · rcases mem_announced.mp hother with hmem | ⟨receiver, hreceiver, hmem⟩ | hmem
        · rw [hquiet.announcements] at hmem
          exact absurd hmem List.not_mem_nil
        · rw [hquiet.receiver receiver hreceiver] at hmem
          exact absurd hmem List.not_mem_nil
        · rw [hquiet.inFlight] at hmem
          exact absurd hmem List.not_mem_nil
    obtain ⟨earlier, ⟨later, hlater⟩, hearlier, hcards, htags⟩ := h.inTurn.sync.inStep root hroot
    dsimp only at hlater hcards htags
    have hstore : world.store = Run.after execute (Run.after execute initSchema earlier) later := by
      rw [SubscriptionWorld.store, ← hlater, Run.after_append]
    have hsame : world.store = Run.after execute initSchema earlier := by
      rw [hstore]
      apply after_eq_self
      rw [← hstore, hearlier]
      exact hcurrent
    exact
      { root := by rw [hsame, hearlier, hroot]
        cards := hsame ▸ hcards
        tags := hsame ▸ htags }

end Steps

/-- A client always has the contents of its root. Whenever it waits for a notification and none is on its way,
it has the root and the contents of the server, unless a newer root was broadcast to a full receiver or before
there was one. -/
theorem upToDate_run_iff (steps : List SubscriptionStep)
    (hrun : BuiltRun (steps.filterMap SubscriptionStep.call?)) :
    let world := Run.after subscriptionStep .new steps
    InStep world.syncWorld ∧ (world.Quiet → (world.UpToDate ↔ world.missed = false)) := by
  intro world
  have hsound := sound_run steps hrun
  exact ⟨hsound.inTurn.sync.inStep, hsound.upToDate_iff⟩

end Runs

def connecting : List SubscriptionStep := [.connect, .answer, .deliver, .confirm]

def announcing : List SubscriptionStep := [.reread 0, .broadcast 0]

def subscribedSteps : List SubscriptionStep :=
  sampleEarlier.map .mutate ++ announcing ++ connecting ++ [.listen, .subscribed] ++ sampleLater.map .mutate ++
    announcing ++ announcing ++ [.forward, .next, .answer, .deliver, .forward, .next]

theorem quiet_subscribed :
    (@Run.after SubscriptionWorld SubscriptionStep (@subscriptionStep polynomialBlake3) .new
      subscribedSteps).Quiet := by
  decide +kernel

theorem upToDate_run_iff_subscribed :
    let _ := polynomialBlake3
    let world := Run.after subscriptionStep .new subscribedSteps
    BuiltRun (subscribedSteps.filterMap SubscriptionStep.call?) ∧
      InStep world.syncWorld ∧ (world.Quiet → (world.UpToDate ↔ world.missed = false)) :=
  ⟨builtRun_sample, @upToDate_run_iff polynomialBlake3 subscribedSteps builtRun_sample⟩

/-- The same calls, but the last two are announced before there is a receiver. -/
example :
    let _ := polynomialBlake3
    let steps := sampleEarlier.map .mutate ++ announcing ++ connecting ++ sampleLater.map .mutate ++ announcing ++
      announcing ++ [.listen, .subscribed]
    let world := Run.after subscriptionStep .new steps
    world.Quiet ∧ world.missed = true := by
  decide +kernel

end BlazeList
