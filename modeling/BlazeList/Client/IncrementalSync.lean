import BlazeList.Client.ChangeSet

/-!
# Overlapping syncs

A sync reads the root of the client, asks the server for the changes since then, and on the answer merges
them and records the root that came with them. The auto-sync timer and the subscription loop both start
syncs, so several may be on their way at a time and their answers may come in any order.
-/

namespace BlazeList

structure AppState where
  cards : List Card
  tags : List Tag
  root : Option RootState

/-- A sync that has not finished: its request is on the way, or the answer is. Without a root it is an
initial sync. -/
inductive SyncTask where
  | requested (root : Option RootState)
  | answered (root : Option RootState) (response : Except StorageError ChangeSet)

/-- The calls the server has executed, the client, and the syncs on their way. -/
structure SyncWorld where
  mutations : List Call
  state : AppState
  tasks : List SyncTask

inductive SyncStep where
  | mutate (call : Call)
  | start
  | answer (index : Nat)
  | deliver (index : Nat)
  | lose (index : Nat)

def SyncWorld.new : SyncWorld := ⟨[], ⟨[], [], none⟩, []⟩

section Runs

variable [Blake3]

def SyncWorld.store (world : SyncWorld) : Store := Run.after execute initSchema world.mutations

def requestChanges (store : Store) : Option RootState → Except StorageError ChangeSet
  | none => getChangesSince store .min zeroHash
  | some root => getChangesSince store root.sequence root.hash

omit [Blake3] in
/-- What a sync does with its answer. After a mismatch it goes on as an initial sync. -/
def receiveChanges (state : AppState) (root : Option RootState) :
    Except StorageError ChangeSet → AppState × Option SyncTask
  | .ok changes =>
      match root with
      | none => (⟨changes.cards, changes.tags, some changes.root⟩, none)
      | some _ =>
          (⟨applyCardChangeset state.cards changes, applyTagChangeset state.tags changes,
            some changes.root⟩, none)
  | .error (.rootHashMismatch _ _) =>
      match root with
      | none => (state, none)
      | some _ => ({ state with root := none }, some (.requested none))
  | .error _ => (state, none)

def syncStep (world : SyncWorld) : SyncStep → SyncWorld
  | .mutate call => { world with mutations := world.mutations ++ [call] }
  | .start => { world with tasks := world.tasks ++ [.requested world.state.root] }
  | .answer index =>
      match world.tasks[index]? with
      | some (.requested root) =>
          { world with
            tasks := world.tasks.set index (.answered root (requestChanges world.store root)) }
      | _ => world
  | .deliver index =>
      match world.tasks[index]? with
      | some (.answered root response) =>
          let (state, next) := receiveChanges world.state root response
          { world with state, tasks := world.tasks.eraseIdx index ++ next.toList }
      | _ => world
  | .lose index => { world with tasks := world.tasks.eraseIdx index }

/-- The cards and tags of the client are what the server held at the root the client records. -/
def InStep (world : SyncWorld) : Prop :=
  ∀ root ∈ world.state.root, ∃ earlier, earlier <+: world.mutations ∧
    (Run.after execute initSchema earlier).rootState = root ∧
    (Run.after execute initSchema earlier).cards.Shows world.state.cards ∧
    (Run.after execute initSchema earlier).tags.Shows world.state.tags

/-! ### Answers in order -/

omit [Blake3] in
def SyncWorld.arriving (world : SyncWorld) (index : Nat) : Option ChangeSet :=
  match world.tasks[index]? with
  | some (.answered _ (.ok changes)) => some changes
  | _ => none

/-- No answer is merged that is older than the root of the client. The calls the server accepts keep
the ids of cards and tags apart. -/
def InOrder (isCard : Uuid → Prop) (world : SyncWorld) : SyncStep → Prop
  | .mutate call => AcceptsApart isCard world.store call
  | .deliver index => ∀ changes ∈ world.arriving index, ∀ root ∈ world.state.root,
      root.sequence.val ≤ changes.root.sequence.val
  | .start | .answer _ | .lose _ => True

instance (isCard : Uuid → Prop) [DecidablePred isCard] (world : SyncWorld) :
    (step : SyncStep) → Decidable (InOrder isCard world step)
  | .mutate call =>
      inferInstanceAs (Decidable (_ → ∀ item ∈ call.mutation.items, item.Apart isCard))
  | .deliver index =>
      inferInstanceAs (Decidable (∀ changes ∈ world.arriving index, ∀ root ∈ world.state.root, _))
  | .start | .answer _ | .lose _ => isTrue trivial

/-! ### The invariant -/

def Known (world : SyncWorld) (root : RootState) : Prop :=
  (∃ earlier, earlier <+: world.mutations ∧
      (Run.after execute initSchema earlier).rootState = root) ∧
    ∃ current ∈ world.state.root, root.sequence.val ≤ current.sequence.val

def TaskSound (world : SyncWorld) : SyncTask → Prop
  | .requested root => ∀ known ∈ root, Known world known
  | .answered root response => (∀ known ∈ root, Known world known) ∧
      ∃ earlier, earlier <+: world.mutations ∧
        response = changesSince (Run.after execute initSchema earlier)
          (root.elim 0 fun known => known.sequence.val)

structure SyncInvariant (isCard : Uuid → Prop) (world : SyncWorld) : Prop where
  apart : Run.Meets execute (AcceptsApart isCard) initSchema world.mutations
  inStep : InStep world
  tasks : ∀ task ∈ world.tasks, TaskSound world task

theorem syncInvariant_new (isCard : Uuid → Prop) : SyncInvariant isCard .new where
  apart := trivial
  inStep _ hroot := absurd hroot (Option.not_mem_none _)
  tasks _ htask := absurd htask List.not_mem_nil

/-- What is sound stays so when the server goes on and the root of the client does not go back. -/
theorem TaskSound.mono {before after : SyncWorld} {task : SyncTask} (h : TaskSound before task)
    (hmutations : before.mutations <+: after.mutations)
    (hroot : ∀ root ∈ before.state.root, ∃ current ∈ after.state.root,
      root.sequence.val ≤ current.sequence.val) : TaskSound after task := by
  have hknown : ∀ root, Known before root → Known after root := by
    rintro root ⟨⟨earlier, hearlier, heq⟩, current, hcurrent, hle⟩
    obtain ⟨newer, hnewer, hnewerLe⟩ := hroot current hcurrent
    exact ⟨⟨earlier, hearlier.trans hmutations, heq⟩, newer, hnewer, hle.trans hnewerLe⟩
  cases task with
  | requested root => exact fun known hmem => hknown known (h known hmem)
  | answered root response =>
      obtain ⟨hroots, earlier, hearlier, heq⟩ := h
      exact ⟨fun known hmem => hknown known (hroots known hmem), earlier,
        hearlier.trans hmutations, heq⟩

theorem requestChanges_eq {world : SyncWorld} {root : Option RootState}
    (hroot : ∀ known ∈ root, Known world known) :
    requestChanges world.store root =
      changesSince world.store (root.elim 0 fun known => known.sequence.val) := by
  cases root with
  | none => exact getChangesSince_later [] world.mutations
  | some root =>
      obtain ⟨⟨earlier, ⟨later, hlater⟩, rfl⟩, -⟩ := hroot root rfl
      have hstore : world.store = Run.after execute (Run.after execute initSchema earlier) later := by
        rw [SyncWorld.store, ← hlater, Run.after_append]
      rw [hstore]
      exact getChangesSince_later earlier later

/-- A read of rows can only fail inside the database. -/
theorem internal_of_fromRows {E : Type} [Stored E] {rows : List E} {error : StorageError}
    (h : fromRows rows = .error error) : ∃ message, error = .internal message := by
  induction rows with
  | nil => cases h
  | cons row rest ih =>
      rw [fromRows, List.mapM_cons] at h
      cases hrow : Stored.fromRow row with
      | error failure =>
          rw [hrow] at h
          exact ⟨failure.toString, (Except.error.inj h).symm⟩
      | ok entity =>
          cases hrest : fromRows rest with
          | error failure =>
              rw [fromRows] at hrest
              rw [hrow, hrest] at h
              exact ih (hrest.trans h)
          | ok entities =>
              rw [fromRows] at hrest
              rw [hrow, hrest] at h
              cases h

theorem changesSince_error {store : Store} {since : Nat} {error : StorageError}
    (h : changesSince store since = .error error) : ∃ message, error = .internal message := by
  rcases Except.bind_eq_error_iff.mp h with hcards | ⟨cards, -, h⟩
  · exact internal_of_fromRows hcards
  · rcases Except.bind_eq_error_iff.mp h with htags | ⟨tags, -, h⟩
    · exact internal_of_fromRows htags
    · cases h

theorem changesSince_ne_rootHashMismatch {store : Store} {since : Nat} {sequence : NonNegativeI64}
    {hash : Hash} : changesSince store since ≠ .error (.rootHashMismatch sequence hash) := by
  intro h
  obtain ⟨message, hmessage⟩ := changesSince_error h
  cases hmessage

omit [Blake3] in
/-- An initial sync gets everything. -/
theorem Tracked.changedSince_zero {E : Type} [Stored E] {tables : EntityTables E}
    {deletedEntities : Table deletedConflict} (h : Tracked [] [] 0 .empty tables deletedEntities) :
    tables.changedSince 0 = tables.entities := by
  rw [EntityTables.changedSince, EntityTables.entities, List.filter_eq_self.mpr]
  intro row hrow
  rcases h.unmarked row hrow with hmarked | hold
  · exact decide_eq_true (hmarked.resolve_left List.not_mem_nil)
  · exact absurd hold (Table.not_mem_empty row)

omit [Blake3] in
theorem receiveChanges_error {state : AppState} {root : Option RootState} {error : StorageError}
    (herror : ∀ sequence hash, error ≠ .rootHashMismatch sequence hash) :
    receiveChanges state root (.error error) = (state, none) := by
  cases error with
  | rootHashMismatch sequence hash => exact absurd rfl (herror sequence hash)
  | _ => rfl

omit [Blake3] in
theorem receiveChanges_ok_task (state : AppState) (root : Option RootState) (changes : ChangeSet) :
    (receiveChanges state root (.ok changes)).2 = none := by
  cases root <;> rfl

/-- Merging an answer that is not older than the root of the client brings the client to the point
where the answer was given. -/
theorem receiveChanges_shows {isCard : Uuid → Prop} {world : SyncWorld}
    (hinv : SyncInvariant isCard world) {root : Option RootState} {changes : ChangeSet}
    {earlier : List Call} (hknown : ∀ known ∈ root, Known world known)
    (hearlier : earlier <+: world.mutations)
    (hchanges : changesSince (Run.after execute initSchema earlier)
      (root.elim 0 fun known => known.sequence.val) = .ok changes)
    (horder : ∀ current ∈ world.state.root, current.sequence.val ≤ changes.root.sequence.val) :
    (receiveChanges world.state root (.ok changes)).1.root =
        some (Run.after execute initSchema earlier).rootState ∧
      (Run.after execute initSchema earlier).cards.Shows
        (receiveChanges world.state root (.ok changes)).1.cards ∧
      (Run.after execute initSchema earlier).tags.Shows
        (receiveChanges world.state root (.ok changes)).1.tags := by
  obtain ⟨hcards, htags, -, hroot⟩ := changesSince_eq_ok_iff.mp hchanges
  obtain ⟨rest, hrest⟩ := id hearlier
  have hmeets : Run.Meets execute (AcceptsApart isCard) initSchema earlier :=
    (Run.meets_append.mp (hrest ▸ hinv.apart)).1
  cases root with
  | none =>
      have htracked : StoreTracked .empty 0 initSchema (Run.after execute initSchema earlier) :=
        storeTracked_run hmeets
      refine ⟨congrArg some hroot, ⟨_, ?_, .refl _⟩, ⟨_, ?_, .refl _⟩⟩
      · rw [← htracked.cards.changedSince_zero]
        exact hcards
      · rw [← htracked.tags.changedSince_zero]
        exact htags
  | some known =>
      obtain ⟨-, current, hcurrent, hle⟩ := hknown known rfl
      obtain ⟨point, hpoint, rfl, hshowsCards, hshowsTags⟩ := hinv.inStep current hcurrent
      have htracked := storeTracked_of_le hinv.apart hpoint hearlier (hroot ▸ horder _ hcurrent)
      exact ⟨congrArg some hroot,
        htracked.shows (apartInvariant_run hmeets) hle hshowsCards hshowsTags hchanges⟩

section Steps

variable {isCard : Uuid → Prop} {world : SyncWorld}

theorem SyncInvariant.mutate (hinv : SyncInvariant isCard world) {call : Call}
    (horder : InOrder isCard world (.mutate call)) : SyncInvariant isCard (syncStep world (.mutate call)) := by
  refine ⟨Run.meets_append.mpr ⟨hinv.apart, horder, trivial⟩, ?_, ?_⟩
  · intro root hroot
    obtain ⟨earlier, hearlier, hshows⟩ := hinv.inStep root hroot
    exact ⟨earlier, hearlier.trans (List.prefix_append _ _), hshows⟩
  · intro task htask
    exact (hinv.tasks task htask).mono (List.prefix_append _ _)
      fun root hroot => ⟨root, hroot, le_rfl⟩

theorem SyncInvariant.start (hinv : SyncInvariant isCard world) :
    SyncInvariant isCard (syncStep world .start) := by
  refine ⟨hinv.apart, hinv.inStep, fun task htask => ?_⟩
  rcases List.mem_append.mp htask with htask | htask
  · exact hinv.tasks task htask
  · rw [List.mem_singleton.mp htask]
    intro root hroot
    obtain ⟨earlier, hearlier, heq, -⟩ := hinv.inStep root hroot
    exact ⟨⟨earlier, hearlier, heq⟩, root, hroot, le_rfl⟩

/-- An answer comes from the server as it is when it answers. -/
theorem SyncInvariant.answer (hinv : SyncInvariant isCard world) (index : Nat) :
    SyncInvariant isCard (syncStep world (.answer index)) := by
  unfold BlazeList.syncStep
  dsimp only
  split
  · rename_i root hrequested
    have hknown : ∀ known ∈ root, Known world known :=
      hinv.tasks _ (List.mem_of_getElem? hrequested)
    refine ⟨hinv.apart, hinv.inStep, fun task htask => ?_⟩
    rcases List.mem_or_eq_of_mem_set htask with htask | rfl
    · exact hinv.tasks task htask
    · exact ⟨hknown, world.mutations, List.prefix_rfl, requestChanges_eq hknown⟩
  · exact hinv

/-- An answer that is not older than the root of the client is merged. -/
theorem SyncInvariant.deliver (hinv : SyncInvariant isCard world) {index : Nat}
    (horder : InOrder isCard world (.deliver index)) : SyncInvariant isCard (syncStep world (.deliver index)) := by
  unfold BlazeList.syncStep
  dsimp only
  split
  · rename_i root response hanswered
    obtain ⟨hknown, earlier, hearlier, hresponse⟩ :=
      hinv.tasks _ (List.mem_of_getElem? hanswered)
    cases response with
    | error error =>
        have hplain : receiveChanges world.state root (.error error) = (world.state, none) :=
          receiveChanges_error fun sequence hash heq =>
            changesSince_ne_rootHashMismatch (hresponse.symm.trans (congrArg Except.error heq))
        rw [hplain]
        refine ⟨hinv.apart, hinv.inStep, fun task htask => ?_⟩
        rw [Option.toList_none, List.append_nil] at htask
        exact hinv.tasks task (List.mem_of_mem_eraseIdx htask)
    | ok changes =>
        have harriving : changes ∈ world.arriving index := by
          rw [SyncWorld.arriving, hanswered]
          exact rfl
        have hnotOlder := horder changes harriving
        obtain ⟨hroot, hshows⟩ :=
          receiveChanges_shows hinv hknown hearlier hresponse.symm hnotOlder
        have hchangesRoot := (changesSince_eq_ok_iff.mp hresponse.symm).2.2.2
        refine ⟨hinv.apart, fun current hcurrent => ?_, fun task htask => ?_⟩
        · obtain rfl := Option.some.inj (hroot.symm.trans hcurrent)
          exact ⟨earlier, hearlier, rfl, hshows⟩
        · rw [receiveChanges_ok_task, Option.toList_none, List.append_nil] at htask
          refine (hinv.tasks task (List.mem_of_mem_eraseIdx htask)).mono List.prefix_rfl
            fun current hcurrent => ⟨_, hroot, ?_⟩
          rw [← hchangesRoot]
          exact hnotOlder current hcurrent
  · exact hinv

theorem SyncInvariant.lose (hinv : SyncInvariant isCard world) (index : Nat) :
    SyncInvariant isCard (syncStep world (.lose index)) := by
  refine ⟨hinv.apart, hinv.inStep, fun task htask => ?_⟩
  exact hinv.tasks task (List.mem_of_mem_eraseIdx htask)

theorem SyncInvariant.syncStep {step : SyncStep} (hinv : SyncInvariant isCard world)
    (horder : InOrder isCard world step) : SyncInvariant isCard (syncStep world step) := by
  cases step with
  | mutate call => exact hinv.mutate horder
  | start => exact hinv.start
  | answer index => exact hinv.answer index
  | deliver index => exact hinv.deliver horder
  | lose index => exact hinv.lose index

end Steps

/-- In a run that merges no answer older than the root of the client, the client always holds the
contents of the server at its root, whatever the syncs and the server do. -/
theorem inStep_run (isCard : Uuid → Prop) (steps : List SyncStep)
    (horder : Run.Meets syncStep (InOrder isCard) SyncWorld.new steps) :
    InStep (Run.after syncStep SyncWorld.new steps) :=
  (horder.invariant (SyncInvariant isCard) (syncInvariant_new isCard)
    fun _ _ hinv => hinv.syncStep).inStep

end Runs

/-! ### Three overlapping syncs -/

def editedCard : Card :=
  ((@Card.next polynomialBlake3 (sampleCard 1 ⟨0, zero_mem_i64⟩) "edited" ⟨0, zero_mem_i64⟩ [] false .epoch
    none).getD (sampleCard 1 ⟨0, zero_mem_i64⟩))

/-- The first sync is answered before the card is edited, the second after it, and the third starts from
the root that the second one brings. The answers are delivered in the order given. -/
def overlappingSyncs (deliveries : List SyncStep) : List SyncStep :=
  [.start, .answer 0, .deliver 0, .mutate ⟨.pushCardVersions [sampleCard 1 ⟨0, zero_mem_i64⟩], 0⟩,
    .start, .answer 0, .mutate ⟨.pushCardVersions [editedCard], 1⟩, .start, .answer 1] ++ deliveries

theorem inStep_sample :
    let _ := polynomialBlake3
    InStep (Run.after syncStep SyncWorld.new (overlappingSyncs [.deliver 0, .deliver 0])) :=
  @inStep_run polynomialBlake3 (· = 1) _ (by decide +kernel)

def lateDeliveries : List SyncStep :=
  [.deliver 1, .start, .mutate ⟨.pushCardVersions [sampleCard 3 ⟨5, five_mem_i64⟩], 2⟩, .answer 1,
    .deliver 0, .deliver 0]

/-- No sync is left, the client records the current root of the server, and its card is the old one. -/
theorem not_inStep_late :
    let _ := polynomialBlake3
    let world := Run.after syncStep SyncWorld.new (overlappingSyncs lateDeliveries)
    world.tasks = [] ∧ world.state.root = some world.store.rootState ∧ ¬ InStep world := by
  intro _ world
  have htasks : world.tasks = [] := by decide +kernel
  have hroot : world.state.root = some world.store.rootState := by decide +kernel
  have hserver : (fromRows world.store.cards.entities).toOption =
      some [editedCard, sampleCard 3 ⟨5, by decide⟩] := by
    decide +kernel
  have hclient : editedCard ∉ world.state.cards := by decide +kernel
  refine ⟨htasks, hroot, fun hinStep => ?_⟩
  obtain ⟨earlier, ⟨later, hlater⟩, hearlier, ⟨decoded, hdecoded, hperm⟩, -⟩ := hinStep _ hroot
  have hstore : world.store = Run.after execute (Run.after execute initSchema earlier) later := by
    rw [SyncWorld.store, ← hlater, Run.after_append]
  have hsame : world.store = Run.after execute initSchema earlier := by
    rw [hstore]
    apply after_eq_self
    rw [← hstore, hearlier]
  rw [← hsame] at hdecoded
  rw [hdecoded] at hserver
  obtain rfl : decoded = _ := Option.some.inj hserver
  exact hclient (hperm.mem_iff.mpr List.mem_cons_self)

end BlazeList
