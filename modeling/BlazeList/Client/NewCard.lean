import BlazeList.Client.Bursts
import BlazeList.Client.InFlight
import BlazeList.Client.TagDetail

/-!
# Saving a new card

A new card goes to its place among all cards. When there is no gap, the cards around the place are
shifted, and the versions go to the server in one batch. If the batch does not come through, only the
new card is pushed or queued: the shifted versions are on the screen and nowhere else.
-/

namespace BlazeList

inductive NewCardPosition where
  | top
  | bottom
  | above (refId : Uuid)
  | below (refId : Uuid)

structure Draft where
  id : Uuid
  content : String
  selectedTags : List Uuid
  dueDate : Option DateTime
  position : NewCardPosition

def NewCardPosition.insertPosition (cards : List Card) : NewCardPosition → InsertPosition
  | .top => .top
  | .bottom => .bottom
  | .above refId =>
      match cards.findIdx? fun card => card.id = refId with
      | some index => .at index
      | none => .bottom
  | .below refId =>
      match cards.findIdx? fun card => card.id = refId with
      | some index => .at (index + 1)
      | none => .bottom

/-- How far a save has come: its batch is on the way, or `push_card_or_queue` runs. -/
inductive SaveProgress where
  | batch (shiftedCards : List Card) (card : Card)
  | push (progress : Progress)

/-- A save, with the versions it has put on the screen, and those a version was accepted for. -/
structure Saving where
  client : ClientState
  progress : SaveProgress
  inserted : List Card
  accepted : List Card

/-- What an `await` comes back with: whether the client is connected by then, what the code reads from
outside, the answer, and whether the request reached the server if the connection was lost. -/
structure SaveEvent where
  connected : Bool
  env : Env
  answer : Answer
  reached : Bool

def SaveEvent.accepts (event : SaveEvent) : Bool :=
  match event.answer.intoRoot with
  | .ok _ => true
  | .error .connectionLost => event.reached
  | .error _ => false

section

variable [Blake3]

def Draft.card (draft : Draft) (tags : List Tag) (priority : I64) (now : DateTime) : Card :=
  Card.first draft.id draft.content priority
    ((TagGraph.fromTags tags).closureOf draft.selectedTags).toList false now draft.dueDate

def Saving.push (client : ClientState) (card : Card) (inserted : List Card) : Saving :=
  let (client, progress) := runJobs client [.pushCardOrQueue card]
  ⟨client, .push progress, inserted, []⟩

/-- The save of a new card up to its first `await`. A blank card is not saved. There is nothing to await
either when a shifted card is at the last count, where the source panics. -/
def ClientState.saveNew (client : ClientState) (draft : Draft) (env : Env) (shiftedAt : DateTime) :
    Option Saving :=
  if isBlank draft.content then
    none
  else
    let cards := byPriority client.cards
    match placeCard env.randomRange cards (draft.position.insertPosition cards) with
    | .simple priority =>
        let card := draft.card client.tags priority env.now
        some (.push (client.upsertCard card) card [card])
    | .rebalanced priority shifted =>
        let card := draft.card client.tags priority env.now
        (buildShiftedVersions shifted cards shiftedAt).map fun shiftedCards =>
          let client := (shiftedCards.foldl ClientState.upsertCard client).upsertCard card
          let inserted := shiftedCards ++ [card]
          if client.connected then ⟨client, .batch shiftedCards card, inserted, []⟩
          else .push client card inserted

def SaveProgress.sends : SaveProgress → List Card
  | .batch shiftedCards card => shiftedCards ++ [card]
  | .push (.waiting stage _) => stage.sends.map Prod.fst
  | .push .finished | .push .panicked => []

def Saving.resume (saving : Saving) (event : SaveEvent) : Saving :=
  let client := { saving.client with connected := event.connected }
  let accepted := if event.accepts then saving.accepted ++ saving.progress.sends else saving.accepted
  match saving.progress with
  | .batch _ card =>
      match event.answer.intoRoot with
      | .ok _ => { saving with client, progress := .push .finished, accepted }
      | .error _ => { Saving.push client card saving.inserted with accepted }
  | .push (.waiting stage jobs) =>
      let (client, progress) := advance event.env client stage jobs event.answer
      { saving with client, progress := .push progress, accepted }
  | .push .finished | .push .panicked => saving

end

/-- Every version on the screen has been accepted or is in the queue. -/
def Saving.Accounts (saving : Saving) : Prop :=
  ∀ version ∈ saving.inserted, version ∈ saving.accepted ∨ version ∈ saving.client.offlineQueue

instance (saving : Saving) : Decidable saving.Accounts :=
  inferInstanceAs (Decidable (∀ version ∈ saving.inserted,
    version ∈ saving.accepted ∨ version ∈ saving.client.offlineQueue))

def BatchAccepted (client : ClientState) (events : List SaveEvent) : Prop :=
  client.connected = true ∧ ∃ event ∈ events.head?, event.accepts = true

/-! ### Pushing the new card -/

inductive Stage.OnBehalf (cardId : Uuid) : Stage → Prop where
  | push {card : Card} (hcard : card.id = cardId) : OnBehalf cardId (.push card)
  | pushRebased {card rebased : Card} (hcard : card.id = cardId) :
      OnBehalf cardId (.pushRebased card rebased)
  | pushRecreated {card recreated : Card} (hcard : card.id = cardId)
      (hrecreated : recreated.id = cardId) : OnBehalf cardId (.pushRecreated card recreated)
  | saveEntry (entry : Card) (queue : List Card) : OnBehalf cardId (.saveEntry entry queue)
  | saveQueue (queue : List Card) : OnBehalf cardId (.saveQueue queue)
  | saveState (snapshot : LocalState) : OnBehalf cardId (.saveState snapshot)

def QueuedFor (cardId : Uuid) (queue : List Card) (client : ClientState) : Prop :=
  ∀ entry ∈ client.offlineQueue, entry.id = cardId ∨ entry ∈ queue

def NextFor (cardId : Uuid) (queue : List Card) (state : ClientState × Next) : Prop :=
  QueuedFor cardId queue state.1 ∧
    match state.2 with
    | .await stage jobs => stage.OnBehalf cardId ∧ jobs = []
    | .done jobs => jobs = []
    | .panic => True

def ProgressFor (cardId : Uuid) (queue : List Card) (state : ClientState × Progress) : Prop :=
  QueuedFor cardId queue state.1 ∧
    match state.2 with
    | .waiting stage jobs => stage.OnBehalf cardId ∧ jobs = []
    | .finished | .panicked => True

section

variable {cardId : Uuid} {queue : List Card} {client : ClientState}

theorem QueuedFor.queueCard (h : QueuedFor cardId queue client) {entry : Card}
    (hentry : entry.id = cardId) : QueuedFor cardId queue (BlazeList.queueCard client entry).1 := by
  intro other hother
  rcases mem_replaceCard.mp hother with ⟨hold, -⟩ | rfl
  · exact h other hold
  · exact .inl hentry

theorem NextFor.awaitQueued (h : QueuedFor cardId queue client) {entry : Card}
    (hentry : entry.id = cardId) : NextFor cardId queue (BlazeList.awaitQueued client entry) :=
  ⟨h.queueCard hentry, .saveEntry _ _, rfl⟩

theorem NextFor.clearQueuedCard (h : QueuedFor cardId queue client) (id : Uuid) :
    NextFor cardId queue (BlazeList.clearQueuedCard client id) := by
  unfold BlazeList.clearQueuedCard
  split
  · exact ⟨fun entry hentry => h entry (List.mem_of_mem_filter hentry), .saveQueue _, rfl⟩
  · exact ⟨h, rfl⟩

theorem NextFor.saveLocalState (h : QueuedFor cardId queue client) :
    NextFor cardId queue (BlazeList.saveLocalState client []) := by
  unfold BlazeList.saveLocalState
  split
  · exact ⟨h, rfl⟩
  · exact ⟨h, .saveState _, rfl⟩

theorem ProgressFor.of_pushCardOrQueue (h : QueuedFor cardId queue client) {card : Card}
    (hcard : card.id = cardId) : ProgressFor cardId queue (runJobs client [.pushCardOrQueue card]) := by
  unfold runJobs startJob pushCardOrQueue
  cases client.connected with
  | true => exact ⟨h, .push hcard, rfl⟩
  | false => exact ⟨h.queueCard hcard, .saveEntry _ _, rfl⟩

theorem ProgressFor.goOn {state : ClientState × Next} (h : NextFor cardId queue state) :
    ProgressFor cardId queue (BlazeList.goOn [] state) := by
  obtain ⟨client, next⟩ := state
  obtain ⟨hqueue, hnext⟩ := h
  cases next with
  | await stage jobs =>
      obtain ⟨hstage, rfl⟩ := hnext
      exact ⟨hqueue, hstage, rfl⟩
  | done jobs =>
      obtain rfl : jobs = [] := hnext
      exact ⟨hqueue, trivial⟩
  | panic => exact ⟨hqueue, trivial⟩

variable [Blake3]

/-- Whatever the answer, the task stays with its card. -/
theorem NextFor.resume (h : QueuedFor cardId queue client) {stage : Stage}
    (hstage : stage.OnBehalf cardId) (env : Env) (answer : Answer) :
    NextFor cardId queue (BlazeList.resume env client stage answer) := by
  cases hstage with
  | @push card hcard =>
      unfold BlazeList.resume afterPush
      dsimp only
      split
      · exact .clearQueuedCard h _
      · split
        · exact ⟨h, .pushRebased hcard, rfl⟩
        · exact ⟨h, trivial⟩
      · rw [rebuildCard_none]
        exact ⟨h, .pushRecreated hcard hcard, rfl⟩
      · exact .awaitQueued h hcard
  | @pushRebased card rebased hcard =>
      unfold BlazeList.resume afterRebased
      dsimp only
      split
      · have hafter : QueuedFor cardId queue (client.upsertCard rebased) := h
        exact .clearQueuedCard hafter _
      · exact .awaitQueued h hcard
  | @pushRecreated card recreated hcard hrecreated =>
      unfold BlazeList.resume afterRecreated
      dsimp only
      split
      · have hafter : QueuedFor cardId queue (client.upsertCard recreated) := h
        exact .clearQueuedCard hafter _
      · exact .awaitQueued h hrecreated
  | saveEntry entry saved =>
      have hafter : QueuedFor cardId queue
          { client with files := { client.files with queue := saved } } := h
      exact .saveLocalState hafter
  | saveQueue saved => exact ⟨h, rfl⟩
  | saveState snapshot => exact ⟨h, rfl⟩

omit [Blake3] in
theorem Stage.OnBehalf.sends {stage : Stage} (h : stage.OnBehalf cardId) :
    ∀ card ∈ stage.sends.map Prod.fst, card.id = cardId := by
  cases h <;> simp only [Stage.sends, List.map_cons, List.map_nil, List.mem_singleton, List.not_mem_nil,
    forall_eq, false_imp_iff, implies_true] <;> assumption

end

/-! ### The save -/

section

variable [Blake3] {cardId : Uuid} {queue : List Card}

structure Saving.Alone (cardId : Uuid) (queue : List Card) (saving : Saving) : Prop where
  accepted : ∀ card ∈ saving.accepted, card.id = cardId
  progress : ∃ progress, saving.progress = .push progress ∧
    ProgressFor cardId queue (saving.client, progress)

theorem Saving.Alone.resume {saving : Saving} (h : saving.Alone cardId queue) (event : SaveEvent) :
    (saving.resume event).Alone cardId queue := by
  obtain ⟨haccepted, progress, hprogress, hqueue, hstage⟩ := h
  unfold Saving.resume
  rw [hprogress]
  cases progress with
  | finished => exact ⟨haccepted, .finished, hprogress, hqueue, trivial⟩
  | panicked => exact ⟨haccepted, .panicked, hprogress, hqueue, trivial⟩
  | waiting stage jobs =>
      obtain ⟨hbehalf, rfl⟩ := hstage
      refine ⟨fun card hcard => ?_, _, rfl, ?_⟩
      · dsimp only at hcard
        split at hcard
        · rcases List.mem_append.mp hcard with hold | hnew
          · exact haccepted card hold
          · exact hbehalf.sends card hnew
        · exact haccepted card hcard
      · have hafter : QueuedFor cardId queue
            { saving.client with connected := event.connected } := hqueue
        exact .goOn (.resume hafter hbehalf event.env event.answer)

theorem Saving.Alone.run {saving : Saving} (h : saving.Alone cardId queue) (events : List SaveEvent) :
    (events.foldl Saving.resume saving).Alone cardId queue := by
  induction events generalizing saving with
  | nil => exact h
  | cons event rest ih => exact ih (h.resume event)

omit [Blake3] in
theorem Saving.alone_push {client : ClientState} {card : Card} (hcard : card.id = cardId)
    (hqueue : QueuedFor cardId queue client) (inserted : List Card) :
    (Saving.push client card inserted).Alone cardId queue :=
  ⟨fun _ hmem => absurd hmem List.not_mem_nil, _, rfl, .of_pushCardOrQueue hqueue hcard⟩

theorem Saving.inserted_resume (saving : Saving) (event : SaveEvent) :
    (saving.resume event).inserted = saving.inserted := by
  unfold Saving.resume
  dsimp only
  cases hprogress : saving.progress with
  | batch shiftedCards card => cases event.answer.intoRoot <;> rfl
  | push progress => cases progress <;> rfl

theorem Saving.inserted_run (saving : Saving) (events : List SaveEvent) :
    (events.foldl Saving.resume saving).inserted = saving.inserted := by
  induction events generalizing saving with
  | nil => rfl
  | cons event rest ih => rw [List.foldl_cons, ih, inserted_resume]

/-- Once everything is accepted it stays so. -/
theorem Saving.accepted_resume (saving : Saving) (event : SaveEvent) :
    ∀ card ∈ saving.accepted, card ∈ (saving.resume event).accepted := by
  intro version hversion
  unfold Saving.resume
  dsimp only
  have hmore : version ∈ if event.accepts then saving.accepted ++ saving.progress.sends
      else saving.accepted := by
    split
    · exact List.mem_append_left _ hversion
    · exact hversion
  cases hprogress : saving.progress with
  | batch shiftedCards card =>
      rw [hprogress] at hmore
      cases event.answer.intoRoot with
      | ok root => exact hmore
      | error error => exact hmore
  | push progress =>
      rw [hprogress] at hmore
      cases progress with
      | waiting stage jobs => exact hmore
      | finished => exact hversion
      | panicked => exact hversion

theorem Saving.accepted_run (saving : Saving) (events : List SaveEvent) :
    ∀ card ∈ saving.accepted, card ∈ (events.foldl Saving.resume saving).accepted := by
  induction events generalizing saving with
  | nil => exact fun card hcard => hcard
  | cons event rest ih =>
      exact fun card hcard => ih (saving.resume event) card (saving.accepted_resume event card hcard)

omit [Blake3] in
/-- A version of another card that was not in the queue before is lost. -/
theorem Saving.Alone.not_accounts {saving : Saving} (h : saving.Alone cardId queue) {version : Card}
    (hshown : version ∈ saving.inserted) (hid : version.id ≠ cardId) (hnew : version ∉ queue) :
    ¬ saving.Accounts := by
  obtain ⟨haccepted, progress, -, hqueued, -⟩ := h
  intro haccounts
  rcases haccounts version hshown with hmem | hmem
  · exact hid (haccepted version hmem)
  · rcases hqueued version hmem with hself | hold
    · exact hid hself
    · exact hnew hold

/-- The answer to the batch, when the server has accepted it. -/
theorem Saving.accepted_batch (client : ClientState) (shiftedCards inserted : List Card) (card : Card)
    {event : SaveEvent} (haccepts : event.accepts = true) :
    ∀ version ∈ shiftedCards ++ [card],
      version ∈ (Saving.resume ⟨client, .batch shiftedCards card, inserted, []⟩ event).accepted := by
  intro version hversion
  unfold Saving.resume
  dsimp only
  rw [if_pos haccepts]
  cases event.answer.intoRoot with
  | ok root => exact List.mem_append_right _ hversion
  | error error => exact List.mem_append_right _ hversion

/-- The answer to the batch, when the server has not accepted it: the new card is pushed alone. -/
theorem Saving.alone_batch {client : ClientState} {card : Card} (hcard : card.id = cardId)
    (hqueue : QueuedFor cardId queue client) (shiftedCards inserted : List Card) {event : SaveEvent}
    (hrefused : event.accepts = false) :
    (Saving.resume ⟨client, .batch shiftedCards card, inserted, []⟩ event).Alone cardId queue := by
  have hafter : QueuedFor cardId queue { client with connected := event.connected } := hqueue
  have hnone : (if event.accepts then [] ++ (shiftedCards ++ [card]) else []) = [] :=
    if_neg (ne_true_of_eq_false hrefused)
  unfold Saving.resume
  dsimp only [SaveProgress.sends]
  rw [hnone]
  cases event.answer.intoRoot with
  | ok root =>
      exact ⟨fun _ hmem => absurd hmem List.not_mem_nil, .finished, rfl, hafter, trivial⟩
  | error error =>
      exact ⟨fun _ hmem => absurd hmem List.not_mem_nil,
        (Saving.alone_push hcard hafter inserted).progress⟩

variable {client : ClientState} {draft : Draft} {env : Env} {shiftedAt : DateTime} {saving : Saving}

omit [Blake3] in
/-- A rebalance shifts a card at least. -/
theorem shifted_ne_nil {randomRange : Int → Int} {cards : List Card} {position : InsertPosition}
    {priority : I64} {shifted : List (Uuid × I64)}
    (h : placeCard randomRange cards position = .rebalanced priority shifted) : shifted ≠ [] := by
  unfold placeCard at h
  dsimp only at h
  unfold tryPlace at h
  split at h
  · cases h
  · unfold rebalance at h
    split at h
    · cases h
    · extract_lets at h
      split at h
      · cases h
      · rename_i hsome
        obtain ⟨-, rfl⟩ := Placement.rebalanced.inj h
        exact fun hnil => hsome (List.isEmpty_iff.mpr hnil)

/-- What a rebalancing save starts with. -/
theorem ClientState.saveNew_spec (hids : (client.cards.map Card.id).Nodup) {priority : I64}
    {shifted : List (Uuid × I64)}
    (hplacement : placeCard env.randomRange (byPriority client.cards)
      (draft.position.insertPosition (byPriority client.cards)) = .rebalanced priority shifted)
    (h : client.saveNew draft env shiftedAt = some saving) :
    ∃ shiftedCards card, shiftedCards ≠ [] ∧ card.id = draft.id ∧
      (∀ version ∈ shiftedCards, ∃ base ∈ client.cards, version.id = base.id ∧
        version.count.val = base.count.val + 1) ∧
      saving.inserted = shiftedCards ++ [card] ∧
      ∃ after : ClientState, after.offlineQueue = client.offlineQueue ∧
        saving = if client.connected then ⟨after, .batch shiftedCards card, shiftedCards ++ [card], []⟩
          else .push after card (shiftedCards ++ [card]) := by
  unfold ClientState.saveNew at h
  split at h
  · cases h
  · dsimp only at h
    rw [hplacement] at h
    obtain ⟨shiftedCards, hbuilt, rfl⟩ := Option.map_eq_some_iff.mp h
    have hperm : (byPriority client.cards).Perm client.cards := List.orderBy_perm _ _
    have hnodup : ((byPriority client.cards).map Card.id).Nodup :=
      (hperm.map Card.id).nodup_iff.mpr hids
    have hknown : ∀ write ∈ shifted, ∃ card ∈ byPriority client.cards, card.id = write.1 := by
      intro write hwrite
      obtain ⟨moved, hsub, hkeys⟩ := tryPlace_shifted env.randomRange (byPriority client.cards) _ _ _
      have hmem : write.1 ∈ (placeCard env.randomRange (byPriority client.cards)
          (draft.position.insertPosition (byPriority client.cards))).shifted.map Prod.fst := by
        rw [hplacement]
        exact List.mem_map.mpr ⟨write, hwrite, rfl⟩
      unfold placeCard at hmem
      dsimp only at hmem
      rw [hkeys] at hmem
      obtain ⟨card, hcard, hid⟩ := List.mem_map.mp hmem
      exact ⟨card, hsub.subset hcard, hid⟩
    obtain ⟨hwrites, hnexts⟩ := buildShiftedVersions_spec hnodup hknown hbuilt
    refine ⟨shiftedCards, draft.card client.tags priority env.now, ?_, rfl, ?_, ?_,
      (shiftedCards.foldl ClientState.upsertCard client).upsertCard
        (draft.card client.tags priority env.now), ?_, ?_⟩
    · rintro rfl
      exact shifted_ne_nil hplacement hwrites.symm
    · intro version hversion
      obtain ⟨base, hbase, next, hnext⟩ := hnexts version hversion
      obtain ⟨-, hid, -, -, -, -, -, -, -, hcount, -⟩ := Card.next_eq_some_iff.mp hnext
      exact ⟨base, hperm.mem_iff.mp hbase, hid, hcount⟩
    · split
      · rfl
      · rfl
    · rw [foldl_upsertCard]
      rfl
    · rw [foldl_upsertCard]
      rfl

/-- **No version on the screen is left behind** by a save that rebalances, whatever its requests come
back with, exactly when the batch is sent and accepted. -/
theorem saveNew_accounts_iff (hids : (client.cards.map Card.id).Nodup)
    (hnew : ∀ card ∈ client.cards, card.id ≠ draft.id)
    (hqueue : ∀ entry ∈ client.offlineQueue, ∀ card ∈ client.cards, entry.id = card.id →
      entry.count.val ≤ card.count.val)
    {priority : I64} {shifted : List (Uuid × I64)}
    (hplacement : placeCard env.randomRange (byPriority client.cards)
      (draft.position.insertPosition (byPriority client.cards)) = .rebalanced priority shifted)
    (hsave : client.saveNew draft env shiftedAt = some saving) (events : List SaveEvent) :
    (events.foldl Saving.resume saving).Accounts ↔ BatchAccepted client events := by
  obtain ⟨shiftedCards, card, hne, hcard, hversions, hinserted, after, hafter, hstart⟩ :=
    ClientState.saveNew_spec hids hplacement hsave
  obtain ⟨version, hversion⟩ := List.exists_mem_of_ne_nil shiftedCards hne
  obtain ⟨base, hbase, hid, hcount⟩ := hversions version hversion
  have hshown : version ∈ (events.foldl Saving.resume saving).inserted := by
    rw [Saving.inserted_run, hinserted]
    exact List.mem_append_left _ hversion
  have hother : version.id ≠ draft.id := hid ▸ hnew base hbase
  have hunqueued : version ∉ client.offlineQueue := by
    intro hold
    have := hqueue version hold base hbase hid
    omega
  have hfor : QueuedFor draft.id client.offlineQueue after := fun _ hentry => .inr (hafter ▸ hentry)
  cases hconnected : client.connected with
  | false =>
      rw [hconnected, if_neg Bool.false_ne_true] at hstart
      have halone : saving.Alone draft.id client.offlineQueue := by
        rw [hstart]
        exact Saving.alone_push hcard hfor _
      exact iff_of_false ((halone.run events).not_accounts hshown hother hunqueued) fun h =>
        Bool.false_ne_true (hconnected.symm.trans h.1)
  | true =>
      rw [hconnected, if_pos rfl] at hstart
      subst hstart
      cases events with
      | nil =>
          refine iff_of_false (fun haccounts => ?_) fun ⟨_, _, hevent, _⟩ => by cases hevent
          rcases haccounts version hshown with hmem | hmem
          · exact absurd hmem List.not_mem_nil
          · exact hunqueued (hafter ▸ hmem)
      | cons event rest =>
          cases haccepts : event.accepts with
          | true =>
              refine iff_of_true (fun shown hmem => .inl ?_) ⟨hconnected, event, rfl, haccepts⟩
              rw [Saving.inserted_run] at hmem
              exact Saving.accepted_run _ rest shown (Saving.accepted_batch _ _ _ _ haccepts shown hmem)
          | false =>
              have halone := Saving.alone_batch hcard hfor shiftedCards (shiftedCards ++ [card]) haccepts
              refine iff_of_false ((halone.run rest).not_accounts hshown hother hunqueued) ?_
              rintro ⟨-, other, hother, htaken⟩
              obtain rfl : event = other := Option.some.inj hother
              exact Bool.false_ne_true (haccepts.symm.trans htaken)

end

/-! ### Samples -/

def sampleDraft : Draft := ⟨9, "new", [], none, .above 2⟩

def lostEvent : SaveEvent := ⟨true, sampleEnv, .error .connectionLost, false⟩

theorem saveNew_accounts_iff_accepted :
    ∃ saving, @ClientState.saveNew polynomialBlake3 (sampleClient wideCards []) sampleDraft sampleEnv
        .epoch = some saving ∧
      ([⟨true, sampleEnv, .ok (.root .empty), false⟩].foldl (@Saving.resume polynomialBlake3)
        saving).Accounts := by
  let _ := polynomialBlake3
  obtain ⟨saving, hsave⟩ := Option.isSome_iff_exists.mp (show (ClientState.saveNew
    (sampleClient wideCards []) sampleDraft sampleEnv .epoch).isSome by decide +kernel)
  have hplacement : placeCard sampleEnv.randomRange (byPriority wideCards)
      (sampleDraft.position.insertPosition (byPriority wideCards)) =
      .rebalanced ⟨1844674407370955161, by decide⟩ [(3, ⟨5534023222112865484, by decide⟩),
        (2, ⟨-1844674407370955162, by decide⟩), (1, ⟨-5534023222112865485, by decide⟩)] := by
    decide +kernel
  have hids : ((sampleClient wideCards []).cards.map Card.id).Nodup := by decide +kernel
  exact ⟨saving, hsave, (saveNew_accounts_iff hids (by decide +kernel)
    (fun _ hmem => absurd hmem List.not_mem_nil) hplacement hsave _).mpr ⟨rfl, _, rfl, rfl⟩⟩

def Saving.finished (saving : Saving) : Bool :=
  match saving.progress with
  | .push .finished => true
  | _ => false

/-- The batch is lost, the push of the new card as well, and the new card is queued: the three shifted
cards are neither with the server nor in the queue when the save is over. -/
theorem not_saveNew_accounts_lost :
    let _ := polynomialBlake3
    ∃ after ∈ ((sampleClient wideCards []).saveNew sampleDraft sampleEnv .epoch).map
        ([lostEvent, lostEvent, lostEvent].foldl Saving.resume),
      after.finished = true ∧ after.accepted = [] ∧ after.client.offlineQueue.map Card.id = [9] ∧
        (after.inserted.map fun version => (version.id, version.count.val)) =
          [(3, 2), (2, 2), (1, 2), (9, 1)] ∧
        (∀ version ∈ after.inserted, version ∈ after.client.cards) ∧ ¬ after.Accounts := by
  decide +kernel

end BlazeList
