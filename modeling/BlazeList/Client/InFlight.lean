import BlazeList.Client.Network

/-!
# Versions on their way

What a request sends stands for local versions of the client: each version is the local one itself, or
was built from its fields on a version that the server has had. The server accepts the versions of a
request one after the other, each on top of the one it names as its ancestor.
-/

namespace BlazeList

/-! ### What a request sends -/

/-- The versions a point sends, each after the local version it stands for. -/
def Stage.sends : Stage → List (Card × Card)
  | .push card => [(card, card)]
  | .pushRebased card version | .pushRecreated card version => [(card, version)]
  | .pushBatch primary siblings => (primary :: siblings).map fun card => (card, card)
  | .flush _ card stage =>
      match stage with
      | .push => [(card, card)]
      | .fetch _ => []
      | .retry version | .rebased version | .recreated version => [(card, version)]
      | .batch shifted version => (shifted.map fun card => (card, card)) ++ [(card, version)]
  | .getChanges _ _ | .clearHistoryCache | .saveEntry _ _ | .saveQueue _ | .saveRemaining _ _
  | .saveState _ => []

/-- The local versions of a request. -/
def Stage.pending : Stage → List Card
  | .push card | .pushRebased card _ | .pushRecreated card _ | .flush _ card _ => [card]
  | .pushBatch primary siblings => primary :: siblings
  | _ => []

/-- The local versions a flush comes to later. -/
def Stage.later : Stage → List Card
  | .flush loop _ _ => loop.remaining ++ loop.rest
  | _ => []

/-- A version for a local one is accepted on top of what the server had. -/
structure Acceptance where
  entry : Card
  version : Card
  before : Option Card

def acceptances (current : Uuid → Option Card) : List (Card × Card) → List Acceptance
  | [] => []
  | (entry, version) :: rest =>
      ⟨entry, version, current version.id⟩ ::
        acceptances (Function.update current version.id (some version)) rest

/-- The client learns the root from its pushes and syncs. -/
theorem request_ne_getRoot (stage : Stage) : stage.request? ≠ some .getRoot := by
  cases stage with
  | flush loop card stage => cases stage <;> exact fun h => by cases h
  | getChanges root jobs => cases root <;> exact fun h => by cases h
  | _ => exact fun h => by cases h

theorem request_sends {stage : Stage} {request : Request} (h : stage.request? = some request) :
    stage.sends = [] ∧ request.mutation? = none ∨
      stage.sends ≠ [] ∧ request.Sends (stage.sends.map Prod.snd) := by
  have hdirect : ∀ cards : List Card, (cards.map fun card => (card, card)).map Prod.snd = cards := by
    intro cards
    rw [List.map_map]
    exact List.map_id cards
  cases stage with
  | push card =>
      cases h
      exact .inr ⟨List.cons_ne_nil _ _, sends_single card⟩
  | pushRebased card version =>
      cases h
      exact .inr ⟨List.cons_ne_nil _ _, sends_single version⟩
  | pushRecreated card version =>
      cases h
      exact .inr ⟨List.cons_ne_nil _ _, sends_single version⟩
  | pushBatch primary siblings =>
      cases h
      refine .inr ⟨List.cons_ne_nil _ _, ?_⟩
      rw [Stage.sends, hdirect]
      exact sends_batch (primary :: siblings)
  | flush loop card stage =>
      cases stage with
      | push =>
          cases h
          exact .inr ⟨List.cons_ne_nil _ _, sends_single card⟩
      | fetch cards =>
          cases h
          exact .inl ⟨rfl, rfl⟩
      | retry version =>
          cases h
          exact .inr ⟨List.cons_ne_nil _ _, sends_single version⟩
      | rebased version =>
          cases h
          exact .inr ⟨List.cons_ne_nil _ _, sends_single version⟩
      | recreated version =>
          cases h
          exact .inr ⟨List.cons_ne_nil _ _, sends_single version⟩
      | batch shifted version =>
          cases h
          refine .inr ⟨List.append_ne_nil_of_right_ne_nil _ (List.cons_ne_nil _ _), ?_⟩
          have hbatch := sends_batch (shifted ++ [version])
          rw [singles, List.map_append] at hbatch
          rw [Stage.sends, List.map_append, hdirect]
          exact hbatch
  | getChanges root recovering =>
      cases h
      refine .inl ⟨rfl, ?_⟩
      cases root <;> rfl
  | _ => cases h

section

variable [Blake3]

def Stage.accepted (store : Store) (now : Int) (stage : Stage) : List Acceptance :=
  match stage.request?.map fun request => (handleRequest store now request).2 with
  | some (.root _) => acceptances store.cards.current stage.sends
  | _ => []

def Network.accepted (net : Network) : NetworkStep → List Acceptance
  | .handle task now => ((net.open? task).map (Stage.accepted net.store now)).getD []
  | _ => []

/-- The versions of a request are accepted together, or none of them is. -/
theorem handle_cases {stage : Stage} {request : Request} (store : Store) (now : Int)
    (hrequest : stage.request? = some request) :
    stage.sends ≠ [] ∧ Accepts store (stage.sends.map Prod.snd) (handleRequest store now request).1 ∧
        stage.accepted store now = acceptances store.cards.current stage.sends ∨
      (handleRequest store now request).1 = store ∧ stage.accepted store now = [] ∧
        ∀ root, (handleRequest store now request).2 ≠ .root root := by
  unfold Stage.accepted
  rw [hrequest, Option.map_some]
  rcases request_sends hrequest with ⟨hnil, hread⟩ | ⟨hne, hsends⟩
  · refine .inr ⟨handleRequest_read hread, ?_, ?_⟩
    · rw [hnil]
      split <;> rfl
    · intro root
      cases request with
      | getCard id =>
          unfold handleRequest
          dsimp only
          split <;> exact fun h => by cases h
      | getChangesSince sequence rootHash =>
          unfold handleRequest
          dsimp only
          split <;> exact fun h => by cases h
      | subscribe => exact fun h => by cases h
      | getRoot => exact absurd hrequest (request_ne_getRoot stage)
      | pushCardVersions versions => cases hread
      | deleteCard id => cases hread
      | pushTagVersions versions => cases hread
      | deleteTag id => cases hread
      | pushBatch items => cases hread
  · have hmap : stage.sends.map Prod.snd ≠ [] := fun hnil => hne (List.map_eq_nil_iff.mp hnil)
    rcases handleRequest_sends store now hsends hmap with ⟨haccepts, root, hroot⟩ | ⟨hsame, error, herror⟩
    · rw [hroot]
      exact .inl ⟨hne, haccepts, rfl⟩
    · rw [herror]
      exact .inr ⟨hsame, rfl, fun root h => by cases h⟩

/-! ### Accepted versions -/

section

variable {store written after : Store} {pairs : List (Card × Card)}

theorem Writes.linked (h : Writes store (singles (pairs.map Prod.snd)) written) :
    ∀ acceptance ∈ acceptances store.cards.current pairs,
      acceptance.version.ancestorHash = (acceptance.before.map Card.hash).getD zeroHash := by
  induction pairs generalizing store with
  | nil => exact fun _ hnil => absurd hnil List.not_mem_nil
  | cons pair rest ih =>
      obtain ⟨next, hpush, hrest⟩ := writes_cons.mp h
      obtain ⟨cards, hpushed, rfl⟩ := pushSingle_eq_ok_iff.mp hpush
      rintro acceptance hacceptance
      rcases List.mem_cons.mp hacceptance with rfl | hlater
      · exact hpushed.ancestor
      · have hrest' := ih hrest acceptance
        rw [hpushed.current] at hrest'
        exact hrest' hlater

/-- Each version builds on the one it replaces. -/
theorem Accepts.linked (h : Accepts store (pairs.map Prod.snd) after) :
    ∀ acceptance ∈ acceptances store.cards.current pairs,
      acceptance.version.ancestorHash = (acceptance.before.map Card.hash).getD zeroHash := by
  obtain ⟨now, written, hcommitted⟩ := h
  exact hcommitted.writes.linked

theorem Writes.versions_rows {versions : List Card} (h : Writes store (singles versions) written) :
    written.cards.versions.rows =
      store.cards.versions.rows ++ versions.map fun version => ⟨version, 0⟩ := by
  induction versions generalizing store with
  | nil =>
      obtain rfl := writes_nil.mp h
      rw [List.map_nil, List.append_nil]
  | cons version rest ih =>
      obtain ⟨next, hpush, hrest⟩ := writes_cons.mp h
      obtain ⟨cards, hpushed, rfl⟩ := pushSingle_eq_ok_iff.mp hpush
      rw [ih hrest]
      dsimp only
      rw [hpushed.versions_rows, List.append_assoc]
      rfl

/-- What is in the history of its card is not accepted again. -/
theorem Accepts.fresh {versions : List Card} (h : Accepts store versions after) {version : Card}
    (hversion : version ∈ versions) : version ∉ store.cards.lineage version.id := by
  intro hlineage
  obtain ⟨now, written, hcommitted⟩ := h
  obtain ⟨row, hrow, hentity, -⟩ := EntityTables.mem_lineage.mp hlineage
  have hunique := written.cards.versions.unique
  rw [hcommitted.writes.versions_rows, List.pairwise_append] at hunique
  exact hunique.2.2 row hrow ⟨version, 0⟩ (List.mem_map_of_mem hversion)
    (by rw [versionConflict, hentity]; exact ⟨rfl, rfl⟩)

omit [Blake3] in
theorem applyAll_acceptances {current : Uuid → Option Card} {id : Uuid} {good : Option Card → Prop}
    (hgood : good (current id))
    (hstep : ∀ acceptance ∈ acceptances current pairs, acceptance.version.id = id →
      good acceptance.before → good (some acceptance.version)) :
    good (Overlay.applyAll current ((pairs.map Prod.snd).map versionWrite) id) := by
  induction pairs generalizing current with
  | nil => exact hgood
  | cons pair rest ih =>
      rw [List.map_cons, List.map_cons, Overlay.applyAll_cons]
      refine ih ?_ fun acceptance hacceptance => hstep acceptance (List.mem_cons_of_mem _ hacceptance)
      rw [Overlay.apply, versionWrite]
      by_cases hid : id = pair.2.id
      · rw [hid, Function.update_self]
        exact hstep _ List.mem_cons_self hid.symm (hid ▸ hgood)
      · rwa [Function.update_of_ne hid]

/-- What each accepted version of a card keeps, the request keeps. -/
theorem Accepts.current_induction (h : Accepts store (pairs.map Prod.snd) after) {id : Uuid}
    {good : Option Card → Prop} (hgood : good (store.cards.current id))
    (hstep : ∀ acceptance ∈ acceptances store.cards.current pairs, acceptance.version.id = id →
      good acceptance.before → good (some acceptance.version)) : good (after.cards.current id) := by
  rw [h.current]
  exact applyAll_acceptances hgood hstep

end

omit [Blake3] in
theorem mem_sends_of_acceptance {current : Uuid → Option Card} {pairs : List (Card × Card)}
    {acceptance : Acceptance} (h : acceptance ∈ acceptances current pairs) :
    (acceptance.entry, acceptance.version) ∈ pairs := by
  induction pairs generalizing current with
  | nil => cases h
  | cons pair rest ih =>
      rcases List.mem_cons.mp h with rfl | hlater
      · exact List.mem_cons_self
      · exact List.mem_cons_of_mem pair (ih hlater)

end

def Task.sends : Task → List (Card × Card)
  | .waiting stage _ _ | .orphaned stage => stage.sends
  | .started _ | .finished | .panicked => []

/-! ### Where a version comes from -/

/-- What is sent for a local version is that version, or was built from its fields, on nothing or on a version of the
server that `base` relates to it. -/
def Rebuilds (base : Card → Card → Prop) (entry version : Card) : Prop :=
  version = entry ∨ version.id = entry.id ∧ version.fields = entry.fields ∧
    (version.ancestorHash = zeroHash ∨ ∃ ancestor, base entry ancestor ∧
      version.ancestorHash = ancestor.hash ∧ version.id = ancestor.id ∧ version.createdAt = ancestor.createdAt)

def Stage.Built (base : Card → Card → Prop) (stage : Stage) : Prop :=
  ∀ pair ∈ stage.sends, Rebuilds base pair.1 pair.2

def Response.card? : Response → Option Card
  | .card server | .error (.pushFailed (.cardAncestorMismatch server)) => some server
  | _ => none

/-- The local version that is built anew on the server's card in an answer. -/
def Stage.asked? : Stage → Option Card
  | .push card | .flush _ card .push | .flush _ card (.fetch _) => some card
  | _ => none

def Task.asked? : Task → Option Card
  | .waiting stage _ none => stage.asked?
  | .started _ | .waiting _ _ (some _) | .finished | .panicked | .orphaned _ => none

def Stage.Answered (base : Card → Card → Prop) (stage : Stage) (response : Response) : Prop :=
  ∀ entry ∈ stage.asked?, ∀ card ∈ response.card?, card.id = entry.id ∧ base entry card

def Task.Built (base : Card → Card → Prop) : Task → Prop
  | .waiting stage _ answer => stage.Built base ∧ ∀ response ∈ answer, stage.Answered base response
  | .orphaned stage => stage.Built base
  | .started _ | .finished | .panicked => True

section

variable {base other : Card → Card → Prop} {entry version : Card}

theorem Rebuilds.id (h : Rebuilds base entry version) : version.id = entry.id := by
  rcases h with rfl | ⟨hid, -⟩
  · rfl
  · exact hid

theorem Rebuilds.fields (h : Rebuilds base entry version) : version.fields = entry.fields := by
  rcases h with rfl | ⟨-, hfields, -⟩
  · rfl
  · exact hfields

theorem Rebuilds.mono (h : Rebuilds base entry version)
    (himp : ∀ ancestor, base entry ancestor → other entry ancestor) : Rebuilds other entry version := by
  refine h.imp_right (And.imp_right (And.imp_right (Or.imp_right ?_)))
  rintro ⟨ancestor, hancestor, horigin⟩
  exact ⟨ancestor, himp ancestor hancestor, horigin⟩

theorem Stage.Answered.mono {stage : Stage} {response : Response} (h : stage.Answered base response)
    (himp : ∀ entry ancestor, base entry ancestor → other entry ancestor) : stage.Answered other response :=
  fun entry hentry card hcard => (h entry hentry card hcard).imp_right (himp entry card)

theorem Task.Built.mono {task : Task} (h : task.Built base)
    (himp : ∀ entry ancestor, base entry ancestor → other entry ancestor) : task.Built other := by
  cases task with
  | waiting stage jobs answer =>
      exact ⟨fun pair hpair => (h.1 pair hpair).mono (himp pair.1),
        fun response hresponse => (h.2 response hresponse).mono himp⟩
  | orphaned stage => exact fun pair hpair => (h pair hpair).mono (himp pair.1)
  | started work => trivial
  | finished => trivial
  | panicked => trivial

theorem Task.built_of_idle {base : Card → Card → Prop} {task : Task} (h : task.idle = true) :
    task.Built base := by
  cases task with
  | waiting stage jobs answer => cases h
  | orphaned stage => cases h
  | started work => trivial
  | finished => trivial
  | panicked => trivial

theorem Task.built_waiting {stage : Stage} (h : stage.Built base) (jobs : List Job) :
    (Task.waiting stage jobs none).Built base :=
  ⟨h, fun _ hnone => by cases hnone⟩

/-- A point that only sends versions as they are. -/
theorem Stage.built_of_direct {stage : Stage} (h : ∀ pair ∈ stage.sends, pair.2 = pair.1) :
    stage.Built base :=
  fun pair hpair => .inl (h pair hpair)

end

section

variable {base : Card → Card → Prop} {client : ClientState} {card version : Card}

theorem built_single {stage : Stage} (hsends : stage.sends = [(card, version)])
    (h : Rebuilds base card version) : stage.Built base := by
  intro pair hpair
  rw [hsends, List.mem_singleton] at hpair
  rw [hpair]
  exact h

theorem built_pushCardOrQueue (client : ClientState) (card : Card) :
    (pushCardOrQueue client card).2.Built base := by
  unfold pushCardOrQueue
  split
  · exact built_single rfl (.inl rfl)
  · exact fun _ hpair => by cases hpair

theorem built_startJob {stage : Stage} {jobs : List Job} {job : Job}
    (h : (startJob client job).2 = some (stage, jobs)) : stage.Built base := by
  cases job with
  | pushCardOrQueue card =>
      cases h
      exact built_pushCardOrQueue client card
  | pushBurst primary siblings =>
      unfold startJob pushBurst at h
      dsimp only at h
      split at h
      · cases h
        exact built_pushCardOrQueue client primary
      · cases h
        refine Stage.built_of_direct fun pair hpair => ?_
        obtain ⟨card, -, rfl⟩ := List.mem_map.mp hpair
        rfl
  | flushOfflineQueue =>
      unfold startJob flushOfflineQueue at h
      dsimp only at h
      split at h
      · cases h
      · split at h
        · cases h
          exact fun _ hpair => by cases hpair
        · cases h
          exact built_single rfl (.inl rfl)
  | incrementalSync =>
      cases h
      exact fun _ hpair => by cases hpair
  | recoverySync =>
      cases h
      exact fun _ hpair => by cases hpair

theorem built_runJobs (client : ClientState) (jobs : List Job) :
    (runJobs client jobs).2.task.Built base := by
  induction jobs generalizing client with
  | nil => trivial
  | cons job rest ih =>
      unfold runJobs
      split
      · rename_i after stage jobs hstart
        exact Task.built_waiting (built_startJob (congrArg Prod.snd hstart)) _
      · exact ih _

def Next.Built (base : Card → Card → Prop) : Next → Prop
  | .await stage _ => stage.Built base
  | .done _ | .panic => True

theorem Next.Built.goOn {state : ClientState × Next} (h : state.2.Built base) (jobs : List Job) :
    (goOn jobs state).2.task.Built base := by
  obtain ⟨client, next⟩ := state
  cases next with
  | await stage more => exact Task.built_waiting h _
  | done more => exact built_runJobs client _
  | panic => trivial

theorem built_saveLocalState (client : ClientState) (jobs : List Job) :
    (saveLocalState client jobs).2.Built base := by
  unfold saveLocalState
  split
  · trivial
  · exact fun _ hpair => by cases hpair

theorem built_clearQueuedCard (client : ClientState) (cardId : Uuid) :
    (clearQueuedCard client cardId).2.Built base := by
  unfold clearQueuedCard
  dsimp only
  split
  · exact fun _ hpair => by cases hpair
  · trivial

theorem built_awaitQueued (client : ClientState) (entry : Card) :
    (awaitQueued client entry).2.Built base :=
  fun _ hpair => by cases hpair

theorem built_continueFlush (client : ClientState) (loop : FlushLoop) (kept : Option Card)
    (hitConnectionError : Bool) : (continueFlush client loop kept hitConnectionError).2.Built base := by
  unfold continueFlush
  dsimp only
  split
  · exact fun _ hpair => by cases hpair
  · split
    · exact fun _ hpair => by cases hpair
    · exact built_single rfl (.inl rfl)

theorem built_afterRetry (client accepted : ClientState) (loop : FlushLoop) (entry : Card)
    (answer : Answer) : (afterRetry client accepted loop entry answer).2.Built base := by
  unfold afterRetry
  split <;> exact built_continueFlush ..

theorem built_afterChanges (root : Option RootState) (recovering : Bool) (answer : Answer) :
    (afterChanges client root recovering answer).2.Built base := by
  unfold afterChanges
  split
  · exact built_saveLocalState ..
  · exact built_saveLocalState ..
  · exact fun _ hpair => by cases hpair
  · trivial

def Answer.Shows (base : Card → Card → Prop) (entry : Card) (answer : Answer) : Prop :=
  ∀ server, answer.intoRoot = .error (.protocol (.pushFailed (.cardAncestorMismatch server))) ∨
    answer.intoCard = .ok server → server.id = entry.id ∧ base entry server

theorem Stage.Answered.shows {stage : Stage} {response : Response}
    (h : stage.Answered base response) (hasked : stage.asked? = some entry) :
    Answer.Shows base entry (.ok response) := by
  intro server hserver
  apply h entry hasked server
  rcases hserver with hmismatch | hcard
  · cases response with
    | error error =>
        cases hmismatch
        exact Option.mem_def.mpr rfl
    | _ => cases hmismatch
  · cases response with
    | card card =>
        cases hcard
        exact Option.mem_def.mpr rfl
    | _ => cases hcard

theorem Answer.shows_lost (entry : Card) : Answer.Shows base entry (.error .connectionLost) := by
  intro server hserver
  rcases hserver with hmismatch | hcard
  · cases hmismatch
  · cases hcard

variable [Blake3] {env : Env} {loop : FlushLoop}

theorem rebuilds_of_rebuildCard {priority : I64} {ancestor : Option Card}
    (hancestor : ∀ server ∈ ancestor, server.id = card.id ∧ base card server)
    (h : rebuildCard env.now card priority ancestor = some version) :
    Rebuilds base card version := by
  have hrebuilt := rebuilt_of_rebuildCard h
  cases ancestor with
  | none => exact .inr ⟨hrebuilt.id, hrebuilt.fields, .inl hrebuilt.ancestorHash⟩
  | some server =>
      obtain ⟨hid, hserver⟩ := hancestor server rfl
      refine .inr ⟨hrebuilt.id.trans hid, hrebuilt.fields,
        .inr ⟨server, hserver, hrebuilt.ancestorHash, hrebuilt.id, ?_⟩⟩
      obtain ⟨-, -, -, -, -, -, hcreated, -⟩ := Card.next_eq_some_iff.mp h
      exact hcreated

theorem rebuilds_recreated : Rebuilds base card card.recreated :=
  .inr ⟨(recreated_rebuilt card).id, (recreated_rebuilt card).fields,
    .inl (recreated_rebuilt card).ancestorHash⟩

theorem built_placeQueued {cards : List Card} {ancestor : Option Card}
    (hancestor : ∀ server ∈ ancestor, server.id = card.id ∧ base card server) :
    (placeQueued env client loop card cards ancestor).2.Built base := by
  unfold placeQueued
  split
  · split
    · rename_i retry hretry
      exact built_single rfl (rebuilds_of_rebuildCard hancestor hretry)
    · trivial
  · split
    · rename_i retry shifted hretry hshifted
      intro pair hpair
      rcases List.mem_append.mp hpair with hdirect | hsingle
      · obtain ⟨sibling, -, rfl⟩ := List.mem_map.mp hdirect
        exact .inl rfl
      · rw [List.mem_singleton.mp hsingle]
        exact rebuilds_of_rebuildCard hancestor hretry
    · trivial

theorem built_afterPush {answer : Answer} (h : answer.Shows base card) :
    (afterPush env client card answer).2.Built base := by
  unfold afterPush
  split
  · exact built_clearQueuedCard ..
  · rename_i server hmismatch
    split
    · rename_i rebased hrebased
      refine built_single rfl (rebuilds_of_rebuildCard (fun other hother => ?_) hrebased)
      cases hother
      exact h server (.inl hmismatch)
    · trivial
  · rw [rebuildCard_none]
    exact built_single rfl rebuilds_recreated
  · exact built_awaitQueued client _

theorem built_afterFlushPush {answer : Answer} (h : answer.Shows base card) :
    (afterFlushPush env client loop card answer).2.Built base := by
  unfold afterFlushPush
  split
  · exact built_continueFlush ..
  · exact built_continueFlush ..
  · dsimp only
    split
    · exact fun _ hpair => by cases hpair
    · exact built_placeQueued fun _ hnone => by cases hnone
  · rename_i server hmismatch
    split
    · rename_i rebased hrebased
      refine built_single rfl (rebuilds_of_rebuildCard (fun other hother => ?_) hrebased)
      cases hother
      exact h server (.inl hmismatch)
    · trivial
  · rw [rebuildCard_none]
    exact built_single rfl rebuilds_recreated
  · exact built_continueFlush ..
  · exact built_continueFlush ..

theorem built_resumeFlush {stage : FlushStage} {answer : Answer}
    (h : ∀ entry ∈ (Stage.flush loop card stage).asked?, answer.Shows base entry) :
    (resumeFlush env client loop card stage answer).2.Built base := by
  cases stage with
  | push => exact built_afterFlushPush (h card rfl)
  | fetch cards =>
      unfold resumeFlush
      dsimp only
      split
      · rename_i server hserver
        refine built_placeQueued fun other hother => ?_
        cases hother
        exact h card rfl server (.inr hserver)
      · exact built_continueFlush ..
      · exact built_continueFlush ..
  | retry version => exact built_afterRetry ..
  | batch shifted version => exact built_afterRetry ..
  | rebased version =>
      unfold resumeFlush
      dsimp only
      split <;> exact built_continueFlush ..
  | recreated version => exact built_afterRetry ..

/-- A task builds what it sends next on what it has been shown. -/
theorem built_advance {stage : Stage} {answer : Answer}
    (h : ∀ entry ∈ stage.asked?, answer.Shows base entry) (jobs : List Job) :
    (advance env client stage jobs answer).2.task.Built base := by
  refine Next.Built.goOn ?_ jobs
  cases stage with
  | push card => exact built_afterPush (h card rfl)
  | pushRebased card version =>
      unfold resume afterRebased
      dsimp only
      split
      · exact built_clearQueuedCard ..
      · exact built_awaitQueued client _
  | pushRecreated card version =>
      unfold resume afterRecreated
      dsimp only
      split
      · exact built_clearQueuedCard ..
      · exact built_awaitQueued client _
  | pushBatch primary siblings =>
      unfold resume afterBatch
      dsimp only
      split
      · exact fun _ hpair => by cases hpair
      · trivial
  | flush loop card stage => exact built_resumeFlush h
  | getChanges root recovering => exact built_afterChanges ..
  | clearHistoryCache => trivial
  | saveEntry entry queue => exact built_saveLocalState ..
  | saveQueue queue => trivial
  | saveRemaining queue flushed =>
      unfold resume
      dsimp only
      split
      · exact built_saveLocalState ..
      · trivial
  | saveState snapshot => trivial

end

/-! ### What is on its way -/

def Network.TasksBuilt (net : Network) (base : Card → Card → Prop) : Prop := ∀ task ∈ net.tasks, task.Built base

/-- The observer knows what the server has, and every task sends what it is meant to send. -/
structure Network.Sound (net : Network) : Prop where
  history : ∀ card ∈ net.store.cardVersions, card ∈ net.history
  built : net.TasksBuilt fun _ ancestor => ancestor ∈ net.history

theorem mem_modify_cases {α : Type} {items : List α} {index : Nat} {f : α → α} {item : α}
    (h : item ∈ items.modify index f) : item ∈ items ∨ ∃ old, items[index]? = some old ∧ item = f old := by
  obtain ⟨position, hposition⟩ := List.mem_iff_getElem?.mp h
  rw [List.getElem?_modify] at hposition
  split at hposition
  · rename_i heq
    obtain ⟨old, hold, rfl⟩ := Option.map_eq_some_iff.mp hposition
    exact .inr ⟨old, heq ▸ hold, rfl⟩
  · rw [id_map'] at hposition
    exact .inl (List.mem_of_getElem? hposition)

namespace Network

variable {net other : Network} {base : Card → Card → Prop} {task : Nat} {stage : Stage} {jobs : List Job}

theorem TasksBuilt.of_tasks (h : net.TasksBuilt base)
    (htasks : ∀ task ∈ other.tasks, task ∈ net.tasks ∨ task.Built base) : other.TasksBuilt base :=
  fun task htask => (htasks task htask).elim (h task) id

theorem TasksBuilt.prepares (h : net.TasksBuilt base) (hprepares : net.Prepares other) :
    other.TasksBuilt base := by
  obtain ⟨more, htasks, hidle⟩ := hprepares.tasks
  refine h.of_tasks fun task htask => ?_
  rw [htasks] at htask
  exact (List.mem_append.mp htask).imp_right fun hmore => Task.built_of_idle (hidle task hmore)

theorem TasksBuilt.advanced (h : net.TasksBuilt base) (task : Nat) {state : ClientState × Progress}
    (hbuilt : state.2.task.Built base) : (net.advanced task state).TasksBuilt base := by
  refine h.of_tasks fun other hother => ?_
  rcases List.mem_or_eq_of_mem_set hother with hold | rfl
  · exact .inl hold
  · exact .inr hbuilt

theorem TasksBuilt.of_open (h : net.TasksBuilt base) (hopen : net.open? task = some stage) : stage.Built base := by
  obtain ⟨waiting, hwaiting, hstage⟩ := Option.bind_eq_some_iff.mp hopen
  have hbuilt := h waiting (List.mem_of_getElem? hwaiting)
  cases waiting with
  | waiting waits jobs answer =>
      cases answer with
      | none =>
          cases hstage
          exact hbuilt.1
      | some response => cases hstage
  | orphaned waits =>
      cases hstage
      exact hbuilt
  | started work => cases hstage
  | finished => cases hstage
  | panicked => cases hstage

theorem TasksBuilt.shows_of_answer (h : net.TasksBuilt base) {response : Response}
    (htask : net.tasks[task]? = some (.waiting stage jobs (some response))) :
    ∀ entry ∈ stage.asked?, Answer.Shows base entry (.ok response) :=
  fun _ hentry => ((h _ (List.mem_of_getElem? htask)).2 response rfl).shows hentry

theorem TasksBuilt.restart (h : net.TasksBuilt base) : net.restart.TasksBuilt base := by
  refine h.of_tasks fun other hother => ?_
  obtain ⟨task, htask, rfl⟩ := List.mem_map.mp hother
  have hbuilt := h task htask
  cases task with
  | waiting stage jobs answer =>
      cases answer with
      | none => exact .inr hbuilt.1
      | some response => exact .inr trivial
  | orphaned stage => exact .inr hbuilt
  | started work => exact .inr trivial
  | finished => exact .inr trivial
  | panicked => exact .inr trivial

variable [Blake3]

theorem TasksBuilt.start (h : net.TasksBuilt base) (task : Nat) (env : Env) (work : Work) :
    (net.start task env work).TasksBuilt base := by
  obtain ⟨middle, state, hmiddle, hstart, hstate⟩ := net.start_cases task env work
  have hbuilt : middle.TasksBuilt base := by
    rcases hmiddle with rfl | rfl
    · exact h
    · exact h.prepares (net.prepares_flushSyncTake env).1
  rw [hstart]
  rcases hstate with ⟨jobs, rfl⟩ | rfl | ⟨queue, jobs, rfl⟩
  · exact hbuilt.advanced task (built_runJobs _ _)
  · exact hbuilt.advanced task trivial
  · exact hbuilt.advanced task (Task.built_waiting (fun _ hpair => by cases hpair) _)

theorem TasksBuilt.handle (h : net.TasksBuilt base) (hopen : net.open? task = some stage) {request : Request}
    {now : Int} (hanswered : ∀ jobs, net.tasks[task]? = some (.waiting stage jobs none) →
      stage.Answered base (handleRequest net.store now request).2) :
    (net.handle task now request).TasksBuilt base := by
  refine h.of_tasks fun other hother => ?_
  rcases mem_modify_cases hother with hold | ⟨old, hold, rfl⟩
  · exact .inl hold
  · refine .inr ?_
    have hbuilt := h old (List.mem_of_getElem? hold)
    cases old with
    | waiting waits jobs answer =>
        cases answer with
        | none =>
            rw [open?, hold] at hopen
            cases hopen
            refine ⟨hbuilt.1, fun response hresponse => ?_⟩
            cases hresponse
            exact hanswered jobs hold
        | some response =>
            rw [open?, hold] at hopen
            cases hopen
    | started work => trivial
    | finished => trivial
    | panicked => trivial
    | orphaned stage => trivial

theorem TasksBuilt.deliver (h : net.TasksBuilt base) {answer : Option Response}
    (htask : net.tasks[task]? = some (.waiting stage jobs answer)) (env : Env) :
    (net.deliver task env stage jobs answer).TasksBuilt base := by
  unfold Network.deliver
  split
  · exact h.advanced task (built_advance (h.shows_of_answer htask) jobs)
  · exact h.advanced task (built_advance (fun entry _ => Answer.shows_lost entry) jobs)
  · exact h

theorem TasksBuilt.lose (h : net.TasksBuilt base) {answer : Option Response}
    (htask : net.tasks[task]? = some (.waiting stage jobs answer)) (env : Env) :
    (net.lose task env stage jobs answer).TasksBuilt base := by
  have hbuilt := h _ (List.mem_of_getElem? htask)
  have hadvanced : (net.advanced task
      (advance env net.client stage jobs (.error .connectionLost))).TasksBuilt base :=
    h.advanced task (built_advance (fun entry _ => Answer.shows_lost entry) jobs)
  unfold Network.lose
  split
  · dsimp only
    split
    · exact hadvanced
    · refine hadvanced.of_tasks fun other hother => ?_
      rcases List.mem_append.mp hother with hold | horphan
      · exact .inl hold
      · rw [List.mem_singleton.mp horphan]
        exact .inr hbuilt.1
  · exact h

omit [Blake3] in
theorem ne_task_of_answered {response : Response} (progress : Progress) :
    Task.waiting stage jobs (some response) ≠ progress.task := by
  cases progress <;> exact nofun

/-- An answer that has not been there before is that of a request that the server handles. -/
theorem answered_step {step : NetworkStep} {response : Response}
    (h : Task.waiting stage jobs (some response) ∈ (net.step step).tasks) :
    Task.waiting stage jobs (some response) ∈ net.tasks ∨
      ∃ task now request, step = .handle task now ∧ stage.request? = some request ∧
        net.step step = net.handle task now request ∧ response = (handleRequest net.store now request).2 := by
  let p (other : Network) : Prop := Task.waiting stage jobs (some response) ∈ other.tasks →
    Task.waiting stage jobs (some response) ∈ net.tasks
  have hsame : p net := id
  have hprepares : ∀ {other : Network}, net.Prepares other → p other := by
    intro other hprepares hmem
    obtain ⟨more, htasks, hidle⟩ := hprepares.tasks
    rw [htasks] at hmem
    exact (List.mem_append.mp hmem).resolve_right fun hmore => by cases hidle _ hmore
  have hadvanced : ∀ {other : Network}, p other → ∀ (task : Nat) (state : ClientState × Progress),
      p (other.advanced task state) := by
    intro other hother task state hmem
    rcases List.mem_or_eq_of_mem_set hmem with hold | heq
    · exact hother hold
    · exact absurd heq (ne_task_of_answered _)
  cases step with
  | foreign call => exact .inl h
  | start task env =>
      refine .inl (step_start (p := p) hsame (fun work _ => ?_) h)
      obtain ⟨middle, state, hmiddle, hstart, -⟩ := net.start_cases task env work
      rw [hstart]
      rcases hmiddle with rfl | rfl
      · exact hadvanced hsame task state
      · exact hadvanced (hprepares (net.prepares_flushSyncTake env).1) task state
  | handle task now =>
      unfold Network.step at h ⊢
      dsimp only at h ⊢
      split at h
      · rename_i request hrequest
        rcases mem_modify_cases h with hold | ⟨old, hold, heq⟩
        · exact .inl hold
        · rw [open?, hold, Option.bind_some] at hrequest
          cases old with
          | waiting waits jobs answer =>
              cases heq
              cases answer with
              | none => exact .inr ⟨task, now, request, rfl, hrequest, rfl, rfl⟩
              | some answer => cases hrequest
          | started work => cases heq
          | finished => cases heq
          | panicked => cases heq
          | orphaned stage => cases heq
      · exact .inl h
  | deliver task env =>
      refine .inl (step_deliver (p := p) hsame (fun _ _ _ _ => ?_) h)
      unfold Network.deliver
      split
      · exact hadvanced hsame task _
      · exact hadvanced hsame task _
      · exact hsame
  | lose task env =>
      refine .inl (step_lose (p := p) hsame (fun stage jobs answer _ => ?_) h)
      have hlost := hadvanced hsame task (advance env net.client stage jobs (.error .connectionLost))
      unfold Network.lose
      split
      · dsimp only
        split
        · exact hlost
        · intro hmem
          exact hlost ((List.mem_append.mp hmem).resolve_right fun horphan => by cases List.mem_singleton.mp horphan)
      · exact hsame
  | restart =>
      obtain ⟨old, -, heq⟩ := List.mem_map.mp h
      cases old with
      | waiting waits jobs answer => cases answer <;> cases heq
      | orphaned waits => cases heq
      | started work => cases heq
      | finished => cases heq
      | panicked => cases heq
  | _ => exact .inl (hprepares (prepares_step rfl) h)

/-- It is enough that the answers that are waited for show what may be built on. -/
theorem TasksBuilt.step (h : net.TasksBuilt base) {step : NetworkStep}
    (hanswered : ∀ task now stage jobs request, step = .handle task now →
      net.tasks[task]? = some (.waiting stage jobs none) → stage.request? = some request →
      stage.Answered base (handleRequest net.store now request).2) : (net.step step).TasksBuilt base := by
  let p (other : Network) : Prop := other.TasksBuilt base
  cases step with
  | foreign call => exact h
  | start task env => exact step_start (p := p) h fun work _ => h.start task env work
  | handle task now =>
      refine step_handle (p := p) h fun stage request hopen hstage => h.handle hopen fun jobs htask => ?_
      exact hanswered task now stage jobs request rfl htask hstage
  | deliver task env => exact step_deliver (p := p) h fun _ _ _ htask => h.deliver htask env
  | lose task env => exact step_lose (p := p) h fun _ _ _ htask => h.lose htask env
  | restart => exact h.restart
  | _ => exact h.prepares (prepares_step rfl)

omit [Blake3] in
theorem mem_cardVersions_of_lineage {store : Store} {id : Uuid} {card : Card} (h : card ∈ store.cards.lineage id) :
    card ∈ store.cardVersions := by
  obtain ⟨row, hrow, rfl, -⟩ := EntityTables.mem_lineage.mp h
  exact List.mem_append_right _ (List.mem_map_of_mem hrow)

omit [Blake3] in
theorem mem_cardVersions_of_current {store : Store} {id : Uuid} {card : Card}
    (h : store.cards.current id = some card) : card ∈ store.cardVersions := by
  obtain ⟨row, hrow, hentity, -⟩ := EntityTables.current_eq_some_iff.mp h
  exact List.mem_append_left _ (EntityTables.mem_entities.mpr ⟨row, hrow, hentity⟩)

omit [Blake3] in
theorem sound_new (store : Store) (client : ClientState) : (Network.new store client).Sound :=
  ⟨fun _ hcard => hcard, fun _ hnil => absurd hnil List.not_mem_nil⟩

/-- The card in an answer is the server's current one. -/
theorem answered_handleRequest {request : Request} {store : Store} (now : Int)
    (hrequest : stage.request? = some request)
    (hbase : ∀ entry ∈ stage.asked?, ∀ card, store.cards.current entry.id = some card → base entry card) :
    stage.Answered base (handleRequest store now request).2 := by
  have hcurrent : ∀ entry ∈ stage.asked?, ∀ card, store.cards.current entry.id = some card →
      card.id = entry.id ∧ base entry card := fun entry hentry card h =>
    ⟨(EntityTables.current_eq_some_iff.mp h).choose_spec.2.2, hbase entry hentry card h⟩
  have hpush : ∀ card server, request = .pushCardVersions [card] →
      server ∈ (handleRequest store now request).2.card? → store.cards.current card.id = some server := by
    rintro card server rfl hserver
    unfold Response.card? at hserver
    split at hserver
    · rename_i found hresponse
      rcases handleRequest_sends store now (sends_single card) (List.cons_ne_nil _ _) with
        ⟨-, root, hroot⟩ | ⟨-, error, herror⟩
      · cases hroot.symm.trans hresponse
      · cases herror.symm.trans hresponse
    · rename_i found hresponse
      cases hserver
      exact (handleRequest_mismatch hresponse).1
    · cases hserver
  have hfetch : ∀ id server, request = .getCard id →
      server ∈ (handleRequest store now request).2.card? → store.cards.current id = some server := by
    rintro id server rfl hserver
    unfold Response.card? at hserver
    split at hserver
    · rename_i found hresponse
      cases hserver
      exact handleRequest_getCard hresponse
    · rename_i found hresponse
      unfold handleRequest at hresponse
      dsimp only at hresponse
      split at hresponse
      · cases hresponse
      · cases hresponse
      · rename_i error herror
        cases error <;> cases hresponse
    · cases hserver
  intro entry hentry server hserver
  refine hcurrent entry hentry server ?_
  cases stage with
  | push card =>
      cases hentry
      exact hpush entry server (Option.some.inj hrequest).symm hserver
  | flush loop card stage =>
      cases stage with
      | push =>
          cases hentry
          exact hpush entry server (Option.some.inj hrequest).symm hserver
      | fetch cards =>
          cases hentry
          exact hfetch entry.id server (Option.some.inj hrequest).symm hserver
      | _ => cases hentry
  | _ => cases hentry

/-- The client only sends single versions. -/
theorem store_handleRequest {stage : Stage} {request : Request} (hrequest : stage.request? = some request)
    (store : Store) (now : Int) :
    (handleRequest store now request).1 = store ∨
      ∃ call : Call, call.SingleId ∧ (handleRequest store now request).1 = execute store call := by
  rw [handleRequest_store]
  rcases request_sends hrequest with ⟨-, hread⟩ | ⟨-, mutation, hmutation, hitems⟩
  · rw [hread]
    exact .inl rfl
  · rw [hmutation]
    refine .inr ⟨⟨mutation, now⟩, fun item hitem => ?_, rfl⟩
    exact singleId_singles _ item (hitems ▸ hitem)

/-- The store changes with the calls that the server handles, and the observer then writes down what it has. -/
theorem stored_step (net : Network) (step : NetworkStep) :
    (net.step step).store = net.store ∧ (net.step step).history = net.history ∨
      (net.step step).history = net.history ++ (net.step step).store.cardVersions ∧
        ((net.step step).store = net.store ∨
          ∃ call, (step = .foreign call ∨ call.SingleId) ∧ (net.step step).store = execute net.store call) := by
  let p (other : Network) : Prop := other.store = net.store ∧ other.history = net.history ∨
    other.history = net.history ++ other.store.cardVersions ∧ (other.store = net.store ∨
      ∃ call, (step = .foreign call ∨ call.SingleId) ∧ other.store = execute net.store call)
  have hsame : p net := .inl ⟨rfl, rfl⟩
  have hprepares : ∀ {other : Network}, net.Prepares other → p other := fun h => .inl ⟨h.store, h.history⟩
  cases step with
  | foreign call => exact .inr ⟨rfl, .inr ⟨call, .inl rfl, rfl⟩⟩
  | start task env =>
      refine step_start (p := p) hsame fun work _ => ?_
      obtain ⟨middle, state, hmiddle, hstart, -⟩ := net.start_cases task env work
      rw [hstart]
      rcases hmiddle with rfl | rfl
      · exact hsame
      · have htaken := hprepares (net.prepares_flushSyncTake env).1
        exact htaken
  | handle task now =>
      refine step_handle (p := p) hsame fun stage request _ hrequest => .inr ⟨rfl, ?_⟩
      exact (store_handleRequest hrequest net.store now).imp_right fun ⟨call, hsingle, hstore⟩ =>
        ⟨call, .inr hsingle, hstore⟩
  | deliver task env =>
      refine step_deliver (p := p) hsame fun _ _ _ _ => ?_
      unfold Network.deliver
      split <;> exact hsame
  | lose task env =>
      refine step_lose (p := p) hsame fun _ _ _ _ => ?_
      unfold Network.lose
      split
      · dsimp only
        split <;> exact hsame
      · exact hsame
  | restart => exact hsame
  | _ => exact hprepares (prepares_step rfl)

/-- What the calls of others and of the client keep of the store, every step keeps. -/
theorem store_induction {p : Store → Prop} (h : p net.store) (step : NetworkStep)
    (hexecute : ∀ call, step = .foreign call ∨ call.SingleId → p (execute net.store call)) :
    p (net.step step).store := by
  rcases net.stored_step step with ⟨hstore, -⟩ | ⟨-, hstore | ⟨call, hcall, hstore⟩⟩
  · rwa [hstore]
  · rwa [hstore]
  · rw [hstore]
    exact hexecute call hcall

/-- The observer does not forget. -/
theorem mem_history_step {card : Card} (h : card ∈ net.history) (step : NetworkStep) :
    card ∈ (net.step step).history := by
  rcases net.stored_step step with ⟨-, hsame⟩ | ⟨hmore, -⟩
  · rwa [hsame]
  · rw [hmore]
    exact List.mem_append_left _ h

omit [Blake3] in
theorem Sound.prepares (h : net.Sound) (hprepares : net.Prepares other) : other.Sound where
  history := by
    rw [hprepares.store, hprepares.history]
    exact h.history
  built := by
    rw [hprepares.history]
    exact h.built.prepares hprepares

theorem Sound.step (h : net.Sound) (step : NetworkStep) : (net.step step).Sound := by
  have hbuilt : net.TasksBuilt fun _ ancestor => ancestor ∈ (net.step step).history := fun task htask =>
    (h.built task htask).mono fun _ _ hancestor => mem_history_step hancestor step
  refine ⟨?_, hbuilt.step ?_⟩
  · rcases net.stored_step step with ⟨hstore, hsame⟩ | ⟨hmore, -⟩
    · rw [hstore, hsame]
      exact h.history
    · rw [hmore]
      exact fun _ hcard => List.mem_append_right _ hcard
  · intro task now stage jobs request hstep htask hrequest
    refine answered_handleRequest now hrequest fun entry _ card hcurrent => ?_
    exact mem_history_step (h.history card (mem_cardVersions_of_current hcurrent)) step

/-- What is accepted in a step, the handled request sends. -/
theorem accepts_of_accepted {step : NetworkStep} {acceptance : Acceptance} (h : acceptance ∈ net.accepted step) :
    ∃ task now stage, step = .handle task now ∧ net.open? task = some stage ∧
      Accepts net.store (stage.sends.map Prod.snd) (net.step step).store ∧
      acceptance ∈ acceptances net.store.cards.current stage.sends := by
  cases step with
  | handle task now =>
      unfold accepted at h
      dsimp only at h
      cases hopen : net.open? task with
      | none =>
          rw [hopen] at h
          cases h
      | some stage =>
          rw [hopen, Option.map_some, Option.getD_some] at h
          cases hrequest : stage.request? with
          | none =>
              unfold Stage.accepted at h
              rw [hrequest] at h
              cases h
          | some request =>
              have hstep : (net.step (.handle task now)).store = (handleRequest net.store now request).1 := by
                unfold Network.step
                dsimp only
                rw [hopen, Option.bind_some, hrequest]
                rfl
              rcases handle_cases net.store now hrequest with ⟨-, haccepts, heq⟩ | ⟨-, heq, -⟩
              · rw [heq] at h
                exact ⟨task, now, stage, rfl, hopen, hstep ▸ haccepts, h⟩
              · rw [heq] at h
                cases h
  | _ => cases h

/-- In every run, a version that is accepted carries the fields of the local one it stands for, and
builds on the version it replaces. -/
theorem Sound.accepted (h : net.Sound) {step : NetworkStep} {acceptance : Acceptance}
    (haccepted : acceptance ∈ net.accepted step) :
    Rebuilds (fun _ ancestor => ancestor ∈ net.history) acceptance.entry acceptance.version ∧
      acceptance.version.ancestorHash = (acceptance.before.map Card.hash).getD zeroHash ∧
      acceptance.version ∉ net.store.cards.lineage acceptance.version.id := by
  obtain ⟨task, now, stage, -, hopen, haccepts, hacceptance⟩ := accepts_of_accepted haccepted
  have hsent := mem_sends_of_acceptance hacceptance
  exact ⟨h.built.of_open hopen _ hsent, haccepts.linked acceptance hacceptance,
    haccepts.fresh (List.mem_map_of_mem hsent)⟩

end Network

end BlazeList
