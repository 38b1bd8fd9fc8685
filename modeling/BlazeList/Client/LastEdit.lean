import BlazeList.Client.Moves

/-!
# The last edit of a card

Every edit starts its own push. The server takes the pushes in any order, and a version that comes late
is built anew on top of the later ones. The last edit is what remains if no other edit gets on top of it,
and if nothing but another task lets go of it before the server has it.
-/

namespace BlazeList

/-! ### Where an edit is -/

def Card.Carries (card last : Card) : Prop := card.id = last.id ∧ card.fields = last.fields

instance (card last : Card) : Decidable (card.Carries last) := inferInstanceAs (Decidable (_ ∧ _))

def HasEdit (last : Card) (cards : List Card) : Prop := ∃ card ∈ cards, card.Carries last

instance (last : Card) (cards : List Card) : Decidable (HasEdit last cards) :=
  inferInstanceAs (Decidable (∃ card ∈ cards, _))

/-- What a point still has to bring to the server. -/
def Stage.cards (accepted : Bool) (stage : Stage) : List Card :=
  (if accepted then [] else stage.pending) ++ stage.later

def Next.cards : Next → List Card
  | .await stage more => stage.cards false ++ more.flatMap Job.cards
  | .done more => more.flatMap Job.cards
  | .panic => []

def Task.cards : Task → List Card
  | .started work => work.cards
  | .waiting stage jobs answer =>
      stage.cards (answer.any fun response => Answer.accepts (.ok response)) ++ jobs.flatMap Job.cards
  | .finished | .panicked | .orphaned _ => []

/-! ### What lets go of it -/

/-- The entries that a version takes the place of, but for those with the same fields. -/
def displaced (queue : List Card) (entry : Card) : List Card :=
  queue.filter fun other => other.id = entry.id ∧ other.fields ≠ entry.fields

def startForgets (client : ClientState) : List Job → List Card
  | .pushCardOrQueue card :: _ | .pushBurst card _ :: _ =>
      if client.connected then [] else displaced client.offlineQueue card
  | .flushOfflineQueue :: rest =>
      if client.offlineQueue.isEmpty then startForgets client rest
      else if (reconcileOfflineQueue client.offlineQueue client.cards).isEmpty then client.offlineQueue
      else []
  | .incrementalSync :: _ | .recoverySync :: _ | [] => []

/-- The entries that nothing is written back for at the end of a flush, and the card it drops. -/
def flushForgets (client : ClientState) (loop : FlushLoop) (card : Card) (stage : FlushStage)
    (answer : Answer) : List Card :=
  (if stage.drops answer then [card] else []) ++
    if loop.Ends stage answer then
      client.offlineQueue.filter fun entry =>
        ¬ HasEdit entry ((Stage.flush loop card stage).cards answer.accepts)
    else []

def Stage.forgets (client : ClientState) (answer : Answer) (stage : Stage) : List Card :=
  (if answer.accepts then client.offlineQueue.filter fun entry => entry.id ∈ stage.clears else []) ++
    ((stage.fallback? answer).toList.flatMap (displaced client.offlineQueue) ++
      match stage with
      | .flush loop card stage => flushForgets client loop card stage answer
      | _ => [])

def advanceForgets [Blake3] (env : Env) (client : ClientState) (stage : Stage) (jobs : List Job)
    (answer : Answer) : List Card :=
  stage.forgets client answer ++
    match resume env client stage answer with
    | (client, .done more) => startForgets client (more ++ jobs)
    | _ => []

section

variable {last card other : Card} {cards more : List Card}

theorem Card.Carries.of_eq (h : card.Carries last) (hid : other.id = card.id)
    (hfields : other.fields = card.fields) : other.Carries last :=
  ⟨hid.trans h.1, hfields.trans h.2⟩

@[simp]
theorem hasEdit_nil : ¬ HasEdit last [] := fun ⟨_, hnil, _⟩ => List.not_mem_nil hnil

@[simp]
theorem hasEdit_append : HasEdit last (cards ++ more) ↔ HasEdit last cards ∨ HasEdit last more := by
  simp only [HasEdit, List.mem_append, or_and_right, exists_or]

theorem HasEdit.mono (h : HasEdit last cards) (hsub : ∀ card ∈ cards, card ∈ more) :
    HasEdit last more := by
  obtain ⟨card, hcard, hcarries⟩ := h
  exact ⟨card, hsub card hcard, hcarries⟩

/-- A version takes the place of the entries with its id. -/
theorem HasEdit.replaceCard (h : HasEdit last (cards ++ [card])) :
    HasEdit last (displaced cards card) ∨ HasEdit last (replaceCard cards card) := by
  have hnew : card ∈ BlazeList.replaceCard cards card := mem_replaceCard.mpr (.inr rfl)
  rcases hasEdit_append.mp h with ⟨entry, hentry, hcarries⟩ | hcard
  · by_cases hid : entry.id = card.id
    · by_cases hfields : entry.fields = card.fields
      · exact .inr ⟨card, hnew, hcarries.of_eq hid.symm hfields.symm⟩
      · exact .inl ⟨entry, List.mem_filter.mpr ⟨hentry, decide_eq_true ⟨hid, hfields⟩⟩, hcarries⟩
    · exact .inr ⟨entry, mem_replaceCard.mpr (.inl ⟨hentry, hid⟩), hcarries⟩
  · exact .inr (hcard.mono fun other hother => List.mem_singleton.mp hother ▸ hnew)

theorem HasEdit.dropIds {ids : List Uuid} (h : HasEdit last cards) :
    HasEdit last (cards.filter fun entry => entry.id ∈ ids) ∨
      HasEdit last (cards.filter fun entry => entry.id ∉ ids) := by
  obtain ⟨entry, hentry, hcarries⟩ := h
  by_cases hid : entry.id ∈ ids
  · exact .inl ⟨entry, List.mem_filter.mpr ⟨hentry, decide_eq_true hid⟩, hcarries⟩
  · exact .inr ⟨entry, List.mem_filter.mpr ⟨hentry, decide_eq_true hid⟩, hcarries⟩

end

/-! ### The start of a call -/

section

variable {last card : Card} {client : ClientState}

theorem hasEdit_pushCardOrQueue {rest : List Card}
    (h : HasEdit last (client.offlineQueue ++ card :: rest)) :
    HasEdit last (if client.connected then [] else displaced client.offlineQueue card) ∨
      HasEdit last ((pushCardOrQueue client card).1.offlineQueue ++
        ((pushCardOrQueue client card).2.cards false ++ rest)) := by
  unfold pushCardOrQueue
  cases hconnected : client.connected with
  | true =>
      refine .inr (h.mono fun other hother => ?_)
      rwa [if_pos rfl]
  | false =>
      rw [if_neg Bool.false_ne_true, if_neg Bool.false_ne_true]
      have hsplit : HasEdit last (client.offlineQueue ++ [card]) ∨ HasEdit last rest := by
        rw [← hasEdit_append, List.append_assoc, List.singleton_append]
        exact h
      rcases hsplit with hqueue | hrest
      · exact hqueue.replaceCard.imp_right fun hnew => hasEdit_append.mpr (.inl hnew)
      · exact .inr (hasEdit_append.mpr (.inr (hasEdit_append.mpr (.inr hrest))))

theorem flatMap_cards_pushes (cards : List Card) :
    (cards.map Job.pushCardOrQueue).flatMap Job.cards = cards := by
  induction cards with
  | nil => rfl
  | cons card rest ih =>
      rw [List.map_cons, List.flatMap_cons, ih]
      rfl

theorem hasEdit_pushBurst {siblings rest : List Card}
    (h : HasEdit last (client.offlineQueue ++ (card :: siblings ++ rest))) :
    HasEdit last (if client.connected then [] else displaced client.offlineQueue card) ∨
      HasEdit last ((pushBurst client card siblings).1.offlineQueue ++
        ((pushBurst client card siblings).2.1.cards false ++
          ((pushBurst client card siblings).2.2.flatMap Job.cards ++ rest))) := by
  by_cases hsingle : siblings.isEmpty ∨ client.connected = false
  · have hpushes : pushBurst client card siblings =
        ((pushCardOrQueue client card).1, (pushCardOrQueue client card).2,
          siblings.map .pushCardOrQueue) := if_pos hsingle
    rw [hpushes]
    dsimp only
    rw [flatMap_cards_pushes]
    exact hasEdit_pushCardOrQueue h
  · have hbatch : pushBurst client card siblings = (client, .pushBatch card siblings, []) :=
      if_neg hsingle
    rw [hbatch]
    refine .inr (h.mono fun other hother => ?_)
    simp only [Stage.cards, Stage.pending, Stage.later, List.append_nil, List.flatMap_nil,
      List.nil_append]
    exact hother

/-- A call keeps the edit, but for what it puts other versions in the place of. -/
theorem hasEdit_runJobs {jobs : List Job}
    (h : HasEdit last (client.offlineQueue ++ jobs.flatMap Job.cards)) :
    HasEdit last (startForgets client jobs) ∨
      HasEdit last ((runJobs client jobs).1.offlineQueue ++ (runJobs client jobs).2.task.cards) := by
  induction jobs with
  | nil => exact .inr h
  | cons job rest ih =>
      rw [List.flatMap_cons] at h
      cases job with
      | pushCardOrQueue card =>
          refine (hasEdit_pushCardOrQueue h).imp_right fun hnext => hnext.mono fun other hother => ?_
          exact hother
      | pushBurst primary siblings =>
          refine (hasEdit_pushBurst h).imp_right fun hnext => hnext.mono fun other hother => ?_
          unfold runJobs startJob
          dsimp only
          rw [Progress.task, Task.cards, List.flatMap_append]
          exact hother
      | flushOfflineQueue =>
          unfold startForgets runJobs startJob flushOfflineQueue
          dsimp only
          split
          · exact ih h
          · cases hqueue : reconcileOfflineQueue client.offlineQueue client.cards with
            | nil =>
                rw [List.isEmpty_nil, if_pos rfl]
                rcases hasEdit_append.mp h with hforgotten | hrest
                · exact .inl hforgotten
                · exact .inr (hasEdit_append.mpr (.inr (hasEdit_append.mpr (.inr hrest))))
            | cons first others =>
                refine .inr (h.mono fun other hother => ?_)
                refine List.mem_append.mpr ((List.mem_append.mp hother).imp_right fun hrest => ?_)
                exact List.mem_append_right _ hrest
      | incrementalSync =>
          exact .inr h
      | recoverySync => exact .inr h

end

/-! ### An answer -/

section

variable {last card : Card} {client : ClientState} {loop : FlushLoop} {stage : FlushStage}
  {answer : Answer}

theorem Card.Carries.trans {middle : Card} (h : card.Carries middle) (hlast : middle.Carries last) :
    card.Carries last :=
  hlast.of_eq h.1 h.2

theorem hasEdit_clearQueuedCard {cardId : Uuid} (h : HasEdit last client.offlineQueue) :
    HasEdit last (client.offlineQueue.filter fun entry => entry.id ∈ [cardId]) ∨
      HasEdit last (clearQueuedCard client cardId).1.offlineQueue := by
  unfold clearQueuedCard
  dsimp only
  split
  · exact h.dropIds
  · exact .inr h

/-- What the loop still has is in the queue or with the flush afterwards. -/
theorem mem_continueFlush {after : ClientState} {kept : Option Card} {hit : Bool}
    (h : card ∈ loop.remaining ++ kept.toList ++ loop.rest) :
    card ∈ (continueFlush after loop kept hit).1.offlineQueue ++
      (continueFlush after loop kept hit).2.cards := by
  unfold continueFlush
  dsimp only
  split
  · rename_i hrest
    rw [hrest, List.append_nil] at h
    exact List.mem_append_left _ h
  · rename_i next rest hrest
    rw [hrest] at h
    split
    · exact List.mem_append_left _ h
    · apply List.mem_append_right _
      simp only [Next.cards, Stage.cards, Stage.pending, Stage.later, List.mem_append, List.mem_cons,
        Bool.false_eq_true, if_false, List.flatMap_nil, List.append_nil] at h ⊢
      rcases h with (hremaining | hkept) | rfl | hlater
      · exact .inr (.inl (.inl hremaining))
      · exact .inr (.inl (.inr hkept))
      · exact .inl (.inl rfl)
      · exact .inr (.inr hlater)

theorem continueFlush_queue {after : ClientState} {kept : Option Card} {hit : Bool}
    (h : (continueFlush after loop kept hit).2.endsFlush = false) :
    (continueFlush after loop kept hit).1.offlineQueue = after.offlineQueue := by
  unfold continueFlush at h ⊢
  dsimp only at h ⊢
  split at h
  · cases h
  · split at h
    · cases h
    · rename_i hhit
      rw [if_neg hhit]

theorem hasEdit_continueFlush {after : ClientState} {kept : Option Card} {hit : Bool}
    (hqueue : after.offlineQueue = client.offlineQueue)
    (hends : (continueFlush after loop kept hit).2.endsFlush = true → loop.Ends stage answer)
    (hkept : HasEdit last (if answer.accepts then [] else [card]) →
      HasEdit last kept.toList ∨ stage.drops answer = true)
    (h : HasEdit last (client.offlineQueue ++ (Stage.flush loop card stage).cards answer.accepts)) :
    HasEdit last (flushForgets client loop card stage answer) ∨
      HasEdit last ((continueFlush after loop kept hit).1.offlineQueue ++
        (continueFlush after loop kept hit).2.cards) := by
  have hcards : HasEdit last ((Stage.flush loop card stage).cards answer.accepts) →
      HasEdit last (flushForgets client loop card stage answer) ∨
        HasEdit last ((continueFlush after loop kept hit).1.offlineQueue ++
          (continueFlush after loop kept hit).2.cards) := by
    intro hcards
    have hloop : ∀ {part : List Card}, HasEdit last part →
        (∀ other ∈ part, other ∈ loop.remaining ++ kept.toList ++ loop.rest) →
          HasEdit last ((continueFlush after loop kept hit).1.offlineQueue ++
            (continueFlush after loop kept hit).2.cards) :=
      fun hpart hsub => hpart.mono fun other hother => mem_continueFlush (hsub other hother)
    rcases hasEdit_append.mp hcards with hown | hlater
    · rcases hkept hown with hback | hdrops
      · exact .inr (hloop hback fun other hother =>
          List.mem_append_left _ (List.mem_append_right _ hother))
      · have hcard : HasEdit last [card] := hown.mono fun other hother => by
          split at hother
          · cases hother
          · exact hother
        refine .inl (hasEdit_append.mpr (.inl ?_))
        rwa [if_pos hdrops]
    · refine .inr (hloop hlater fun other hother => ?_)
      rcases List.mem_append.mp hother with hremaining | hrest
      · exact List.mem_append_left _ (List.mem_append_left _ hremaining)
      · exact List.mem_append_right _ hrest
  rcases hasEdit_append.mp h with ⟨entry, hentry, hcarries⟩ | hown
  · cases hend : (continueFlush after loop kept hit).2.endsFlush with
    | true =>
        -- the queue is overwritten, with or without another version for the entry
        by_cases hback : HasEdit entry ((Stage.flush loop card stage).cards answer.accepts)
        · obtain ⟨other, hother, hsame⟩ := hback
          exact hcards ⟨other, hother, hsame.trans hcarries⟩
        · refine .inl (hasEdit_append.mpr (.inr ?_))
          rw [if_pos (hends hend)]
          exact ⟨entry, List.mem_filter.mpr ⟨hentry, decide_eq_true hback⟩, hcarries⟩
    | false =>
        refine .inr (hasEdit_append.mpr (.inl ⟨entry, ?_, hcarries⟩))
        rw [continueFlush_queue hend, hqueue]
        exact hentry
  · exact hcards hown

theorem forgets_of_accepts {point : Stage} (haccepts : answer.accepts = true)
    (h : HasEdit last (client.offlineQueue.filter fun entry => entry.id ∈ point.clears)) :
    HasEdit last (point.forgets client answer) := by
  refine hasEdit_append.mpr (.inl ?_)
  rwa [if_pos haccepts]

theorem forgets_of_fallback {point : Stage} {entry : Card}
    (hfallback : point.fallback? answer = some entry)
    (h : HasEdit last (displaced client.offlineQueue entry)) :
    HasEdit last (point.forgets client answer) := by
  refine hasEdit_append.mpr (.inr (hasEdit_append.mpr (.inl ?_)))
  rw [hfallback, Option.toList_some, List.flatMap_cons, List.flatMap_nil, List.append_nil]
  exact h

/-- The version is accepted, and the entry of the card is cleared. -/
theorem hasEdit_cleared {point : Stage} {after : ClientState} (hqueue : after.offlineQueue = client.offlineQueue)
    (haccepts : answer.accepts = true) (hclears : point.clears = [card.id]) (hlater : point.later = [])
    (h : HasEdit last (client.offlineQueue ++ point.cards answer.accepts)) :
    HasEdit last (point.forgets client answer) ∨
      HasEdit last ((clearQueuedCard after card.id).1.offlineQueue ++
        (clearQueuedCard after card.id).2.cards) := by
  have hleft : HasEdit last after.offlineQueue := by
    rw [haccepts, Stage.cards, if_pos rfl, hlater, List.append_nil, List.append_nil] at h
    rwa [hqueue]
  rcases @hasEdit_clearQueuedCard last after card.id hleft with hcleared | hkept
  · refine .inl (forgets_of_accepts haccepts ?_)
    rwa [hclears, ← hqueue]
  · exact .inr (hasEdit_append.mpr (.inl hkept))

/-- The version is not accepted, and goes to the queue. -/
theorem hasEdit_queued {point : Stage} {entry : Card} (hfallback : point.fallback? answer = some entry)
    (hpending : HasEdit last (point.cards answer.accepts) → entry.Carries last)
    (h : HasEdit last (client.offlineQueue ++ point.cards answer.accepts)) :
    HasEdit last (point.forgets client answer) ∨
      HasEdit last ((awaitQueued client entry).1.offlineQueue ++ (awaitQueued client entry).2.cards) := by
  have hqueue : HasEdit last (client.offlineQueue ++ [entry]) := by
    rcases hasEdit_append.mp h with hqueue | hown
    · exact hasEdit_append.mpr (.inl hqueue)
    · exact hasEdit_append.mpr (.inr ⟨entry, List.mem_cons_self, hpending hown⟩)
  rcases hqueue.replaceCard with hdisplaced | hnew
  · exact .inl (forgets_of_fallback hfallback hdisplaced)
  · exact .inr (hasEdit_append.mpr (.inl hnew))

/-- Nothing is left to bring to the server, and the queue stays as it is. -/
theorem hasEdit_saved {point : Stage} {state : ClientState × Next} {accepted : Bool}
    (hcards : point.cards accepted = []) (hqueue : state.1.offlineQueue = client.offlineQueue)
    (h : HasEdit last (client.offlineQueue ++ point.cards accepted)) :
    HasEdit last (state.1.offlineQueue ++ state.2.cards) := by
  rw [hcards, List.append_nil] at h
  exact hasEdit_append.mpr (.inl (hqueue ▸ h))

theorem queue_saveLocalState (client : ClientState) (jobs : List Job) :
    (saveLocalState client jobs).1.offlineQueue = client.offlineQueue := by
  unfold saveLocalState
  split <;> rfl

/-- What is left to bring to the server after a rejected request. -/
theorem cards_of_error {point : Stage} {error : ClientError} (herror : answer.intoRoot = .error error) :
    point.cards answer.accepts = point.pending ++ point.later := by
  rw [Stage.cards, Answer.accepts_of_error herror, if_neg Bool.false_ne_true]

/-- The rebuilt version has been answered for, and `entry` stands for the card on a failure. -/
theorem hasEdit_afterRebuilt {point : Stage} {version entry : Card} (hclears : point.clears = [card.id])
    (hpending : point.pending = [card]) (hlater : point.later = [])
    (hfallback : answer.accepts = false → point.fallback? answer = some entry)
    (hentry : card.Carries last → entry.Carries last)
    (h : HasEdit last (client.offlineQueue ++ point.cards answer.accepts)) {state : ClientState × Next}
    (hok : ∀ root, answer.intoRoot = .ok root →
      state = clearQueuedCard (client.upsertCard version) card.id)
    (herror : ∀ error, answer.intoRoot = .error error → state = awaitQueued client entry) :
    HasEdit last (point.forgets client answer) ∨ HasEdit last (state.1.offlineQueue ++ state.2.cards) := by
  cases hroot : answer.intoRoot with
  | ok root =>
      rw [hok root hroot]
      have hqueue : (client.upsertCard version).offlineQueue = client.offlineQueue := rfl
      exact hasEdit_cleared hqueue (Answer.accepts_of_ok hroot) hclears hlater h
  | error error =>
      rw [herror error hroot]
      refine hasEdit_queued (hfallback (Answer.accepts_of_error hroot)) ?_ h
      rw [cards_of_error hroot, hpending, hlater]
      rintro ⟨other, hother, hcarries⟩
      exact hentry (List.mem_singleton.mp hother ▸ hcarries)

theorem hasEdit_afterBatch {primary : Card} {siblings : List Card}
    (h : HasEdit last (client.offlineQueue ++ (Stage.pushBatch primary siblings).cards answer.accepts)) :
    HasEdit last ((Stage.pushBatch primary siblings).forgets client answer) ∨
      HasEdit last ((afterBatch client primary siblings answer).1.offlineQueue ++
        (afterBatch client primary siblings answer).2.cards) := by
  unfold afterBatch
  split
  · rename_i root hroot
    have haccepts := Answer.accepts_of_ok hroot
    rw [haccepts, Stage.cards, if_pos rfl, List.nil_append] at h
    rcases (hasEdit_append.mp h).resolve_right hasEdit_nil |>.dropIds with hcleared | hkept
    · exact .inl (forgets_of_accepts haccepts hcleared)
    · exact .inr (hasEdit_append.mpr (.inl hkept))
  · rename_i error herror
    apply Or.inr
    rw [cards_of_error herror] at h
    rw [Next.cards, perCard, flatMap_cards_pushes]
    exact h.mono fun other hother => by simpa [Stage.pending, Stage.later] using hother

variable [Blake3] {env : Env} {base : Card → Card → Prop}

theorem hasEdit_resumeFlush (hbuilt : (Stage.flush loop card stage).Built base)
    (hshows : ∀ entry ∈ (Stage.flush loop card stage).asked?, answer.Shows base entry)
    (h : HasEdit last (client.offlineQueue ++ (Stage.flush loop card stage).cards answer.accepts)) :
    HasEdit last (flushForgets client loop card stage answer) ∨
      HasEdit last ((resumeFlush env client loop card stage answer).1.offlineQueue ++
        (resumeFlush env client loop card stage answer).2.cards) ∨
      (resumeFlush env client loop card stage answer).2 = .panic := by
  have hsent : ∀ version ∈ stage.version? card, Rebuilds base card version := by
    intro version hversion
    cases stage with
    | fetch cards => cases hversion
    | batch shifted retry =>
        cases hversion
        exact hbuilt (card, version) (List.mem_append_right _ List.mem_cons_self)
    | _ =>
        cases hversion
        exact hbuilt _ List.mem_cons_self
  have habout : answer.About card.id stage := by
    cases stage with
    | push => exact fun latest hlatest => (hshows card rfl latest (.inl hlatest)).1
    | fetch cards => exact fun found hfound => (hshows card rfl found (.inr hfound)).1
    | _ => trivial
  have hturned := @turned_resumeFlush _ env client loop card stage answer habout
    fun version hversion => (hsent version hversion).id
  have hends : (resumeFlush env client loop card stage answer).2.endsFlush = true →
      loop.Ends stage answer := resumeFlush_ends
  generalize resumeFlush env client loop card stage answer = result at hturned hends ⊢
  cases hturned with
  | panic => exact .inr (.inr rfl)
  | again hid =>
      refine .inr (.inl (h.mono fun other hother => ?_))
      refine List.mem_append.mpr ((List.mem_append.mp hother).imp_right fun hown => ?_)
      refine List.mem_append_left _ (List.mem_append.mpr ?_)
      refine (List.mem_append.mp hown).imp_left fun hpending => ?_
      split at hpending
      · cases hpending
      · exact hpending
  | accepted hroot _ =>
      have haccepts := Answer.accepts_of_ok hroot
      refine (hasEdit_continueFlush (by rw [foldl_upsertCard]) hends ?_ h).imp_right .inl
      rw [if_pos haccepts]
      exact fun hnil => absurd hnil hasEdit_nil
  | @kept entry hit hentry =>
      refine (hasEdit_continueFlush rfl hends (fun hown => .inl ?_) h).imp_right .inl
      have hcard : HasEdit last [card] := hown.mono fun other hother => by
        split at hother
        · cases hother
        · exact hother
      rcases hentry with rfl | rfl
      · exact hcard
      · obtain ⟨other, hother, hcarries⟩ := hcard
        obtain rfl := List.mem_singleton.mp hother
        have hrebuilds := hsent entry rfl
        exact ⟨entry, List.mem_cons_self, hcarries.of_eq hrebuilds.id hrebuilds.fields⟩
  | dropped hdrops =>
      exact (hasEdit_continueFlush rfl hends (fun _ => .inr hdrops) h).imp_right .inl

theorem hasEdit_afterPush
    (h : HasEdit last (client.offlineQueue ++ (Stage.push card).cards answer.accepts)) :
    HasEdit last ((Stage.push card).forgets client answer) ∨
      HasEdit last ((afterPush env client card answer).1.offlineQueue ++
        (afterPush env client card answer).2.cards) ∨
      (afterPush env client card answer).2 = .panic := by
  have hpending : HasEdit last ((Stage.push card).cards answer.accepts) → card.Carries last := by
    rintro ⟨other, hother, hcarries⟩
    rcases List.mem_append.mp hother with hown | hlater
    · split at hown
      · cases hown
      · exact List.mem_singleton.mp hown ▸ hcarries
    · cases hlater
  have hagain : ∀ {next : Stage}, next.pending = [card] →
      HasEdit last (client.offlineQueue ++ Next.cards (.await next [])) := by
    intro next hnext
    rcases hasEdit_append.mp h with hqueue | hown
    · exact hasEdit_append.mpr (.inl hqueue)
    · refine hasEdit_append.mpr (.inr (hasEdit_append.mpr (.inl (hasEdit_append.mpr (.inl ?_)))))
      rw [if_neg Bool.false_ne_true, hnext]
      exact ⟨card, List.mem_cons_self, hpending hown⟩
  unfold afterPush
  cases hroot : answer.intoRoot with
  | ok root => exact (hasEdit_cleared rfl (Answer.accepts_of_ok hroot) rfl rfl h).imp_right .inl
  | error error =>
      split
      · rename_i heq
        cases heq
      · split
        · exact .inr (.inl (hagain rfl))
        · exact .inr (.inr rfl)
      · rw [rebuildCard_none]
        exact .inr (.inl (hagain rfl))
      · rename_i other hmismatch hverification heq
        obtain rfl := Except.error.inj heq
        refine (hasEdit_queued ?_ hpending h).imp_right .inl
        rw [Stage.fallback?, hroot]
        split
        · rename_i heq
          cases heq
        · rename_i heq
          exact absurd (Except.error.inj heq) (hmismatch _)
        · rename_i heq
          exact absurd (Except.error.inj heq) hverification
        · rfl

/-- An answer keeps the edit with the task or in the queue, but for what the point gives up. -/
theorem hasEdit_resume {point : Stage} (hbuilt : point.Built base)
    (hshows : ∀ entry ∈ point.asked?, answer.Shows base entry)
    (h : HasEdit last (client.offlineQueue ++ point.cards answer.accepts)) :
    HasEdit last (point.forgets client answer) ∨
      HasEdit last ((resume env client point answer).1.offlineQueue ++
        (resume env client point answer).2.cards) ∨ (resume env client point answer).2 = .panic := by
  cases point with
  | push card => exact hasEdit_afterPush h
  | pushRebased card version =>
      have hfallback : answer.accepts = false →
          (Stage.pushRebased card version).fallback? answer = some card := fun hrejects =>
        if_neg (hrejects ▸ Bool.false_ne_true)
      refine (@hasEdit_afterRebuilt last card client answer _ version card rfl rfl rfl hfallback id h _
        (fun root hroot => ?_) fun error herror => ?_).imp_right .inl
      · rw [resume, afterRebased, hroot]
      · rw [resume, afterRebased, herror]
  | pushRecreated card version =>
      have hfallback : answer.accepts = false →
          (Stage.pushRecreated card version).fallback? answer = some version := fun hrejects =>
        if_neg (hrejects ▸ Bool.false_ne_true)
      have hrebuilds := hbuilt (card, version) List.mem_cons_self
      refine (@hasEdit_afterRebuilt last card client answer _ version version rfl rfl rfl hfallback
        (fun hcarries => hcarries.of_eq hrebuilds.id hrebuilds.fields) h _ (fun root hroot => ?_)
        fun error herror => ?_).imp_right .inl
      · rw [resume, afterRecreated, hroot]
      · rw [resume, afterRecreated, herror]
  | pushBatch primary siblings => exact (hasEdit_afterBatch h).imp_right .inl
  | flush loop card stage =>
      refine (hasEdit_resumeFlush hbuilt hshows h).imp_left fun hforgets => ?_
      exact hasEdit_append.mpr (.inr (hasEdit_append.mpr (.inr hforgets)))
  | getChanges root recovering =>
      refine .inr (.inl (hasEdit_saved (by cases answer.accepts <;> rfl) ?_ h))
      unfold resume afterChanges
      dsimp only
      split
      · exact queue_saveLocalState _ _
      · exact queue_saveLocalState _ _
      · rfl
      · rfl
  | clearHistoryCache =>
      exact .inr (.inl (hasEdit_saved (by cases answer.accepts <;> rfl) rfl h))
  | saveEntry entry queue =>
      exact .inr (.inl (hasEdit_saved (by cases answer.accepts <;> rfl) (queue_saveLocalState _ _) h))
  | saveQueue queue => exact .inr (.inl (hasEdit_saved (by cases answer.accepts <;> rfl) rfl h))
  | saveRemaining queue flushed =>
      refine .inr (.inl (hasEdit_saved (by cases answer.accepts <;> rfl) ?_ h))
      cases flushed with
      | true => exact queue_saveLocalState _ _
      | false => rfl
  | saveState snapshot => exact .inr (.inl (hasEdit_saved (by cases answer.accepts <;> rfl) rfl h))

/-- The task goes on, and keeps the edit but for what is given up. -/
theorem hasEdit_advance {point : Stage} {jobs : List Job} (hbuilt : point.Built base)
    (hshows : ∀ entry ∈ point.asked?, answer.Shows base entry)
    (h : HasEdit last (client.offlineQueue ++
      (point.cards answer.accepts ++ jobs.flatMap Job.cards))) :
    HasEdit last (advanceForgets env client point jobs answer) ∨
      HasEdit last ((advance env client point jobs answer).1.offlineQueue ++
        (advance env client point jobs answer).2.task.cards) ∨
      (advance env client point jobs answer).2 = .panicked := by
  have hresumed : HasEdit last (point.forgets client answer) ∨
      HasEdit last ((resume env client point answer).1.offlineQueue ++
        ((resume env client point answer).2.cards ++ jobs.flatMap Job.cards)) ∨
      (resume env client point answer).2 = .panic := by
    rw [← List.append_assoc, hasEdit_append] at h
    rcases h with hpoint | hjobs
    · refine (hasEdit_resume hbuilt hshows hpoint).imp_right fun hnext => hnext.imp_left fun hkept => ?_
      rw [← List.append_assoc]
      exact hasEdit_append.mpr (.inl hkept)
    · exact .inr (.inl (hasEdit_append.mpr (.inr (hasEdit_append.mpr (.inr hjobs)))))
  unfold advanceForgets advance
  generalize resume env client point answer = state at hresumed ⊢
  obtain ⟨after, next⟩ := state
  rcases hresumed with hforgotten | hkept | hpanic
  · exact .inl (hasEdit_append.mpr (.inl hforgotten))
  · cases next with
    | panic => exact .inr (.inr rfl)
    | await stage more =>
        refine .inr (.inl ?_)
        simp only [goOn, Progress.task, Task.cards, Next.cards, List.flatMap_append,
          List.append_assoc, Option.any_none] at hkept ⊢
        exact hkept
    | done more =>
        have hjobs : HasEdit last (after.offlineQueue ++ (more ++ jobs).flatMap Job.cards) := by
          rw [List.flatMap_append]
          exact hkept
        rcases hasEdit_runJobs hjobs with hforgotten | hstarted
        · exact .inl (hasEdit_append.mpr (.inr hforgotten))
        · exact .inr (.inl hstarted)
  · cases hpanic
    exact .inr (.inr rfl)

end

/-! ### Steps -/

def Network.startedJobs [Blake3] (net : Network) (env : Env) : Work → List Job
  | .push card true =>
      match (net.flushSyncTake env).2 with
      | some (some (primary, siblings)) => [.pushBurst primary siblings, .pushCardOrQueue card]
      | _ => [.pushCardOrQueue card]
  | .push card false => [.pushCardOrQueue card]
  | .burst primary siblings => [.pushBurst primary siblings]
  | .stashed _ _ => []
  | .sync => [.incrementalSync]
  | .flush => [.flushOfflineQueue]

def ClientState.stashForgets (client : ClientState) : List Card :=
  match client.pendingPriority with
  | some burst =>
      let bases := burst.cards.map Prod.fst
      client.offlineQueue.filter fun entry => entry.id ∈ bases.map Card.id ∧ ¬ HasEdit entry bases
  | none => []

/-- The local versions that are given up in a step. -/
def Network.forgets [Blake3] (net : Network) : NetworkStep → List Card
  | .flushBlocking _ => net.client.stashForgets
  | .start task env =>
      match net.tasks[task]? with
      | some (.started work) => startForgets net.client (net.startedJobs env work)
      | _ => []
  | .deliver task env =>
      match net.tasks[task]? with
      | some (.waiting stage jobs (some response)) =>
          advanceForgets env net.client stage jobs (.ok response)
      | some (.waiting stage jobs none) =>
          if stage.request?.isNone then
            advanceForgets env net.client stage jobs (.error .connectionLost)
          else
            []
      | _ => []
  | .lose task env =>
      match net.tasks[task]? with
      | some (.waiting stage jobs _) => advanceForgets env net.client stage jobs (.error .connectionLost)
      | _ => []
  | _ => []

def Network.others (net : Network) : NetworkStep → List Task
  | .start task _ | .deliver task _ | .lose task _ => net.tasks.eraseIdx task
  | _ => net.tasks

def Network.Carried (net : Network) (last : Card) : Prop :=
  ∃ current ∈ net.store.cards.current last.id, current.fields = last.fields

instance (net : Network) (last : Card) : Decidable (net.Carried last) :=
  inferInstanceAs (Decidable (∃ current ∈ _, _))

/-- No other client writes the card, no version with other fields gets on top of the edit, and the edit
is given up only when the server has it or another task still stands for it. -/
def Network.SparesEdit [Blake3] (last : Card) (net : Network) : NetworkStep → Prop
  | .foreign call => (execute net.store call).cards.current last.id = net.store.cards.current last.id
  | .handle task _ =>
      ∀ acceptance ∈ acceptances net.store.cards.current (((net.open? task).map Stage.sends).getD []),
        acceptance.version.id = last.id → ∀ latest ∈ acceptance.before, latest.fields = last.fields →
          acceptance.version.ancestorHash = latest.hash → acceptance.version.fields = last.fields
  | .restart => net.Carried last ∨ HasEdit last net.client.files.queue
  | step =>
      net.Carried last ∨ ¬ HasEdit last (net.forgets step) ∨
        HasEdit last ((net.others step).flatMap Task.cards)

instance [Blake3] (last : Card) (net : Network) : (step : NetworkStep) → Decidable (net.SparesEdit last step)
  | .foreign _ => inferInstanceAs (Decidable (_ = _))
  | .handle _ _ => inferInstanceAs (Decidable (∀ acceptance ∈ _, _))
  | .restart => inferInstanceAs (Decidable (_ ∨ _))
  | .connect _ | .edit _ _ | .move _ _ _ _ _ _ _ | .flushBurst _ | .flushBlocking _ | .sync | .flush
  | .start _ _ | .deliver _ _ | .lose _ _ => inferInstanceAs (Decidable (_ ∨ _ ∨ _))

namespace Network

variable {net other : Network} {last : Card}

/-- The edit is with the server, in the queue, or with a task that has not ended. -/
def Keeps (net : Network) (last : Card) : Prop :=
  net.Carried last ∨ HasEdit last net.client.offlineQueue ∨
    HasEdit last (net.tasks.flatMap Task.cards) ∨ Task.panicked ∈ net.tasks

theorem hasEdit_tasks {tasks : List Task} :
    HasEdit last (tasks.flatMap Task.cards) ↔ ∃ task ∈ tasks, HasEdit last task.cards := by
  simp only [HasEdit, List.mem_flatMap]
  constructor
  · rintro ⟨card, ⟨task, htask, hcard⟩, hcarries⟩
    exact ⟨task, htask, card, hcard, hcarries⟩
  · rintro ⟨task, htask, card, hcard, hcarries⟩
    exact ⟨card, ⟨task, htask, hcard⟩, hcarries⟩

theorem Keeps.of_eq (h : net.Keeps last) (hstore : other.store = net.store)
    (hqueue : other.client.offlineQueue = net.client.offlineQueue) (htasks : other.tasks = net.tasks) :
    other.Keeps last := by
  unfold Keeps Carried
  rw [hstore, hqueue, htasks]
  exact h

theorem Keeps.spawn (h : net.Keeps last) {task : Task} (hstore : other.store = net.store)
    (hqueue : other.client.offlineQueue = net.client.offlineQueue)
    (htasks : other.tasks = net.tasks ++ [task]) : other.Keeps last := by
  unfold Keeps Carried
  rw [hstore, hqueue, htasks, List.flatMap_append, hasEdit_append, List.mem_append]
  exact h.imp_right fun hlocal => hlocal.imp_right fun htasks => htasks.imp .inl .inl

/-- A task that goes on gives the edit up only if the condition allows it. -/
theorem Keeps.advanced (h : net.Keeps last) {task : Nat} {old : Task} {state : ClientState × Progress}
    {forgotten : List Card} (htask : net.tasks[task]? = some old) (hold : old ≠ .panicked)
    (hnext : HasEdit last (net.client.offlineQueue ++ old.cards) →
      HasEdit last forgotten ∨ HasEdit last (state.1.offlineQueue ++ state.2.task.cards) ∨
        state.2 = .panicked)
    (hspares : net.Carried last ∨ ¬ HasEdit last forgotten ∨
      HasEdit last ((net.tasks.eraseIdx task).flatMap Task.cards)) :
    (net.advanced task state).Keeps last := by
  have hlength : task < net.tasks.length := (List.getElem?_eq_some_iff.mp htask).1
  have hself : state.2.task ∈ (net.advanced task state).tasks := List.mem_set hlength _
  have hothers : ∀ other ∈ net.tasks.eraseIdx task, other ∈ (net.advanced task state).tasks := by
    intro other hother
    obtain ⟨position, hne, hposition⟩ := List.mem_eraseIdx_iff_getElem?.mp hother
    refine List.mem_iff_getElem?.mpr ⟨position, ?_⟩
    change (net.tasks.set task state.2.task)[position]? = some other
    rw [List.getElem?_set_ne (Ne.symm hne)]
    exact hposition
  have hwith : ∀ {tasks : List Task}, (∀ other ∈ tasks, other ∈ (net.advanced task state).tasks) →
      HasEdit last (tasks.flatMap Task.cards) → (net.advanced task state).Keeps last := by
    intro tasks hsub hedit
    obtain ⟨other, hother, hcards⟩ := hasEdit_tasks.mp hedit
    exact .inr (.inr (.inl (hasEdit_tasks.mpr ⟨other, hsub other hother, hcards⟩)))
  have hadvanced : HasEdit last (net.client.offlineQueue ++ old.cards) →
      (net.advanced task state).Keeps last := by
    intro hedit
    rcases hnext hedit with hforgotten | hkept | hpanicked
    · rcases hspares with hcarried | hnot | helsewhere
      · exact .inl hcarried
      · exact absurd hforgotten hnot
      · exact hwith hothers helsewhere
    · rcases hasEdit_append.mp hkept with hqueue | hcards
      · exact .inr (.inl hqueue)
      · exact .inr (.inr (.inl (hasEdit_tasks.mpr ⟨_, hself, hcards⟩)))
    · rw [hpanicked] at hself
      exact .inr (.inr (.inr hself))
  -- another task is not touched
  have hcases : ∀ other ∈ net.tasks, other = old ∨ other ∈ net.tasks.eraseIdx task := by
    intro other hother
    obtain ⟨position, hposition⟩ := List.mem_iff_getElem?.mp hother
    by_cases heq : position = task
    · rw [heq, htask] at hposition
      exact .inl (Option.some.inj hposition).symm
    · exact .inr (List.mem_eraseIdx_iff_getElem?.mpr ⟨position, heq, hposition⟩)
  rcases h with hcarried | hqueue | hedit | hpanicked
  · exact .inl hcarried
  · exact hadvanced (hasEdit_append.mpr (.inl hqueue))
  · obtain ⟨other, hother, hcards⟩ := hasEdit_tasks.mp hedit
    rcases hcases other hother with rfl | hrest
    · exact hadvanced (hasEdit_append.mpr (.inr hcards))
    · exact hwith hothers (hasEdit_tasks.mpr ⟨other, hrest, hcards⟩)
  · rcases hcases _ hpanicked with heq | hrest
    · exact absurd heq.symm hold
    · exact .inr (.inr (.inr (hothers _ hrest)))

variable [Blake3]

theorem Keeps.flushSyncTake (h : net.Keeps last) (env : Env) : (net.flushSyncTake env).1.Keeps last :=
  have htaken := net.prepares_flushSyncTake env
  h.of_eq htaken.1.store htaken.2.2 htaken.2.1

theorem Keeps.flushBurst (h : net.Keeps last) (env : Env) : (net.flushBurst env).Keeps last := by
  have htaken := h.flushSyncTake env
  unfold Network.flushBurst
  split
  · rename_i heq
    rw [heq] at htaken
    exact htaken
  · rename_i heq
    rw [heq] at htaken
    exact htaken.spawn rfl rfl rfl
  · rename_i heq
    rw [heq] at htaken
    exact htaken.spawn rfl rfl rfl

omit [Blake3] in
theorem mem_foldl_replaceCard {versions queue : List Card} {entry : Card} (hentry : entry ∈ queue)
    (hother : ∀ version ∈ versions, version.id ≠ entry.id) : entry ∈ versions.foldl replaceCard queue := by
  induction versions generalizing queue with
  | nil => exact hentry
  | cons version rest ih =>
      refine ih (mem_replaceCard.mpr (.inl ⟨hentry, ?_⟩)) fun other hrest =>
        hother other (List.mem_cons_of_mem version hrest)
      exact (hother version List.mem_cons_self).symm

/-- Every version of a burst stands for one of the snapshots, and every snapshot for one of the versions. -/
theorem versions_of_burst {burst : PriorityBurst} {env : Env} {primary : Card} {siblings : List Card}
    (h : burst.buildVersions env = some (primary, siblings)) :
    (∀ version ∈ primary :: siblings, ∃ base ∈ burst.cards.map Prod.fst, OnlyMoved base version) ∧
      ∀ base ∈ burst.cards.map Prod.fst, ∃ version ∈ primary :: siblings, OnlyMoved base version := by
  have hmoves : ∀ {move : Card × I64} {version : Card},
      move.1.reprioritized move.2 env.now = some version → OnlyMoved move.1 version :=
    fun {move version} hnext => (Card.MovesTo.onlyMoved ⟨move.2, env.now, hnext⟩).1
  constructor
  · intro version hversion
    obtain ⟨pair, hpair, rfl⟩ := List.mem_map.mp (PriorityBurst.mem_moves h version hversion)
    obtain ⟨move, hmove, hbuilt⟩ := List.mem_filterMap.mp hpair
    obtain ⟨built, hnext, rfl⟩ := Option.map_eq_some_iff.mp hbuilt
    exact ⟨move.1, List.mem_map_of_mem hmove, hmoves hnext⟩
  · intro base hbase
    obtain ⟨move, hmove, rfl⟩ := List.mem_map.mp hbase
    obtain ⟨first, hfirst, hrest⟩ := Option.bind_eq_some_iff.mp h
    obtain ⟨others, hothers, heq⟩ := Option.bind_eq_some_iff.mp hrest
    cases heq
    rcases List.mem_cons.mp hmove with rfl | hsibling
    · exact ⟨primary, List.mem_cons_self, hmoves hfirst⟩
    · obtain ⟨version, hversion, hnext⟩ :=
        Option.exists_mem_of_mapM hothers ((List.orderBy_perm _ _).mem_iff.mpr hsibling)
      exact ⟨version, List.mem_cons_of_mem primary hversion, hmoves hnext⟩

theorem Keeps.flushBlocking (h : net.Keeps last) (env : Env)
    (hspares : net.SparesEdit last (.flushBlocking env)) : (net.flushBlocking env).Keeps last := by
  unfold Network.flushBlocking Network.flushSyncTake
  cases hpending : net.client.pendingPriority with
  | none => exact h
  | some burst =>
      dsimp only
      cases hbuilt : burst.buildVersions env with
      | none => exact h.spawn rfl rfl rfl
      | some versions =>
          obtain ⟨primary, siblings⟩ := versions
          dsimp only
          have hspawned : HasEdit last (net.tasks.flatMap Task.cards ++ primary :: siblings) →
              HasEdit last ((net.tasks ++ [Task.started (.stashed primary siblings)]).flatMap
                Task.cards) := by
            intro hedit
            rw [List.flatMap_append, List.flatMap_singleton]
            exact hedit
          rcases h with hcarried | ⟨entry, hentry, hcarries⟩ | hedit | hpanicked
          · exact .inl hcarried
          · by_cases hother : ∀ version ∈ primary :: siblings, version.id ≠ entry.id
            · exact .inr (.inl ⟨entry, mem_foldl_replaceCard hentry hother, hcarries⟩)
            · -- a version of the burst takes the place of the entry
              simp only [not_forall, not_not] at hother
              obtain ⟨version, hversion, hid⟩ := hother
              obtain ⟨base, hbase, honly⟩ := (versions_of_burst hbuilt).1 version hversion
              by_cases hsame : HasEdit entry (burst.cards.map Prod.fst)
              · obtain ⟨same, hsame, hcarriesEntry⟩ := hsame
                obtain ⟨again, hagain, hmoved⟩ := (versions_of_burst hbuilt).2 same hsame
                refine .inr (.inr (.inl (hspawned (hasEdit_append.mpr (.inr ⟨again, hagain, ?_⟩)))))
                exact (hcarriesEntry.trans hcarries).of_eq hmoved.id hmoved.fields
              · have hforgotten : HasEdit last (net.forgets (.flushBlocking env)) := by
                  refine ⟨entry, ?_, hcarries⟩
                  unfold Network.forgets ClientState.stashForgets
                  rw [hpending]
                  refine List.mem_filter.mpr ⟨hentry, decide_eq_true ⟨?_, hsame⟩⟩
                  exact List.mem_map.mpr ⟨base, hbase, honly.id.symm.trans hid⟩
                rcases hspares with hcarried | hnot | helsewhere
                · exact .inl hcarried
                · exact absurd hforgotten hnot
                · exact .inr (.inr (.inl (hspawned (hasEdit_append.mpr (.inl helsewhere)))))
          · exact .inr (.inr (.inl (hspawned (hasEdit_append.mpr (.inl hedit)))))
          · exact .inr (.inr (.inr (List.mem_append_left _ hpanicked)))

/-- A push that makes the client try the queue first. -/
theorem Keeps.start_flushing (h : net.Keeps last) {task : Nat} {card : Card}
    (htask : net.tasks[task]? = some (.started (.push card true))) (env : Env)
    (hspared : net.Carried last ∨
      ¬ HasEdit last (startForgets net.client (net.startedJobs env (.push card true))) ∨
      HasEdit last ((net.tasks.eraseIdx task).flatMap Task.cards)) :
    (net.start task env (.push card true)).Keeps last := by
  have htaken := net.prepares_flushSyncTake env
  have hkeeps := h.flushSyncTake env
  have hconnected : (net.flushSyncTake env).1.client.connected = net.client.connected := by
    unfold Network.flushSyncTake
    split <;> rfl
  unfold Network.startedJobs at hspared
  unfold Network.start
  dsimp only at hspared ⊢
  generalize net.flushSyncTake env = taken at htaken hkeeps hconnected hspared ⊢
  obtain ⟨after, built⟩ := taken
  obtain ⟨hprepares, htasks, hqueue⟩ := htaken
  have htask' : after.tasks[task]? = some (.started (.push card true)) := by
    rw [htasks]
    exact htask
  have hcarried : after.Carried last ↔ net.Carried last := by
    unfold Carried
    rw [hprepares.store]
  have hcards : HasEdit last (after.client.offlineQueue ++ (Task.started (.push card true)).cards) →
      ∀ primary siblings, HasEdit last (after.client.offlineQueue ++
        [Job.pushBurst primary siblings, .pushCardOrQueue card].flatMap Job.cards) := by
    intro hedit primary siblings
    refine hedit.mono fun other hother => ?_
    refine List.mem_append.mpr ((List.mem_append.mp hother).imp_right fun hown => ?_)
    exact List.mem_append_right _ hown
  rw [← hcarried, ← htasks] at hspared
  cases built with
  | none =>
      refine hkeeps.advanced htask' (fun heq => by cases heq) (fun hedit => ?_) hspared
      refine (hasEdit_runJobs hedit).imp ?_ .inl
      unfold startForgets
      rw [hconnected, hqueue]
      exact id
  | some versions =>
      cases versions with
      | none =>
          exact hkeeps.advanced htask' (fun heq => by cases heq) (fun _ => .inr (.inr rfl)) hspared
      | some pair =>
          obtain ⟨primary, siblings⟩ := pair
          refine hkeeps.advanced htask' (fun heq => by cases heq) (fun hedit => ?_) hspared
          refine (hasEdit_runJobs (hcards hedit primary siblings)).imp ?_ .inl
          unfold startForgets
          rw [hconnected, hqueue]
          exact id

/-- A task is started. -/
theorem Keeps.start (h : net.Keeps last) {task : Nat} {work : Work}
    (htask : net.tasks[task]? = some (.started work)) (env : Env)
    (hspares : net.SparesEdit last (.start task env)) : (net.start task env work).Keeps last := by
  have hspared : net.Carried last ∨ ¬ HasEdit last (startForgets net.client (net.startedJobs env work)) ∨
      HasEdit last ((net.tasks.eraseIdx task).flatMap Task.cards) := by
    have hforgets : net.forgets (.start task env) = startForgets net.client (net.startedJobs env work) := by
      unfold Network.forgets
      dsimp only
      rw [htask]
    rw [← hforgets]
    exact hspares
  have hruns : ∀ {jobs : List Job}, jobs.flatMap Job.cards = work.cards →
      HasEdit last (net.client.offlineQueue ++ (Task.started work).cards) →
        HasEdit last (startForgets net.client jobs) ∨
          HasEdit last ((runJobs net.client jobs).1.offlineQueue ++
            (runJobs net.client jobs).2.task.cards) ∨ (runJobs net.client jobs).2 = .panicked := by
    intro jobs hjobs hedit
    refine (hasEdit_runJobs ?_).imp_right .inl
    rw [hjobs]
    exact hedit
  cases work with
  | push card flushNow =>
      cases flushNow with
      | false => exact h.advanced htask (fun heq => by cases heq) (hruns rfl) hspared
      | true => exact h.start_flushing htask env hspared
  | burst primary siblings =>
      exact h.advanced htask (fun heq => by cases heq) (hruns (List.append_nil _)) hspared
  | stashed primary siblings =>
      refine h.advanced htask (fun heq => by cases heq) (fun hedit => .inr (.inl ?_)) hspared
      refine hedit.mono fun other hother => ?_
      refine List.mem_append.mpr ((List.mem_append.mp hother).imp_right fun hown => ?_)
      exact List.mem_append_right _ (List.mem_append_left _ hown)
  | sync => exact h.advanced htask (fun heq => by cases heq) (hruns rfl) hspared
  | flush => exact h.advanced htask (fun heq => by cases heq) (hruns rfl) hspared

/-- A waiting task goes on with an answer that accepts no more than the one it waits with. -/
theorem Keeps.answered (h : net.Keeps last) (hsound : net.Sound) {task : Nat} {stage : Stage}
    {jobs : List Job} {response : Option Response}
    (htask : net.tasks[task]? = some (.waiting stage jobs response)) (env : Env) {answer : Answer}
    (haccepts : answer.accepts = true → (response.any fun response => Answer.accepts (.ok response)) = true)
    (hshows : ∀ entry ∈ stage.asked?, answer.Shows (fun _ ancestor => ancestor ∈ net.history) entry)
    (hspares : net.Carried last ∨ ¬ HasEdit last (advanceForgets env net.client stage jobs answer) ∨
      HasEdit last ((net.tasks.eraseIdx task).flatMap Task.cards)) :
    (net.advanced task (advance env net.client stage jobs answer)).Keeps last := by
  have hbuilt := (hsound.built _ (List.mem_of_getElem? htask)).1
  refine h.advanced htask (fun heq => by cases heq) (fun hedit => ?_) hspares
  refine hasEdit_advance hbuilt hshows (hedit.mono fun card hcard => ?_)
  refine List.mem_append.mpr ((List.mem_append.mp hcard).imp_right fun hown => ?_)
  refine List.mem_append.mpr ((List.mem_append.mp hown).imp_left fun hpoint => ?_)
  refine List.mem_append.mpr ((List.mem_append.mp hpoint).imp_left fun hpending => ?_)
  by_cases haccepted : answer.accepts = true
  · rw [haccepts haccepted] at hpending
    cases hpending
  · rw [if_neg haccepted]
    split at hpending
    · cases hpending
    · exact hpending

theorem Keeps.deliver (h : net.Keeps last) (hsound : net.Sound) {task : Nat} {stage : Stage}
    {jobs : List Job} {response : Option Response}
    (htask : net.tasks[task]? = some (.waiting stage jobs response)) (env : Env)
    (hspares : net.SparesEdit last (.deliver task env)) :
    (net.deliver task env stage jobs response).Keeps last := by
  unfold SparesEdit Network.forgets at hspares
  dsimp only at hspares
  rw [htask] at hspares
  unfold Network.deliver
  cases response with
  | some response => exact h.answered hsound htask env id (hsound.built.shows_of_answer htask) hspares
  | none =>
      cases hrequest : stage.request? with
      | some request => exact h
      | none =>
          dsimp only at hspares ⊢
          rw [hrequest, Option.isNone_none, if_pos rfl] at hspares
          exact h.answered hsound htask env (fun hno => by cases hno)
            (fun id _ => Answer.shows_lost id) hspares

theorem Keeps.lose (h : net.Keeps last) (hsound : net.Sound) {task : Nat} {stage : Stage}
    {jobs : List Job} {response : Option Response}
    (htask : net.tasks[task]? = some (.waiting stage jobs response)) (env : Env)
    (hspares : net.SparesEdit last (.lose task env)) :
    (net.lose task env stage jobs response).Keeps last := by
  unfold SparesEdit Network.forgets at hspares
  dsimp only at hspares
  rw [htask] at hspares
  have hadvanced := h.answered hsound htask env (fun hno => by cases hno)
    (fun id _ => Answer.shows_lost id) hspares
  unfold Network.lose
  split
  · dsimp only
    split
    · exact hadvanced
    · exact hadvanced.spawn rfl rfl rfl
  · exact h

omit [Blake3] in
/-- Every local version of a request is sent in some form. -/
theorem exists_sent {stage : Stage} {card : Card} (hsends : stage.sends ≠ []) (hcard : card ∈ stage.pending) :
    ∃ version, (card, version) ∈ stage.sends := by
  cases stage with
  | pushBatch primary siblings => exact ⟨card, List.mem_map_of_mem hcard⟩
  | flush loop entry stage =>
      obtain rfl := List.mem_singleton.mp hcard
      cases stage with
      | fetch cards => exact absurd rfl hsends
      | batch shifted version => exact ⟨version, List.mem_append_right _ List.mem_cons_self⟩
      | _ => exact ⟨_, List.mem_cons_self⟩
  | push entry =>
      obtain rfl := List.mem_singleton.mp hcard
      exact ⟨card, List.mem_cons_self⟩
  | pushRebased entry version =>
      obtain rfl := List.mem_singleton.mp hcard
      exact ⟨version, List.mem_cons_self⟩
  | pushRecreated entry version =>
      obtain rfl := List.mem_singleton.mp hcard
      exact ⟨version, List.mem_cons_self⟩
  | _ => cases hcard

omit [Blake3] in
/-- What a task loses with an answer is what the request was for. -/
theorem hasEdit_answered {task : Task} {stage : Stage} (hopen : task.open? = some stage)
    {response : Response} (h : HasEdit last task.cards) :
    HasEdit last (task.answered response).cards ∨
      Answer.accepts (.ok response) = true ∧ HasEdit last stage.pending := by
  cases task with
  | started work => cases hopen
  | finished => cases hopen
  | panicked => cases hopen
  | orphaned waits => exact absurd h hasEdit_nil
  | waiting waits jobs answer =>
      cases answer with
      | some answer => cases hopen
      | none =>
          cases hopen
          have hcards : (Task.waiting stage jobs (some response)).cards =
              stage.cards (Answer.accepts (.ok response)) ++ jobs.flatMap Job.cards := rfl
          rw [Task.answered, hcards]
          cases haccepts : Answer.accepts (.ok response) with
          | false => exact .inl h
          | true =>
              rcases hasEdit_append.mp h with hpoint | hjobs
              · rcases hasEdit_append.mp hpoint with hpending | hlater
                · exact .inr ⟨rfl, hpending⟩
                · exact .inl (hasEdit_append.mpr (.inl hlater))
              · exact .inl (hasEdit_append.mpr (.inr hjobs))

omit [Blake3] in
theorem mem_modify {α : Type} {items : List α} {index : Nat} {old : α} (f : α → α)
    (hold : items[index]? = some old) : f old ∈ items.modify index f ∧
      ∀ item ∈ items, item = old ∨ item ∈ items.modify index f := by
  constructor
  · refine List.mem_iff_getElem?.mpr ⟨index, ?_⟩
    rw [List.getElem?_modify_eq, hold]
    rfl
  · intro item hitem
    obtain ⟨position, hposition⟩ := List.mem_iff_getElem?.mp hitem
    by_cases heq : index = position
    · rw [← heq, hold] at hposition
      exact .inl (Option.some.inj hposition).symm
    · refine .inr (List.mem_iff_getElem?.mpr ⟨position, ?_⟩)
      rw [List.getElem?_modify_ne _ _ heq]
      exact hposition

omit [Blake3] in
/-- The server accepts a version of the edit, and nothing else gets on top of it. -/
theorem applyAll_sent {current : Uuid → Option Card} {pairs : List (Card × Card)} {id : Uuid}
    {good : Option Card → Prop} {pair : Card × Card} (hpair : pair ∈ pairs) (hid : pair.2.id = id)
    (hgood : good (some pair.2))
    (hstep : ∀ acceptance ∈ acceptances current pairs, acceptance.version.id = id →
      good acceptance.before → good (some acceptance.version)) :
    good (Overlay.applyAll current ((pairs.map Prod.snd).map versionWrite) id) := by
  induction pairs generalizing current with
  | nil => cases hpair
  | cons first rest ih =>
      have hlater : ∀ acceptance ∈ acceptances (Function.update current first.2.id (some first.2)) rest,
          acceptance.version.id = id → good acceptance.before → good (some acceptance.version) :=
        fun acceptance hacceptance => hstep acceptance (List.mem_cons_of_mem _ hacceptance)
      rw [List.map_cons, List.map_cons, Overlay.applyAll_cons]
      rcases List.mem_cons.mp hpair with rfl | hrest
      · refine applyAll_acceptances ?_ hlater
        rw [Overlay.apply, versionWrite, hid, Function.update_self]
        exact hgood
      · exact ih hrest hlater

omit [Blake3] in
theorem accepts_of_refused {response : Response} (hrefused : ∀ root, response ≠ .root root) :
    Answer.accepts (.ok response) = false := by
  unfold Answer.accepts
  split
  · rename_i root hroot
    unfold Answer.intoRoot at hroot
    split at hroot
    · rename_i heq
      exact absurd (Except.ok.inj heq) (hrefused _)
    · cases hroot
    · cases hroot
    · cases hroot
  · rfl

/-- The server handles a request. -/
theorem Keeps.handle (h : net.Keeps last) (hsound : net.Sound) {task : Nat} {stage : Stage}
    {request : Request} (hopen : net.open? task = some stage) (hrequest : stage.request? = some request)
    (now : Int) (hspares : net.SparesEdit last (.handle task now)) :
    (net.handle task now request).Keeps last := by
  obtain ⟨old, hold, hstage⟩ := Option.bind_eq_some_iff.mp hopen
  obtain ⟨hself, hothers⟩ := mem_modify (Task.answered (handleRequest net.store now request).2) hold
  have hedits : HasEdit last (net.tasks.flatMap Task.cards) →
      (net.handle task now request).Keeps last ∨
        Answer.accepts (.ok (handleRequest net.store now request).2) = true ∧
          HasEdit last stage.pending := by
    intro hedit
    obtain ⟨other, hother, hcards⟩ := hasEdit_tasks.mp hedit
    rcases hothers other hother with rfl | hstays
    · refine (hasEdit_answered hstage hcards).imp_left fun hkept => ?_
      exact .inr (.inr (.inl (hasEdit_tasks.mpr ⟨_, hself, hkept⟩)))
    · exact .inl (.inr (.inr (.inl (hasEdit_tasks.mpr ⟨other, hstays, hcards⟩))))
  have hpanicked : Task.panicked ∈ net.tasks → (net.handle task now request).Keeps last := by
    intro hmem
    rcases hothers _ hmem with rfl | hstays
    · cases hstage
    · exact .inr (.inr (.inr hstays))
  rcases handle_cases net.store now hrequest with ⟨hne, haccepts, -⟩ | ⟨hsame, -, hrefused⟩
  · -- each version of the request keeps the fields of the edit
    have hstep : ∀ acceptance ∈ acceptances net.store.cards.current stage.sends,
        acceptance.version.id = last.id → (∃ current ∈ acceptance.before, current.fields = last.fields) →
          ∃ current ∈ some acceptance.version, current.fields = last.fields := by
      rintro acceptance hacceptance hid ⟨current, hcurrent, hfields⟩
      have hspared : acceptance ∈ acceptances net.store.cards.current
          (((net.open? task).map Stage.sends).getD []) := by
        rw [hopen]
        exact hacceptance
      refine ⟨_, rfl, hspares acceptance hspared hid current hcurrent hfields ?_⟩
      rw [haccepts.linked acceptance hacceptance, hcurrent]
      rfl
    rcases h with hcarried | hqueue | hedit | hmem
    · exact .inl (@Accepts.current_induction _ _ _ _ haccepts last.id
        (fun current => ∃ card ∈ current, card.fields = last.fields) hcarried hstep)
    · exact .inr (.inl hqueue)
    · rcases hedits hedit with hkept | ⟨-, card, hcard, hcarries⟩
      · exact hkept
      · obtain ⟨version, hsent⟩ := exists_sent hne hcard
        have hrebuilds := hsound.built.of_open hopen _ hsent
        have hcurrent := @applyAll_sent _ _ last.id (fun current => ∃ card ∈ current, card.fields = last.fields)
          _ hsent (hrebuilds.id.trans hcarries.1)
          ⟨version, rfl, hrebuilds.fields.trans hcarries.2⟩ hstep
        rw [← haccepts.current] at hcurrent
        exact .inl hcurrent
    · exact hpanicked hmem
  · rcases h with hcarried | hqueue | hedit | hmem
    · refine .inl ?_
      unfold Carried
      rw [show (net.handle task now request).store = (handleRequest net.store now request).1 from rfl,
        hsame]
      exact hcarried
    · exact .inr (.inl hqueue)
    · refine (hedits hedit).resolve_right fun ⟨haccepted, _⟩ => ?_
      rw [accepts_of_refused hrefused] at haccepted
      cases haccepted
    · exact hpanicked hmem

theorem Keeps.recordMove (h : net.Keeps last) (prevCard : Card) (newPriority : I64)
    (siblingsWithPrev : List (Card × I64)) (env : Env) :
    (net.recordMove prevCard newPriority siblingsWithPrev env).Keeps last := by
  unfold Network.recordMove
  dsimp only
  split
  · exact h.of_eq rfl (by rw [foldl_upsertCard]) rfl
  · exact h.spawn rfl rfl rfl

theorem Keeps.step (h : net.Keeps last) (hsound : net.Sound) (step : NetworkStep)
    (hspares : net.SparesEdit last step) : (net.step step).Keeps last := by
  cases step with
  | foreign call =>
      refine h.imp_left fun hcarried => ?_
      unfold Carried
      rw [show (net.step (.foreign call)).store = execute net.store call from rfl, hspares]
      exact hcarried
  | connect connected => exact h
  | edit card flushNow => exact h.spawn rfl rfl rfl
  | move prevCard newPriority siblingsWithPrev debounced before shown after =>
      unfold Network.step enqueueMove
      dsimp only
      have hbefore :
          (if net.client.bursting prevCard.id then net.flushBurst before else net).Keeps last := by
        split
        · exact h.flushBurst before
        · exact h
      have hrecorded := hbefore.recordMove prevCard newPriority siblingsWithPrev shown
      split
      · exact hrecorded
      · exact hrecorded.flushBurst after
  | flushBurst env => exact h.flushBurst env
  | flushBlocking env => exact h.flushBlocking env hspares
  | sync => exact h.spawn rfl rfl rfl
  | flush => exact h.spawn rfl rfl rfl
  | start task env =>
      exact step_start (p := (·.Keeps last)) h fun _ htask => h.start htask env hspares
  | handle task now =>
      exact step_handle (p := (·.Keeps last)) h fun _ _ hopen hstage =>
        h.handle hsound hopen hstage now hspares
  | deliver task env =>
      exact step_deliver (p := (·.Keeps last)) h fun _ _ _ htask =>
        h.deliver hsound htask env hspares
  | lose task env =>
      exact step_lose (p := (·.Keeps last)) h fun _ _ _ htask =>
        h.lose hsound htask env hspares
  | restart => exact hspares.imp id .inl

omit [Blake3] in
/-- Where all tasks are done and nothing is queued, the edit is with the server. -/
theorem Keeps.carried (h : net.Keeps last) (hdone : ∀ task ∈ net.tasks, task.isDone = true)
    (hqueue : net.client.offlineQueue = []) : net.Carried last := by
  rcases h with hcarried | hqueued | hedit | hpanicked
  · exact hcarried
  · rw [hqueue] at hqueued
    exact absurd hqueued hasEdit_nil
  · obtain ⟨task, htask, hcards⟩ := hasEdit_tasks.mp hedit
    have htaskDone := hdone task htask
    cases task with
    | finished => exact absurd hcards hasEdit_nil
    | orphaned stage => exact absurd hcards hasEdit_nil
    | started work => cases htaskDone
    | waiting stage jobs answer => cases htaskDone
    | panicked => cases htaskDone
  · cases hdone _ hpanicked

end Network

/-- After an edit, a run that spares it ends with the server on the edit. -/
theorem lastEdit_run [Blake3] (store : Store) (client : ClientState) (earlier later : List NetworkStep)
    (last : Card) (flushNow : Bool) :
    let edited := (Run.after Network.step (.new store client) earlier).step (.edit last flushNow)
    let final := Run.after Network.step edited later
    Run.Meets Network.step (Network.SparesEdit last) edited later →
      (∀ task ∈ final.tasks, task.isDone = true) → final.client.offlineQueue = [] →
        ∃ current ∈ final.store.cards.current last.id, current.fields = last.fields := by
  intro edited final hspares hdone hqueue
  have hsound : (Run.after Network.step (.new store client) earlier).Sound :=
    Run.invariant Network.Sound (Network.sound_new store client) (fun _ step h => h.step step) earlier
  have hedited : edited.Keeps last := by
    refine .inr (.inr (.inl (Network.hasEdit_tasks.mpr ⟨.started (.push last flushNow), ?_, ?_⟩)))
    · exact List.mem_append_right _ List.mem_cons_self
    · exact ⟨last, List.mem_cons_self, rfl, rfl⟩
  have hfinal : final.Sound ∧ final.Keeps last :=
    hspares.invariant (fun net => net.Sound ∧ net.Keeps last) ⟨hsound.step _, hedited⟩
      fun _ step h hstep => ⟨h.1.step step, h.2.step h.1 step hstep⟩
  exact hfinal.2.carried hdone hqueue

/-! ### Two edits -/

def firstEdit : Card := sampleEdit (sampleCard 1 ⟨7, seven_mem_i64⟩) "first"

def secondEdit : Card := sampleEdit firstEdit "second"

def betweenEdits : Network :=
  let _ := polynomialBlake3
  Run.after Network.step
    (.new (Run.after execute initSchema oneCard) (sampleClient [sampleCard 1 ⟨7, seven_mem_i64⟩] []))
    [.edit firstEdit false, .start 0 sampleEnv]

/-- The pushes are handled in the order of the edits. -/
theorem lastEdit_run_inOrder :
    let _ := polynomialBlake3
    let final := Run.after Network.step (betweenEdits.step (.edit secondEdit false))
      [.start 1 sampleEnv, .handle 0 0, .handle 1 0, .deliver 1 sampleEnv, .deliver 0 sampleEnv]
    ∃ current ∈ final.store.cards.current secondEdit.id, current.fields = secondEdit.fields :=
  @lastEdit_run polynomialBlake3 _ _ [.edit firstEdit false, .start 0 sampleEnv] _ secondEdit false
    (by decide +kernel) (by decide +kernel) (by decide +kernel)

/-- The push of the second edit comes first and is built anew without the first edit, which then gets on
top of it. -/
theorem not_carried_overtaken :
    let _ := polynomialBlake3
    let final := Run.after Network.step (betweenEdits.step (.edit secondEdit false))
      [.start 1 sampleEnv, .handle 1 0, .deliver 1 sampleEnv, .handle 1 0, .handle 0 0,
        .deliver 0 sampleEnv, .handle 0 0, .deliver 1 sampleEnv, .deliver 0 sampleEnv]
    (∀ task ∈ final.tasks, task.isDone = true) ∧ final.client.offlineQueue = [] ∧
      ¬ ∃ current ∈ final.store.cards.current secondEdit.id, current.fields = secondEdit.fields := by
  decide +kernel

end BlazeList
