import BlazeList.Client.Tasks
import BlazeList.Lib.Run

/-!
# What becomes of a queued card

A flush works through the queue card by card. For each card it makes up to three requests, and then it
puts the card back, or has seen it settled by the server, or gives it up.
-/

namespace BlazeList

/-! ### The exchanges of a flush -/

def FlushStage.version? (card : Card) : FlushStage → Option Card
  | .push => some card
  | .fetch _ => none
  | .retry version => some version
  | .batch _ version => some version
  | .rebased version => some version
  | .recreated version => some version

structure Exchange where
  card : Card
  stage : FlushStage
  answer : Answer

namespace Exchange

/-- A version with the fields of the card is on the server. -/
def Accepted (exchange : Exchange) : Prop :=
  (∃ root, exchange.answer.intoRoot = .ok root) ∧
    ∃ version ∈ exchange.stage.version? exchange.card, version.fields = exchange.card.fields

def AnsweredDeleted (exchange : Exchange) : Prop :=
  exchange.answer.intoRoot = .error (.protocol (.pushFailed .alreadyDeleted)) ∧
    (exchange.stage.version? exchange.card).isSome

def Settled (exchange : Exchange) : Prop := exchange.Accepted ∨ exchange.AnsweredDeleted

/-- The rebased version is refused, and not because the card is deleted. -/
def RebaseRejected (exchange : Exchange) : Prop :=
  (∃ rebased, exchange.stage = .rebased rebased) ∧
    ∃ error, exchange.answer.intoRoot = .error error ∧ error ≠ .connectionLost ∧
      error ≠ .protocol (.pushFailed .alreadyDeleted)

def Quiet (exchange : Exchange) : Prop := ¬ exchange.Settled ∧ ¬ exchange.RebaseRejected

theorem RebaseRejected.not_settled {exchange : Exchange} (h : exchange.RebaseRejected) :
    ¬ exchange.Settled := by
  obtain ⟨-, error, herror, -, hne⟩ := h
  rintro (⟨⟨root, hroot⟩, -⟩ | ⟨hdeleted, -⟩)
  · rw [herror] at hroot
    cases hroot
  · rw [herror] at hdeleted
    exact hne (Except.error.inj hdeleted)

end Exchange

section

variable [Blake3]

def FlushStage.Sound (card : Card) (stage : FlushStage) : Prop :=
  ∀ version ∈ stage.version? card, version.fields = card.fields ∧
    ∀ recreated, stage = .recreated recreated → recreated = card.recreated

theorem FlushStage.sound_push (card : Card) : FlushStage.Sound card .push := by
  rintro _ ⟨⟩
  exact ⟨rfl, fun _ h => by cases h⟩

theorem FlushStage.sound_of_rebuilt {card version : Card} {priority : I64} {ancestor : Option Card}
    {stage : FlushStage} (hversion : stage.version? card = some version)
    (hrebuilt : Rebuilt card priority ancestor version)
    (hstage : ∀ recreated, stage ≠ .recreated recreated) : FlushStage.Sound card stage := by
  intro other hother
  obtain rfl : version = other := Option.some.inj (hversion.symm.trans hother)
  exact ⟨hrebuilt.fields, fun recreated h => absurd h (hstage recreated)⟩

/-! ### One answer -/

/-- The card is put back as a new first version, which the server has not accepted. -/
def Exchange.Recreates (exchange : Exchange) (entry : Card) : Prop :=
  entry = exchange.card.recreated ∧ (∃ version, exchange.stage = .recreated version) ∧
    ∀ root, exchange.answer.intoRoot ≠ .ok root

inductive Verdict (exchange : Exchange) : Option Card → Bool → Prop
  | kept {entry : Card} {hit : Bool} (hentry : entry = exchange.card ∨ exchange.Recreates entry)
      (hrejected : ¬ exchange.RebaseRejected) : Verdict exchange (some entry) hit
  | settled (hsettled : exchange.Settled) : Verdict exchange none false
  | givenUp (hrejected : exchange.RebaseRejected) : Verdict exchange none false

inductive Resumed (client : ClientState) (loop : FlushLoop) (exchange : Exchange) :
    ClientState × Next → Prop
  | panic : Resumed client loop exchange (client, .panic)
  | again {stage : FlushStage} (hsound : stage.Sound exchange.card) (hquiet : exchange.Quiet) :
      Resumed client loop exchange (client, .await (.flush loop exchange.card stage) [])
  | next {after : ClientState} {kept : Option Card} {hit : Bool}
      (hqueue : after.offlineQueue = client.offlineQueue)
      (hverdict : Verdict exchange kept hit) :
      Resumed client loop exchange (continueFlush after loop kept hit)

section

variable {env : Env} {client : ClientState} {loop : FlushLoop} {card : Card}

omit [Blake3] in
theorem not_rebaseRejected_of_stage {stage : FlushStage} {answer : Answer}
    (hstage : ∀ rebased, stage ≠ .rebased rebased) :
    ¬ (Exchange.mk card stage answer).RebaseRejected := by
  rintro ⟨⟨rebased, hrebased⟩, -⟩
  exact hstage rebased hrebased

omit [Blake3] in
theorem not_rebaseRejected_of_lost {stage : FlushStage} {answer : Answer}
    (hlost : answer.intoRoot = .error .connectionLost) :
    ¬ (Exchange.mk card stage answer).RebaseRejected := by
  rintro ⟨-, error, herror, hne, -⟩
  exact hne (Except.error.inj (herror.symm.trans hlost))

omit [Blake3] in
theorem quiet_of_error {stage : FlushStage} {answer : Answer} {error : ClientError}
    (herror : answer.intoRoot = .error error)
    (hdeleted : error ≠ .protocol (.pushFailed .alreadyDeleted))
    (hstage : ∀ rebased, stage ≠ .rebased rebased) : (Exchange.mk card stage answer).Quiet := by
  refine ⟨?_, not_rebaseRejected_of_stage hstage⟩
  rintro (⟨⟨root, hroot⟩, -⟩ | ⟨heq, -⟩)
  · simp [herror] at hroot
  · exact hdeleted (Except.error.inj (herror.symm.trans heq))

omit [Blake3] in
theorem fetch_ne_rebased {cards : List Card} (rebased : Card) :
    FlushStage.fetch cards ≠ .rebased rebased := by
  intro h
  cases h

omit [Blake3] in
/-- The fetch of the current version settles nothing. -/
theorem quiet_fetch {cards : List Card} {answer : Answer} :
    (Exchange.mk card (.fetch cards) answer).Quiet := by
  refine ⟨?_, not_rebaseRejected_of_stage fetch_ne_rebased⟩
  rintro (⟨-, version, hversion, -⟩ | ⟨-, hsome⟩)
  · cases hversion
  · cases hsome

theorem resumed_placeQueued {exchange : Exchange} {cards : List Card} {ancestor : Option Card}
    (hquiet : exchange.Quiet) :
    Resumed client loop exchange
      (placeQueued env client loop exchange.card cards ancestor) := by
  unfold placeQueued
  split
  · rename_i newPriority _
    cases hretry : rebuildCard env.now exchange.card newPriority ancestor with
    | none => exact .panic
    | some retry =>
        refine .again (FlushStage.sound_of_rebuilt rfl (rebuilt_of_rebuildCard hretry) ?_) hquiet
        exact fun _ h => by cases h
  · rename_i priority shifted _
    cases hretry : rebuildCard env.now exchange.card priority ancestor with
    | none => exact .panic
    | some retry =>
        cases buildShiftedVersions shifted cards env.now with
        | none => exact .panic
        | some versions =>
            refine .again (FlushStage.sound_of_rebuilt rfl (rebuilt_of_rebuildCard hretry) ?_) hquiet
            exact fun _ h => by cases h

theorem resumed_afterFlushPush {answer : Answer} :
    Resumed client loop ⟨card, .push, answer⟩ (afterFlushPush env client loop card answer) := by
  have hne : ∀ rebased, FlushStage.push ≠ .rebased rebased := fun _ h => by cases h
  unfold afterFlushPush
  split
  · rename_i root hroot
    exact .next rfl (.settled (.inl ⟨⟨root, hroot⟩, card, rfl, rfl⟩))
  · exact .next rfl (.kept (.inl rfl) (not_rebaseRejected_of_stage hne))
  · rename_i conflictingId priority herror
    have hquiet : (Exchange.mk card .push answer).Quiet := quiet_of_error herror (by simp) hne
    dsimp only
    split
    · exact .again (fun _ h => by cases h) hquiet
    · exact resumed_placeQueued hquiet
  · rename_i serverCard herror
    have hquiet : (Exchange.mk card .push answer).Quiet := quiet_of_error herror (by simp) hne
    split
    · rename_i rebased hrebased
      refine .again (FlushStage.sound_of_rebuilt rfl (rebuilt_of_rebuildCard hrebased) ?_) hquiet
      exact fun _ h => by cases h
    · exact .panic
  · rename_i herror
    have hquiet : (Exchange.mk card .push answer).Quiet := quiet_of_error herror (by simp) hne
    rw [rebuildCard_none]
    refine .again ?_ hquiet
    rintro _ ⟨⟩
    exact ⟨(recreated_rebuilt card).fields, fun _ h => by cases h; rfl⟩
  · rename_i herror
    exact .next rfl (.settled (.inr ⟨herror, rfl⟩))
  · exact .next rfl (.kept (.inl rfl) (not_rebaseRejected_of_stage hne))

/-- What a retry under another priority does with its answer. -/
theorem resumed_retry {stage : FlushStage} {retry : Card} {after : ClientState} {answer : Answer}
    (hversion : stage.version? card = some retry) (hsound : stage.Sound card)
    (hstage : ∀ rebased, stage ≠ .rebased rebased)
    (hqueue : after.offlineQueue = client.offlineQueue) {entry : Card}
    (hentry : (∀ root, answer.intoRoot ≠ .ok root) →
      entry = card ∨ Exchange.Recreates ⟨card, stage, answer⟩ entry) :
    Resumed client loop ⟨card, stage, answer⟩
      (afterRetry client after loop entry answer) := by
  unfold afterRetry
  split
  · rename_i root hroot
    exact .next hqueue
      (.settled (.inl ⟨⟨root, hroot⟩, retry, hversion, (hsound retry hversion).1⟩))
  · rename_i herror
    exact .next rfl (.kept (hentry (by simp [herror])) (not_rebaseRejected_of_stage hstage))
  · rename_i herror
    exact .next rfl (.kept (hentry (by simp [herror])) (not_rebaseRejected_of_stage hstage))

theorem resumed_resumeFlush {stage : FlushStage} {answer : Answer} (hsound : stage.Sound card) :
    Resumed client loop ⟨card, stage, answer⟩ (resumeFlush env client loop card stage answer) := by
  cases stage with
  | push => exact resumed_afterFlushPush
  | fetch cards =>
      unfold resumeFlush
      dsimp only
      split
      · exact resumed_placeQueued quiet_fetch
      · exact .next rfl (.kept (.inl rfl) (not_rebaseRejected_of_stage fetch_ne_rebased))
      · exact .next rfl (.kept (.inl rfl) (not_rebaseRejected_of_stage fetch_ne_rebased))
  | retry retry =>
      have hqueue : (client.upsertCard retry).offlineQueue = client.offlineQueue := rfl
      exact resumed_retry rfl hsound (fun _ h => by cases h) hqueue fun _ => .inl rfl
  | batch shifted retry =>
      have hqueue : ((shifted.foldl ClientState.upsertCard client).upsertCard retry).offlineQueue =
          client.offlineQueue := by
        rw [foldl_upsertCard]
        rfl
      exact resumed_retry rfl hsound (fun _ h => by cases h) hqueue fun _ => .inl rfl
  | rebased rebased =>
      unfold resumeFlush
      dsimp only
      split
      · rename_i root hroot
        exact .next rfl (.settled (.inl ⟨⟨root, hroot⟩, rebased, rfl, (hsound rebased rfl).1⟩))
      · rename_i hlost
        exact .next rfl (.kept (.inl rfl) (not_rebaseRejected_of_lost hlost))
      · rename_i error hlost herror
        by_cases hdeleted : error = .protocol (.pushFailed .alreadyDeleted)
        · exact .next rfl (.settled (.inr ⟨hdeleted ▸ herror, rfl⟩))
        · exact .next rfl (.givenUp ⟨⟨rebased, rfl⟩, error, herror, hlost, hdeleted⟩)
  | recreated recreated =>
      have hrecreated : recreated = card.recreated := (hsound recreated rfl).2 recreated rfl
      have hqueue : (client.upsertCard recreated).offlineQueue = client.offlineQueue := rfl
      exact resumed_retry rfl hsound (fun _ h => by cases h) hqueue fun herror =>
        .inr ⟨hrecreated, ⟨recreated, rfl⟩, herror⟩

end

/-! ### The cards a flush is done with -/

def GivenUp (log : List Exchange) (card : Card) : Prop :=
  ∃ exchange ∈ log, exchange.card = card ∧ exchange.RebaseRejected

def SettledIn (log : List Exchange) (card : Card) : Prop :=
  ∃ exchange ∈ log, exchange.card = card ∧ exchange.Settled

/-- The cards `done` after the exchanges `log`, of which `kept` are put back. -/
structure Processed (log : List Exchange) (kept done : List Card) : Prop where
  outcome : ∀ card ∈ done,
    (card ∈ kept ∨ card.recreated ∈ kept) ∨ SettledIn log card ∨ GivenUp log card
  logged : ∀ exchange ∈ log, exchange.card ∈ done
  kept_ids : ∀ entry ∈ kept, entry.id ∈ done.map Card.id
  givenUp : (done.map Card.id).Nodup → ∀ card ∈ done, GivenUp log card →
    ¬ SettledIn log card ∧ card.id ∉ kept.map Card.id

theorem processed_nil : Processed [] [] [] where
  outcome _ hcard := absurd hcard List.not_mem_nil
  logged _ hexchange := absurd hexchange List.not_mem_nil
  kept_ids _ hentry := absurd hentry List.not_mem_nil
  givenUp _ _ hcard := absurd hcard List.not_mem_nil

omit [Blake3] in
theorem SettledIn.mono {log more : List Exchange} {card : Card} (h : SettledIn log card)
    (hmore : log ⊆ more) : SettledIn more card := by
  obtain ⟨exchange, hmem, hcard, hsettled⟩ := h
  exact ⟨exchange, hmore hmem, hcard, hsettled⟩

omit [Blake3] in
theorem GivenUp.mono {log more : List Exchange} {card : Card} (h : GivenUp log card)
    (hmore : log ⊆ more) : GivenUp more card := by
  obtain ⟨exchange, hmem, hcard, hrejected⟩ := h
  exact ⟨exchange, hmore hmem, hcard, hrejected⟩

section

variable {log current : List Exchange} {kept done : List Card} {card : Card}

/-- After a connection error the rest is kept as it is. -/
theorem Processed.keep (h : Processed log kept done) (rest : List Card) :
    Processed log (kept ++ rest) (done ++ rest) where
  outcome other hother := by
    rcases List.mem_append.mp hother with hdone | hrest
    · refine (h.outcome other hdone).imp_left fun hkept => ?_
      exact hkept.imp (List.mem_append_left rest) (List.mem_append_left rest)
    · exact .inl (.inl (List.mem_append_right kept hrest))
  logged exchange hexchange := List.mem_append_left rest (h.logged exchange hexchange)
  kept_ids entry hentry := by
    rw [List.map_append, List.mem_append]
    rcases List.mem_append.mp hentry with hkept | hrest
    · exact .inl (h.kept_ids entry hkept)
    · exact .inr (List.mem_map_of_mem hrest)
  givenUp hnodup other hother hgivenUp := by
    obtain ⟨exchange, hexchange, rfl, -⟩ := id hgivenUp
    have hdone : exchange.card ∈ done := h.logged exchange hexchange
    rw [List.map_append, List.nodup_append] at hnodup
    obtain ⟨hnot, hkept⟩ := h.givenUp hnodup.1 _ hdone hgivenUp
    refine ⟨hnot, ?_⟩
    rw [List.map_append, List.mem_append, not_or]
    refine ⟨hkept, fun hrest => ?_⟩
    exact hnodup.2.2 _ (List.mem_map_of_mem hdone) _ hrest rfl

section Verdict

variable {last : Exchange} {entry : Option Card} {hit : Bool}

/-- What a card leaves in the queue is the card or its recreation. -/
theorem Verdict.entry_id (hverdict : Verdict last entry hit) (hlast : last.card = card) :
    ∀ put ∈ entry, put.id = card.id := by
  intro put hput
  cases hverdict with
  | kept heq _ =>
      obtain rfl := Option.some.inj hput
      rcases heq.imp_right And.left with rfl | rfl
      · rw [hlast]
      · rw [← hlast]
        exact (recreated_rebuilt last.card).id
  | settled _ => cases hput
  | givenUp _ => cases hput

/-- The outcome of the card itself. -/
theorem Verdict.outcome (hverdict : Verdict last entry hit) (hlast : last.card = card)
    (hmem : last ∈ log) :
    (card ∈ kept ++ entry.toList ∨ card.recreated ∈ kept ++ entry.toList) ∨ SettledIn log card ∨
      GivenUp log card := by
  cases hverdict with
  | kept heq _ =>
      rcases heq.imp_right And.left with rfl | rfl
      · exact .inl (.inl (List.mem_append_right kept (hlast ▸ List.mem_cons_self)))
      · exact .inl (.inr (List.mem_append_right kept (hlast ▸ List.mem_cons_self)))
  | settled hsettled => exact .inr (.inl ⟨last, hmem, hlast, hsettled⟩)
  | givenUp hrejected => exact .inr (.inr ⟨last, hmem, hlast, hrejected⟩)

omit [Blake3] in
/-- The exchanges of a card that was done before are all in `log`. -/
theorem mem_log_of_done (hcurrent : ∀ exchange ∈ current, exchange.card = card ∧ exchange.Quiet)
    (hlast : last.card = card) (hnew : card ∉ done) {other : Card} (hdone : other ∈ done)
    {exchange : Exchange} (hexchange : exchange ∈ log ++ current ++ [last])
    (hother : exchange.card = other) : exchange ∈ log := by
  rw [List.mem_append, List.mem_append, List.mem_singleton] at hexchange
  rcases hexchange with (hlogged | hcurr) | rfl
  · exact hlogged
  · exact absurd ((hcurrent exchange hcurr).1 ▸ hother ▸ hdone) hnew
  · exact absurd (hlast ▸ hother ▸ hdone) hnew

/-- Those of the card itself are in `current`, which is quiet, and the last one. -/
theorem Processed.quiet_or_last (h : Processed log kept done)
    (hcurrent : ∀ exchange ∈ current, exchange.card = card ∧ exchange.Quiet) (hnew : card ∉ done)
    {exchange : Exchange} (hexchange : exchange ∈ log ++ current ++ [last])
    (hcard : exchange.card = card) : exchange.Quiet ∨ exchange = last := by
  rw [List.mem_append, List.mem_append, List.mem_singleton] at hexchange
  rcases hexchange with (hlogged | hcurr) | rfl
  · exact absurd (hcard ▸ h.logged exchange hlogged) hnew
  · exact .inl (hcurrent exchange hcurr).2
  · exact .inr rfl

theorem Processed.givenUp_done (h : Processed log kept done)
    (hcurrent : ∀ exchange ∈ current, exchange.card = card ∧ exchange.Quiet)
    (hlast : last.card = card) (hverdict : Verdict last entry hit) (hnodup : (done.map Card.id).Nodup)
    (hcard : card.id ∉ done.map Card.id) {other : Card} (hdone : other ∈ done)
    (hgivenUp : GivenUp (log ++ current ++ [last]) other) :
    ¬ SettledIn (log ++ current ++ [last]) other ∧
      other.id ∉ (kept ++ entry.toList).map Card.id := by
  have hnew : card ∉ done := fun hmem => hcard (List.mem_map_of_mem hmem)
  obtain ⟨exchange, hexchange, heq, hrejected⟩ := hgivenUp
  have hold := mem_log_of_done hcurrent hlast hnew hdone hexchange heq
  obtain ⟨hnot, hkept⟩ := h.givenUp hnodup other hdone ⟨exchange, hold, heq, hrejected⟩
  refine ⟨?_, ?_⟩
  · rintro ⟨exchange, hexchange, heq, hsettled⟩
    exact hnot ⟨exchange, mem_log_of_done hcurrent hlast hnew hdone hexchange heq, heq, hsettled⟩
  · rw [List.map_append, List.mem_append, not_or]
    refine ⟨hkept, fun hmem => ?_⟩
    obtain ⟨put, hput, hid⟩ := List.mem_map.mp hmem
    have hputId : put.id = card.id := hverdict.entry_id hlast put (Option.mem_toList.mp hput)
    exact hcard (hputId ▸ hid ▸ List.mem_map_of_mem hdone)

theorem Processed.givenUp_card (h : Processed log kept done)
    (hcurrent : ∀ exchange ∈ current, exchange.card = card ∧ exchange.Quiet)
    (hverdict : Verdict last entry hit) (hcard : card.id ∉ done.map Card.id)
    (hgivenUp : GivenUp (log ++ current ++ [last]) card) :
    ¬ SettledIn (log ++ current ++ [last]) card ∧
      card.id ∉ (kept ++ entry.toList).map Card.id := by
  have hnew : card ∉ done := fun hmem => hcard (List.mem_map_of_mem hmem)
  obtain ⟨exchange, hexchange, heq, hrejected⟩ := hgivenUp
  obtain rfl : exchange = last :=
    (h.quiet_or_last hcurrent hnew hexchange heq).resolve_left fun hquiet => hquiet.2 hrejected
  refine ⟨?_, ?_⟩
  · rintro ⟨settled, hmem, hsame, hsettled⟩
    rcases h.quiet_or_last hcurrent hnew hmem hsame with hquiet | rfl
    · exact hquiet.1 hsettled
    · exact hrejected.not_settled hsettled
  · cases hverdict with
    | kept _ hnot => exact absurd hrejected hnot
    | settled hsettled => exact absurd hsettled hrejected.not_settled
    | givenUp _ =>
        intro hmem
        rw [Option.toList_none, List.append_nil] at hmem
        obtain ⟨put, hput, hid⟩ := List.mem_map.mp hmem
        exact hcard (hid ▸ h.kept_ids put hput)

/-- The last answer for a card adds the card to those that are done. -/
theorem Processed.verdict (h : Processed log kept done)
    (hcurrent : ∀ exchange ∈ current, exchange.card = card ∧ exchange.Quiet)
    (hlast : last.card = card) (hverdict : Verdict last entry hit) :
    Processed (log ++ current ++ [last]) (kept ++ entry.toList) (done ++ [card]) where
  outcome other hother := by
    have hlog : log ⊆ log ++ current ++ [last] := fun exchange hexchange =>
      List.mem_append_left _ (List.mem_append_left _ hexchange)
    rcases List.mem_append.mp hother with hdone | hother
    · rcases h.outcome other hdone with hkept | hsettled | hgivenUp
      · exact .inl (hkept.imp (List.mem_append_left _) (List.mem_append_left _))
      · exact .inr (.inl (hsettled.mono hlog))
      · exact .inr (.inr (hgivenUp.mono hlog))
    · obtain rfl := List.mem_singleton.mp hother
      exact hverdict.outcome hlast (List.mem_append_right _ List.mem_cons_self)
  logged exchange hexchange := by
    rw [List.mem_append, List.mem_append, List.mem_singleton] at hexchange
    rcases hexchange with (hlogged | hcurr) | rfl
    · exact List.mem_append_left _ (h.logged exchange hlogged)
    · exact List.mem_append_right _ (List.mem_singleton.mpr (hcurrent exchange hcurr).1)
    · exact List.mem_append_right _ (List.mem_singleton.mpr hlast)
  kept_ids other hother := by
    rw [List.map_append, List.mem_append]
    rcases List.mem_append.mp hother with hkept | hother
    · exact .inl (h.kept_ids other hkept)
    · rw [hverdict.entry_id hlast other (Option.mem_toList.mp hother)]
      exact .inr List.mem_cons_self
  givenUp hnodup other hother hgivenUp := by
    rw [List.map_append, List.nodup_append] at hnodup
    have hcard : card.id ∉ done.map Card.id := fun hmem =>
      hnodup.2.2 _ hmem _ List.mem_cons_self rfl
    rcases List.mem_append.mp hother with hdone | hother
    · exact h.givenUp_done hcurrent hlast hverdict hnodup.1 hcard hdone hgivenUp
    · obtain rfl := List.mem_singleton.mp hother
      exact h.givenUp_card hcurrent hverdict hcard hgivenUp

end Verdict

end

/-! ### A flush from start to end -/

structure FlushSession where
  client : ClientState
  progress : Progress
  log : List Exchange

def Stage.exchange? (answer : Answer) : Stage → Option Exchange
  | .flush _ card stage => some ⟨card, stage, answer⟩
  | _ => none

def FlushSession.of (log : List Exchange) (state : ClientState × Progress) : FlushSession :=
  ⟨state.1, state.2, log⟩

def FlushSession.start (client : ClientState) : FlushSession :=
  .of [] (runJobs client [.flushOfflineQueue])

def FlushSession.step (session : FlushSession) (label : Env × Answer) : FlushSession :=
  match session.progress with
  | .waiting stage jobs =>
      .of (session.log ++ (stage.exchange? label.2).toList)
        (advance label.1 session.client stage jobs label.2)
  | .finished | .panicked => session

def flushSession (client : ClientState) (answers : List (Env × Answer)) : FlushSession :=
  Run.after FlushSession.step (.start client) answers

def Stage.Saving : Stage → Prop
  | .saveQueue _ | .saveRemaining _ _ | .saveState _ => True
  | _ => False

/-- Between two answers some cards are done, and one is waited for. -/
inductive FlushInvariant (queue : List Card) : FlushSession → Prop
  | looping {client : ClientState} {loop : FlushLoop} {card : Card} {stage : FlushStage}
      {done : List Card} {log current : List Exchange} (hqueue : done ++ card :: loop.rest = queue)
      (hsound : stage.Sound card)
      (hcurrent : ∀ exchange ∈ current, exchange.card = card ∧ exchange.Quiet)
      (hprocessed : Processed log loop.remaining done) :
      FlushInvariant queue ⟨client, .waiting (.flush loop card stage) [], log ++ current⟩
  | saving {client : ClientState} {stage : Stage} {log : List Exchange} (hsaving : stage.Saving)
      (hprocessed : Processed log client.offlineQueue queue) :
      FlushInvariant queue ⟨client, .waiting stage [], log⟩
  | finished {client : ClientState} {log : List Exchange}
      (hprocessed : Processed log client.offlineQueue queue) :
      FlushInvariant queue ⟨client, .finished, log⟩
  | panicked {client : ClientState} {log : List Exchange} :
      FlushInvariant queue ⟨client, .panicked, log⟩

section

variable {queue : List Card} {client : ClientState} {log : List Exchange}

/-- After the last answer for a card the loop goes on, or the flush ends. -/
theorem FlushInvariant.continueFlush {loop : FlushLoop} {card : Card} {done : List Card}
    {entry : Option Card} {hit : Bool} (hqueue : done ++ card :: loop.rest = queue)
    (hprocessed : Processed log (loop.remaining ++ entry.toList) (done ++ [card])) :
    FlushInvariant queue (.of log (goOn [] (continueFlush client loop entry hit))) := by
  unfold BlazeList.continueFlush
  dsimp only
  split
  · rename_i hrest
    rw [hrest] at hqueue
    exact .saving trivial (hqueue ▸ hprocessed)
  · rename_i next rest hrest
    have hqueue' : (done ++ [card]) ++ next :: rest = queue := by
      rw [← hqueue, hrest, List.append_assoc, List.singleton_append]
    split
    · exact .saving trivial (hqueue' ▸ hprocessed.keep (next :: rest))
    · have hstart := @FlushInvariant.looping _ queue client
        ⟨rest, loop.remaining ++ entry.toList, loop.total⟩ next .push (done ++ [card]) log [] hqueue'
        (FlushStage.sound_push next) (fun _ hexchange => absurd hexchange List.not_mem_nil) hprocessed
      rwa [List.append_nil] at hstart

theorem FlushInvariant.start (client : ClientState) :
    FlushInvariant (reconcileOfflineQueue client.offlineQueue client.cards) (.start client) := by
  unfold FlushSession.start runJobs startJob flushOfflineQueue
  by_cases hempty : client.offlineQueue.isEmpty
  · rw [if_pos hempty]
    have hnil : client.offlineQueue = [] := List.isEmpty_iff.mp hempty
    have hprocessed : Processed [] client.offlineQueue
        (reconcileOfflineQueue client.offlineQueue client.cards) := by
      rw [hnil]
      exact processed_nil
    exact .finished hprocessed
  · rw [if_neg hempty]
    cases hqueue : reconcileOfflineQueue client.offlineQueue client.cards with
    | nil => exact .saving trivial processed_nil
    | cons card rest =>
        exact @FlushInvariant.looping _ (card :: rest) client ⟨rest, [], rest.length + 1⟩ card .push []
          [] [] rfl (FlushStage.sound_push card)
          (fun _ hexchange => absurd hexchange List.not_mem_nil) processed_nil

omit [Blake3] in
theorem saveLocalState_cases (client : ClientState) (jobs : List Job) :
    saveLocalState client jobs = (client, .done jobs) ∨
      ∃ snapshot, saveLocalState client jobs = (client, .await (.saveState snapshot) jobs) := by
  unfold saveLocalState
  cases client.root with
  | none => exact .inl rfl
  | some root => exact .inr ⟨_, rfl⟩

/-- Saving leaves the queue alone. -/
theorem FlushInvariant.saveLocalState (hprocessed : Processed log client.offlineQueue queue) :
    FlushInvariant queue (.of log (goOn [] (saveLocalState client []))) := by
  rcases saveLocalState_cases client [] with hdone | ⟨snapshot, hsave⟩
  · rw [hdone]
    exact .finished hprocessed
  · rw [hsave]
    exact .saving trivial hprocessed

theorem FlushInvariant.step {session : FlushSession} (h : FlushInvariant queue session)
    (label : Env × Answer) : FlushInvariant queue (session.step label) := by
  cases h with
  | @looping client loop card stage done log current hqueue hsound hcurrent hprocessed =>
      have hresumed := @resumed_resumeFlush _ label.1 client loop card stage label.2 hsound
      change FlushInvariant queue (.of (log ++ current ++ [⟨card, stage, label.2⟩])
        (goOn [] (resumeFlush label.1 client loop card stage label.2)))
      generalize resumeFlush label.1 client loop card stage label.2 = result at hresumed ⊢
      cases hresumed with
      | panic => exact .panicked
      | @again next hnext hquiet =>
          rw [List.append_assoc]
          refine .looping hqueue hnext ?_ hprocessed
          intro exchange hexchange
          rcases List.mem_append.mp hexchange with hold | hlast
          · exact hcurrent exchange hold
          · rw [List.mem_singleton.mp hlast]
            exact ⟨rfl, hquiet⟩
      | next _ hverdict =>
          exact .continueFlush hqueue (hprocessed.verdict hcurrent rfl hverdict)
  | @saving client stage log hsaving hprocessed =>
      have hlog : log ++ (stage.exchange? label.2).toList = log := by
        cases stage <;> first | exact hsaving.elim | exact List.append_nil log
      change FlushInvariant queue (.of (log ++ (stage.exchange? label.2).toList)
        (goOn [] (resume label.1 client stage label.2)))
      rw [hlog]
      cases stage with
      | saveQueue queue => exact .finished hprocessed
      | saveRemaining queue flushed =>
          cases flushed with
          | false => exact .finished hprocessed
          | true => exact .saveLocalState hprocessed
      | saveState snapshot => exact .finished hprocessed
      | _ => exact hsaving.elim
  | finished hprocessed => exact .finished hprocessed
  | panicked => exact .panicked

end

/-! ### Every queued card is accounted for -/

/-- A queued card is in the new queue, as itself or recreated; or its content was accepted, or the
server answered that it is deleted; or the local list held a strictly newer version of it. -/
def Accounted (before : ClientState) (after : FlushSession) (card : Card) : Prop :=
  (card ∈ after.client.offlineQueue ∨ card.recreated ∈ after.client.offlineQueue) ∨
    SettledIn after.log card ∨
      card.ancestorHash ≠ zeroHash ∧
        ∃ newer ∈ before.cards, newer.id = card.id ∧ card.count.val < newer.count.val

omit [Blake3] in
theorem mem_reconcileOfflineQueue {queue localCards : List Card} {card : Card} :
    card ∈ reconcileOfflineQueue queue localCards ↔
      card ∈ queue ∧ ¬ (card.ancestorHash ≠ zeroHash ∧
        ∃ newer ∈ localCards, newer.id = card.id ∧ card.count.val < newer.count.val) := by
  simp only [reconcileOfflineQueue, List.mem_filter, List.any_eq_true, decide_eq_true_eq,
    Decidable.not_and_iff_or_not, not_not]

theorem processed_of_finished {client : ClientState} {answers : List (Env × Answer)}
    (hfinished : (flushSession client answers).progress = .finished) :
    Processed (flushSession client answers).log (flushSession client answers).client.offlineQueue
      (reconcileOfflineQueue client.offlineQueue client.cards) := by
  have hinv : FlushInvariant (reconcileOfflineQueue client.offlineQueue client.cards)
      (flushSession client answers) :=
    Run.invariant _ (FlushInvariant.start client) (fun _ label h => h.step label) answers
  generalize flushSession client answers = session at hinv hfinished ⊢
  cases hinv with
  | finished hprocessed => exact hprocessed
  | _ => cases hfinished

/-- A card is accounted for unless the server refuses its rebased version. When no two queued cards
share an id, it then is not accounted for. -/
theorem flush_accounts_iff (client : ClientState) (answers : List (Env × Answer))
    (hfinished : (flushSession client answers).progress = .finished) :
    (∀ card ∈ client.offlineQueue, ¬ GivenUp (flushSession client answers).log card →
        Accounted client (flushSession client answers) card) ∧
      ((client.offlineQueue.map Card.id).Nodup → ∀ card ∈ client.offlineQueue,
        (Accounted client (flushSession client answers) card ↔
          ¬ GivenUp (flushSession client answers).log card)) := by
  have hprocessed := processed_of_finished hfinished
  have haccounted : ∀ card ∈ client.offlineQueue,
      ¬ GivenUp (flushSession client answers).log card →
        Accounted client (flushSession client answers) card := by
    intro card hcard hnot
    by_cases hkept : card ∈ reconcileOfflineQueue client.offlineQueue client.cards
    · rcases hprocessed.outcome card hkept with hqueue | hsettled | hgivenUp
      · exact .inl hqueue
      · exact .inr (.inl hsettled)
      · exact absurd hgivenUp hnot
    · rw [mem_reconcileOfflineQueue, not_and, not_not] at hkept
      exact .inr (.inr (hkept hcard))
  refine ⟨haccounted, fun hnodup card hcard => ⟨?_, haccounted card hcard⟩⟩
  intro haccounted hgivenUp
  obtain ⟨exchange, hexchange, rfl, -⟩ := id hgivenUp
  have hkept := hprocessed.logged exchange hexchange
  have hids : ((reconcileOfflineQueue client.offlineQueue client.cards).map Card.id).Nodup :=
    hnodup.sublist (List.filter_sublist.map _)
  obtain ⟨hnot, hid⟩ := hprocessed.givenUp hids _ hkept hgivenUp
  rcases haccounted with (hmem | hmem) | hsettled | hnewer
  · exact hid (List.mem_map_of_mem hmem)
  · have hmapped := List.mem_map_of_mem (f := Card.id) hmem
    rw [(recreated_rebuilt _).id] at hmapped
    exact hid hmapped
  · exact hnot hsettled
  · exact (mem_reconcileOfflineQueue.mp hkept).2 hnewer

end

/-! ### Two answers for one card -/

def twiceEdited : Card := sampleEdit (sampleEdit (sampleCard 1 ⟨7, seven_mem_i64⟩) "mine") "mine again"

def editedElsewhere : Card := sampleEdit (sampleCard 1 ⟨7, seven_mem_i64⟩) "theirs"

def rebaseAnswers (answer : Response) : List (Env × Answer) :=
  [⟨sampleEnv, .ok (.error (.pushFailed (.cardAncestorMismatch editedElsewhere)))⟩,
    ⟨sampleEnv, .ok answer⟩, ⟨sampleEnv, .error .connectionLost⟩]

theorem flush_accounts_iff_rebased :
    let _ := polynomialBlake3
    let client := sampleClient [editedElsewhere] [twiceEdited]
    let answers := rebaseAnswers (.root .empty)
    (∀ card ∈ client.offlineQueue, ¬ GivenUp (flushSession client answers).log card →
        Accounted client (flushSession client answers) card) ∧
      ((client.offlineQueue.map Card.id).Nodup → ∀ card ∈ client.offlineQueue,
        (Accounted client (flushSession client answers) card ↔
          ¬ GivenUp (flushSession client answers).log card)) :=
  @flush_accounts_iff polynomialBlake3 _ _ (Progress.isFinished_iff.mp (by decide +kernel))

def Answer.failsRetryably (answer : Answer) : Bool :=
  match answer.intoRoot with
  | .error (.protocol (.pushFailed (.cardAncestorMismatch _)))
  | .error (.protocol (.pushFailed (.duplicatePriority _ _))) => true
  | _ => false

/-- The rebased version collides with the priority of another card, and the edit is gone. -/
theorem not_accounted_duplicatePriority :
    let _ := polynomialBlake3
    let client := sampleClient [editedElsewhere] [twiceEdited]
    let session := flushSession client
      (rebaseAnswers (.error (.pushFailed (.duplicatePriority 2 ⟨7, by decide⟩))))
    session.progress = .finished ∧ twiceEdited ∈ client.offlineQueue ∧
      ¬ Accounted client session twiceEdited := by
  intro _ client session
  have hqueue : session.client.offlineQueue = [] := by decide +kernel
  have hlog : session.log.all (fun exchange => exchange.answer.failsRetryably) = true := by
    decide +kernel
  have hcounts : client.cards.all (fun card => card.count.val ≤ twiceEdited.count.val) = true := by
    decide +kernel
  refine ⟨Progress.isFinished_iff.mp (by decide +kernel), List.mem_cons_self, ?_⟩
  rintro ((hmem | hmem) | ⟨exchange, hexchange, -, hsettled⟩ | ⟨-, newer, hnewer, -, hlt⟩)
  · exact absurd (hqueue ▸ hmem) List.not_mem_nil
  · exact absurd (hqueue ▸ hmem) List.not_mem_nil
  · have hfails := List.all_eq_true.mp hlog exchange hexchange
    unfold Answer.failsRetryably at hfails
    rcases hsettled with ⟨⟨root, hroot⟩, -⟩ | ⟨hdeleted, -⟩
    · rw [hroot] at hfails
      exact absurd hfails Bool.false_ne_true
    · rw [hdeleted] at hfails
      exact absurd hfails Bool.false_ne_true
  · have hle := of_decide_eq_true (List.all_eq_true.mp hcounts newer hnewer)
    omega

end BlazeList
