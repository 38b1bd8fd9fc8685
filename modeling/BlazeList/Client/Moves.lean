import BlazeList.Client.InFlight

/-!
# Versions of moves

A version that is pushed for a move repeats the fields of a snapshot. Pushed as it was built it changes
nothing but the place of the card, since the server takes it on top of the snapshot alone. When it has
to be built anew, that is so only if the server still has the fields of the snapshot.
-/

namespace BlazeList

/-- The card is in another place, and otherwise as before. -/
structure OnlyMoved (before after : Card) : Prop where
  id : after.id = before.id
  fields : after.fields = before.fields
  createdAt : after.createdAt = before.createdAt

instance (before after : Card) : Decidable (OnlyMoved before after) :=
  decidable_of_iff (after.id = before.id ∧ after.fields = before.fields ∧
      after.createdAt = before.createdAt)
    ⟨fun ⟨hid, hfields, hcreated⟩ => ⟨hid, hfields, hcreated⟩, fun h => ⟨h.id, h.fields, h.createdAt⟩⟩

def Network.Apart (net : Network) (latest : Card) : Prop :=
  latest.hash ≠ zeroHash ∧
    ∀ known ∈ net.history ++ net.moves.map Prod.fst, known.hash = latest.hash → known = latest

instance (net : Network) (latest : Card) : Decidable (net.Apart latest) :=
  inferInstanceAs (Decidable (_ ∧ _))

section

variable [Blake3]

/-- The local version was built for a move, or is the first version that is queued in its place. -/
def Network.IsMove (net : Network) (entry : Card) : Prop :=
  ∃ pair ∈ net.moves, entry = pair.2 ∨ entry = pair.2.recreated

instance (net : Network) (entry : Card) : Decidable (net.IsMove entry) :=
  inferInstanceAs (Decidable (∃ pair ∈ _, _))

/-- A version that is built anew for a move finds the fields of the snapshot in the version it is to
replace. -/
def Network.MovesCurrent (net : Network) : NetworkStep → Prop
  | .handle task _ =>
      ∀ acceptance ∈ acceptances net.store.cards.current (((net.open? task).map Stage.sends).getD []),
        net.IsMove acceptance.entry → ∀ latest ∈ acceptance.before,
          net.Apart latest ∧ (acceptance.version ≠ acceptance.entry →
            acceptance.version.ancestorHash = latest.hash → latest.fields = acceptance.entry.fields)
  | _ => True

instance (net : Network) : (step : NetworkStep) → Decidable (net.MovesCurrent step)
  | .handle _ _ => inferInstanceAs (Decidable (∀ acceptance ∈ _, _))
  | .foreign _ | .connect _ | .edit _ _ | .move _ _ _ _ _ _ _ | .flushBurst _ | .flushBlocking _
  | .sync | .flush | .start _ _ | .deliver _ _ | .lose _ _ | .restart => isTrue trivial

/-- What is accepted for a move changes nothing but the place of the card. -/
def Network.MovesHarmless (net : Network) (step : NetworkStep) : Prop :=
  ∀ acceptance ∈ net.accepted step, net.IsMove acceptance.entry →
    ∀ latest ∈ acceptance.before, OnlyMoved latest acceptance.version

instance (net : Network) (step : NetworkStep) : Decidable (net.MovesHarmless step) :=
  inferInstanceAs (Decidable (∀ acceptance ∈ _, _))

/-! ### The versions of a burst -/

def Card.MovesTo (base version : Card) : Prop :=
  ∃ priority now, base.reprioritized priority now = some version

theorem Card.MovesTo.onlyMoved {base version : Card} (h : base.MovesTo version) :
    OnlyMoved base version ∧ version.ancestorHash = base.hash := by
  obtain ⟨priority, now, hnext⟩ := h
  obtain ⟨-, hid, hcontent, -, htags, hblazed, hcreated, -, hdue, -, hancestor⟩ :=
    Card.next_eq_some_iff.mp hnext
  refine ⟨⟨hid, ?_, hcreated⟩, hancestor⟩
  simp only [Card.fields, hcontent, htags, hblazed, hdue, insertionSort_idem]

theorem PriorityBurst.movesTo {burst : PriorityBurst} {env : Env} {pair : Card × Card}
    (h : pair ∈ burst.moves env) : pair.1.MovesTo pair.2 := by
  obtain ⟨move, -, hversion⟩ := List.mem_filterMap.mp h
  obtain ⟨version, hnext, rfl⟩ := Option.map_eq_some_iff.mp hversion
  exact ⟨move.2, env.now, hnext⟩

/-- The observer writes down every version that is pushed for a burst. -/
theorem PriorityBurst.mem_moves {burst : PriorityBurst} {env : Env} {primary : Card}
    {siblings : List Card} (h : burst.buildVersions env = some (primary, siblings)) :
    ∀ version ∈ primary :: siblings, version ∈ (burst.moves env).map Prod.snd := by
  have hrecorded : ∀ move ∈ burst.cards, ∀ version,
      move.1.reprioritized move.2 env.now = some version →
        version ∈ (burst.moves env).map Prod.snd := by
    intro move hmove version hversion
    refine List.mem_map.mpr ⟨(move.1, version), List.mem_filterMap.mpr ⟨move, hmove, ?_⟩, rfl⟩
    rw [hversion, Option.map_some]
  obtain ⟨first, hfirst, hrest⟩ := Option.bind_eq_some_iff.mp h
  obtain ⟨others, hothers, heq⟩ := Option.bind_eq_some_iff.mp hrest
  cases heq
  intro version hversion
  rcases List.mem_cons.mp hversion with rfl | hsibling
  · exact hrecorded _ List.mem_cons_self _ hfirst
  · obtain ⟨move, hmove, hnext⟩ := Option.exists_of_mem_mapM hothers hsibling
    exact hrecorded move (List.mem_cons_of_mem _ ((List.orderBy_perm _ _).mem_iff.mp hmove)) version hnext

/-! ### Runs -/

namespace Network

variable {net other : Network}

def MovesBuilt (net : Network) : Prop := ∀ pair ∈ net.moves, pair.1.MovesTo pair.2

theorem MovesBuilt.flushSyncTake (h : net.MovesBuilt) (env : Env) :
    (net.flushSyncTake env).1.MovesBuilt := by
  unfold Network.flushSyncTake
  split
  · exact h
  · intro pair hpair
    exact (List.mem_append.mp hpair).elim (h pair) PriorityBurst.movesTo

theorem MovesBuilt.flushBurst (h : net.MovesBuilt) (env : Env) : (net.flushBurst env).MovesBuilt := by
  obtain ⟨more, heq, -⟩ := net.flushBurst_cases env
  rw [heq]
  exact h.flushSyncTake env

theorem MovesBuilt.flushBlocking (h : net.MovesBuilt) (env : Env) :
    (net.flushBlocking env).MovesBuilt := by
  have htaken := h.flushSyncTake env
  unfold Network.flushBlocking
  split
  all_goals
    rename_i heq
    rw [heq] at htaken
    exact htaken

theorem MovesBuilt.recordMove (h : net.MovesBuilt) (prevCard : Card) (newPriority : I64)
    (siblingsWithPrev : List (Card × I64)) (env : Env) :
    (net.recordMove prevCard newPriority siblingsWithPrev env).MovesBuilt := by
  unfold Network.recordMove
  dsimp only
  split
  · exact h
  · exact h

theorem MovesBuilt.start (h : net.MovesBuilt) (task : Nat) (env : Env) (work : Work) :
    (net.start task env work).MovesBuilt := by
  obtain ⟨middle, state, hmiddle, hstart, -⟩ := net.start_cases task env work
  rw [hstart]
  rcases hmiddle with rfl | rfl
  · exact h
  · exact h.flushSyncTake env

theorem MovesBuilt.step (h : net.MovesBuilt) (step : NetworkStep) : (net.step step).MovesBuilt := by
  cases step with
  | move prevCard newPriority siblingsWithPrev debounced before shown after =>
      unfold Network.step enqueueMove
      dsimp only
      have hbefore : (if net.client.bursting prevCard.id then net.flushBurst before else net).MovesBuilt := by
        split
        · exact h.flushBurst before
        · exact h
      have hrecorded := hbefore.recordMove prevCard newPriority siblingsWithPrev shown
      split
      · exact hrecorded
      · exact hrecorded.flushBurst after
  | flushBurst env => exact h.flushBurst env
  | flushBlocking env => exact h.flushBlocking env
  | start task env => exact step_start h fun work _ => h.start task env work
  | handle task now => exact step_handle h fun _ _ _ _ => h
  | deliver task env =>
      refine step_deliver h fun stage jobs answer _ => ?_
      unfold Network.deliver
      split <;> exact h
  | lose task env =>
      refine step_lose h fun stage jobs answer _ => ?_
      unfold Network.lose
      split
      · split <;> exact h
      · exact h
  | _ => exact h

theorem Sound.movesHarmless (h : net.Sound) (hbuilt : net.MovesBuilt) {step : NetworkStep}
    (hcurrent : net.MovesCurrent step) : net.MovesHarmless step := by
  intro acceptance haccepted hmove latest hlatest
  obtain ⟨hrebuilds, hlinked, -⟩ := h.accepted haccepted
  obtain ⟨task, now, stage, rfl, hopen, -, hacceptance⟩ := accepts_of_accepted haccepted
  have hsent : acceptance ∈ acceptances net.store.cards.current (((net.open? task).map Stage.sends).getD []) := by
    rw [hopen]
    exact hacceptance
  obtain ⟨⟨hzero, hapart⟩, hfields⟩ := hcurrent acceptance hsent hmove latest hlatest
  have hancestor : acceptance.version.ancestorHash = latest.hash := by
    rw [hlinked, hlatest, Option.map_some, Option.getD_some]
  by_cases hsame : acceptance.version = acceptance.entry
  · obtain ⟨pair, hpair, hentry | hentry⟩ := hmove
    · -- the version is sent as it was built, and the snapshot is what the server has
      obtain ⟨honly, hbase⟩ := (hbuilt pair hpair).onlyMoved
      rw [← hentry, ← hsame] at honly hbase
      have hlatest' : pair.1 = latest :=
        hapart pair.1 (List.mem_append_right _ (List.mem_map_of_mem hpair)) (hbase.symm.trans hancestor)
      exact hlatest' ▸ honly
    · -- a first version replaces nothing
      have hroot := (recreated_rebuilt pair.2).ancestorHash
      rw [← hentry, ← hsame, hancestor] at hroot
      exact absurd hroot hzero
  · -- the version was built anew, on what the server has
    obtain ⟨-, hversion, hroot | ⟨ancestor, hknown, hhash, hid, hcreated⟩⟩ :=
      hrebuilds.resolve_left hsame
    · exact absurd (hancestor.symm.trans hroot) hzero
    · have hlatest' : ancestor = latest :=
        hapart ancestor (List.mem_append_left _ hknown) (hhash.symm.trans hancestor)
      rw [hlatest'] at hid hcreated
      exact ⟨hid, hversion.trans (hfields hsame hancestor).symm, hcreated⟩

end Network

/-- Moves change nothing but places in a run in which a version that is built anew for a move always
finds the fields of its snapshot. -/
theorem moves_run (store : Store) (client : ClientState) (steps : List NetworkStep)
    (hcurrent : Run.Meets Network.step Network.MovesCurrent (.new store client) steps) :
    Run.Meets Network.step Network.MovesHarmless (.new store client) steps :=
  hcurrent.imp_of_invariant (fun net => net.Sound ∧ net.MovesBuilt)
    ⟨Network.sound_new store client, fun _ hnil => absurd hnil List.not_mem_nil⟩
    (fun _ step h _ => ⟨h.1.step step, h.2.step step⟩) fun _ _ h hstep => h.1.movesHarmless h.2 hstep

end

/-! ### Moves among edits -/

def movedAround (between : List NetworkStep) (task : Nat) : List NetworkStep :=
  .move (sampleCard 1 ⟨7, seven_mem_i64⟩) ⟨9, nine_mem_i64⟩ [] true sampleEnv sampleEnv sampleEnv ::
    between ++ [.flushBurst sampleEnv, .start task sampleEnv, .handle task 0, .deliver task sampleEnv,
      .handle task 0]

/-- Another client moves the card at the same time. -/
theorem moves_run_movedElsewhere :
    let _ := polynomialBlake3
    let elsewhere := (Card.reprioritized (sampleCard 1 ⟨7, by decide⟩) ⟨11, by decide⟩ .epoch).toList
    Run.Meets Network.step Network.MovesHarmless
      (.new (Run.after execute initSchema oneCard) (sampleClient [sampleCard 1 ⟨7, by decide⟩] []))
      (movedAround [.foreign ⟨.pushCardVersions elsewhere, 0⟩] 0) :=
  @moves_run polynomialBlake3 _ _ _ (by decide +kernel)

/-- The editor pushes an edit of the card without a flush of the burst. -/
theorem not_movesHarmless_edited :
    let _ := polynomialBlake3
    let start := Network.new (Run.after execute initSchema oneCard)
      (sampleClient [sampleCard 1 ⟨7, by decide⟩] [])
    let steps := movedAround [.edit (sampleEdit (sampleCard 1 ⟨7, by decide⟩) "edited") false,
      .start 0 sampleEnv, .handle 0 0, .deliver 0 sampleEnv] 1
    ¬ Run.Meets Network.step Network.MovesHarmless start steps ∧
      ((Run.after Network.step start steps).store.cards.current 1).map Card.content =
        some (sampleCard 1 ⟨7, by decide⟩).content := by
  decide +kernel

end BlazeList
