import BlazeList.Client.InFlight
import BlazeList.Server.Growth
import BlazeList.Server.History
import Mathlib.Data.List.TakeWhile

/-!
# Entries that the server already has

A version whose answer is lost stays in the queue although the server has accepted it. As long as no such
entry is sent again and waited for, nothing that was built for it takes the place of what the server has had
since.
-/

namespace BlazeList

/-! ### A version among those of its card -/

/-- The entry is among the versions that the server keeps of its card. -/
def Store.HasApplied (store : Store) (entry : Card) : Prop := entry ∈ store.cards.lineage entry.id

instance (store : Store) (entry : Card) : Decidable (store.HasApplied entry) :=
  inferInstanceAs (Decidable (_ ∈ _))

def Store.descendants (store : Store) (entry : Card) : List Card :=
  (store.cards.lineage entry.id).dropWhile fun version => version ≠ entry

/-- No version has the hash of another one, or the zero hash. -/
def Distinguished (versions : List Card) : Prop :=
  ∀ version ∈ versions, version.hash ≠ zeroHash ∧ ∀ other ∈ versions, version.hash = other.hash → version = other

instance (versions : List Card) : Decidable (Distinguished versions) :=
  inferInstanceAs (Decidable (∀ version ∈ versions, _))

theorem Distinguished.mono {versions fewer : List Card} (h : Distinguished versions) (hsubset : fewer ⊆ versions) :
    Distinguished fewer :=
  fun version hversion =>
    (h version (hsubset hversion)).imp_right fun hinj other hother => hinj other (hsubset hother)

/-- The server has deleted the card, or had the ancestor before it got the entry, if it has got it. -/
def BuiltBefore (store : Store) (entry ancestor : Card) : Prop :=
  store.isDeleted entry.id = true ∧ store.cards.lineage entry.id = [] ∨
    ∃ earlier later, store.cards.lineage entry.id = earlier ++ ancestor :: later ∧ entry ∉ earlier ++ [ancestor]

section

variable {store : Store} {entry ancestor version : Card}

theorem takeWhile_append_descendants (store : Store) (entry : Card) :
    ((store.cards.lineage entry.id).takeWhile fun version => version ≠ entry) ++ store.descendants entry =
      store.cards.lineage entry.id :=
  List.takeWhile_append_dropWhile

/-- The current version is an applied entry itself or has come since. -/
theorem exists_descendant_current (hinv : LineageInvariant store.cards) (happlied : store.HasApplied entry) :
    ∃ latest ∈ store.descendants entry, store.cards.current entry.id = some latest := by
  have hsplit := takeWhile_append_descendants store entry
  have hne : store.descendants entry ≠ [] := by
    intro hnil
    rw [hnil, List.append_nil] at hsplit
    have hentry : entry ∈ (store.cards.lineage entry.id).takeWhile fun version => version ≠ entry := by
      rw [hsplit]
      exact happlied
    have hdiffers := List.mem_takeWhile_imp hentry
    exact of_decide_eq_true hdiffers rfl
  refine ⟨_, List.getLast_mem hne, ?_⟩
  rw [← hinv.last, ← hsplit, List.getLast?_append_of_ne_nil _ hne, List.getLast?_eq_some_getLast hne]

theorem mem_lineage_of_descendant (h : version ∈ store.descendants entry) :
    version ∈ store.cards.lineage entry.id :=
  (List.dropWhile_sublist _).subset h

theorem BuiltBefore.not_mem_descendants (h : BuiltBefore store entry ancestor) :
    ancestor ∉ store.descendants entry := by
  unfold Store.descendants
  rcases h with ⟨-, hnil⟩ | ⟨earlier, later, hline, hentry⟩
  · rw [hnil]
    exact List.not_mem_nil
  · have hnodup := nodup_lineage store.cards entry.id
    have hall : ∀ version ∈ earlier ++ [ancestor], decide (version ≠ entry) = true := by
      intro version hversion
      exact decide_eq_true fun heq => hentry (heq ▸ hversion)
    rw [hline, List.append_cons] at hnodup ⊢
    rw [List.dropWhile_append_of_pos hall]
    intro hlater
    have hdisjoint := (List.nodup_append.mp hnodup).2.2 ancestor (List.mem_append_right _ List.mem_cons_self)
    exact hdisjoint ancestor ((List.dropWhile_sublist _).subset hlater) rfl

/-- What was built before the server got the entry does not build on a version since. -/
theorem Rebuilds.ancestorHash_ne (h : Rebuilds (BuiltBefore store) entry version) (hne : version ≠ entry)
    (hdigests : Distinguished (store.cards.lineage entry.id)) {descendant : Card}
    (hdescendant : descendant ∈ store.descendants entry) : version.ancestorHash ≠ descendant.hash := by
  obtain ⟨hnonzero, hinj⟩ := hdigests descendant (mem_lineage_of_descendant hdescendant)
  rcases h with heq | ⟨-, -, hzero | ⟨ancestor, hbefore, hancestor, -⟩⟩
  · exact absurd heq hne
  · rw [hzero]
    exact hnonzero.symm
  · intro hhash
    have hancestor' : ancestor ∈ store.cards.lineage entry.id := by
      rcases hbefore with ⟨-, hnil⟩ | ⟨earlier, later, hline, -⟩
      · rw [Store.descendants, hnil] at hdescendant
        cases hdescendant
      · rw [hline]
        exact List.mem_append_right _ List.mem_cons_self
    obtain rfl := hinj ancestor hancestor' (hhash.symm.trans hancestor)
    exact hbefore.not_mem_descendants hdescendant

/-- What is current when the server does not have the entry yet. -/
theorem builtBefore_of_current (hinv : LineageInvariant store.cards) (hnot : ¬store.HasApplied entry)
    (hcurrent : store.cards.current entry.id = some ancestor) : BuiltBefore store entry ancestor := by
  rw [← hinv.last, List.getLast?_eq_some_iff] at hcurrent
  obtain ⟨earlier, hline⟩ := hcurrent
  refine .inr ⟨earlier, [], hline, fun hentry => hnot ?_⟩
  rwa [Store.HasApplied, hline]

variable [Blake3] {written after : Store}

theorem BuiltBefore.pushItem {item : PushItem} (h : BuiltBefore store entry ancestor) (hsingle : item.SingleId)
    (hpush : pushItem store item = .ok after) : BuiltBefore after entry ancestor := by
  rcases h with ⟨hdeleted, hnil⟩ | ⟨earlier, later, hline, hentry⟩
  · refine .inl ⟨isDeleted_pushItem hdeleted hpush, ?_⟩
    rcases pushItem_cases hpush with ⟨_, _, first, _, rfl, hpushed, rfl⟩ | ⟨_, _, _, _, rfl, -, rfl⟩ |
      ⟨gone, rfl, -, -, rfl⟩ | ⟨_, rfl, -, -, -, -, rfl⟩
    · have hother : entry.id ≠ Entity.id first := by
        intro heq
        rw [heq, hpushed.notDeleted] at hdeleted
        cases hdeleted
      exact (hpushed.lineage_of_singleId hsingle entry.id).trans (by rw [if_neg hother, hnil])
    · exact hnil
    · rw [EntityTables.lineage_remove, hnil, ite_self]
    · exact hnil
  · rcases pushItem_cases hpush with ⟨versions, _, _, _, rfl, hpushed, rfl⟩ | ⟨_, _, _, _, rfl, -, rfl⟩ |
      ⟨gone, rfl, -, -, rfl⟩ | ⟨_, rfl, -, -, -, -, rfl⟩
    · refine .inr ⟨earlier, later ++ versions.filter fun version => Entity.id version = entry.id, ?_, hentry⟩
      refine hpushed.lineage.trans ?_
      rw [hline, List.append_assoc, List.cons_append]
    · exact .inr ⟨earlier, later, hline, hentry⟩
    · by_cases hgone : entry.id = gone
      · rw [← hgone]
        exact .inl ⟨isDeleted_bury entry.id _ _, by rw [EntityTables.lineage_remove, if_pos rfl]⟩
      · exact .inr ⟨earlier, later, by rw [EntityTables.lineage_remove, if_neg hgone, hline], hentry⟩
    · exact .inr ⟨earlier, later, hline, hentry⟩

theorem BuiltBefore.committed {items : List PushItem} {now : Int} (h : BuiltBefore written entry ancestor)
    (hcommitted : Committed store items now written after) : BuiltBefore after entry ancestor := by
  have hline : after.cards.lineage entry.id = written.cards.lineage entry.id := by
    rw [hcommitted.cards_eq, EntityTables.lineage_stampAll]
  unfold BuiltBefore
  rw [hline]
  exact h.imp_left (And.imp_left ((grows_committed hcommitted).deleted entry.id))

theorem BuiltBefore.execute {call : Call} (h : BuiltBefore store entry ancestor) (hsingle : call.SingleId) :
    BuiltBefore (execute store call) entry ancestor :=
  execute_preserves (fun store => BuiltBefore store entry ancestor) h
    (fun _ item _ hitem hbefore => hbefore.pushItem (hsingle item hitem))
    fun _ _ hcommitted hwritten => hwritten.committed hcommitted

end

/-! ### What is accepted for an applied entry -/

section

variable [Blake3] {store written after : Store} {pairs : List (Card × Card)}

/-- Each version is written when others before it have been. -/
theorem Writes.exists_before (h : Writes store (singles (pairs.map Prod.snd)) written) :
    ∀ acceptance ∈ acceptances store.cards.current pairs, ∃ sent unsent before,
      Writes store (singles sent) before ∧ Writes before (singles (acceptance.version :: unsent)) written ∧
        before.cards.current acceptance.version.id = acceptance.before := by
  induction pairs generalizing store with
  | nil => exact fun _ hnil => absurd hnil List.not_mem_nil
  | cons pair rest ih =>
      rintro acceptance hacceptance
      rcases List.mem_cons.mp hacceptance with rfl | hlater
      · exact ⟨[], rest.map Prod.snd, store, writes_nil.mpr rfl, h, rfl⟩
      · obtain ⟨next, hpush, hrest⟩ := writes_cons.mp h
        obtain ⟨cards, hpushed, rfl⟩ := pushSingle_eq_ok_iff.mp hpush
        have hcurrent : cards.current = Function.update store.cards.current pair.2.id (some pair.2) :=
          hpushed.current
        obtain ⟨sent, unsent, before, hsent, hunsent, hbefore⟩ := ih hrest acceptance (hcurrent ▸ hlater)
        exact ⟨pair.2 :: sent, unsent, before, writes_cons.mpr ⟨_, hpush, hsent⟩, hunsent, hbefore⟩

theorem Writes.lineage_prefix {versions : List Card} (h : Writes store (singles versions) written) (id : Uuid) :
    store.cards.lineage id <+: written.cards.lineage id := by
  refine ⟨((versions.filter fun version => version.id = id)), ?_⟩
  unfold EntityTables.lineage
  rw [h.versions_rows, List.filter_append, List.map_append, List.filter_map, List.map_map]
  congr 1
  exact (List.map_id _).symm

theorem LineagesInvariant.writes (hinv : LineagesInvariant store) {versions : List Card}
    (h : Writes store (singles versions) written) : LineagesInvariant written :=
  h.preserves LineagesInvariant hinv fun _ item _ hitem hbefore =>
    hbefore.pushItem (singleId_singles versions item hitem)

theorem BuiltBefore.writes {entry ancestor : Card} (hbuilt : BuiltBefore store entry ancestor)
    {versions : List Card} (h : Writes store (singles versions) written) : BuiltBefore written entry ancestor :=
  h.preserves (fun store => BuiltBefore store entry ancestor) hbuilt fun _ item _ hitem hbefore =>
    hbefore.pushItem (singleId_singles versions item hitem)

/-- The server accepts nothing for an applied entry. -/
theorem Accepts.not_hasApplied (h : Accepts store (pairs.map Prod.snd) after) (hinv : LineagesInvariant store)
    (hbuilt : ∀ pair ∈ pairs, Rebuilds (BuiltBefore store) pair.1 pair.2)
    (hdigests : Distinguished after.cardVersions) :
    ∀ acceptance ∈ acceptances store.cards.current pairs, ¬store.HasApplied acceptance.entry := by
  intro acceptance hacceptance happlied
  have hsent := mem_sends_of_acceptance hacceptance
  have hlinked := h.linked acceptance hacceptance
  have hfresh := h.fresh (List.mem_map_of_mem hsent)
  have hrebuilds := hbuilt _ hsent
  have hid := hrebuilds.id
  -- an applied entry is not accepted as it is
  have hne : acceptance.version ≠ acceptance.entry := by
    intro heq
    rw [heq] at hfresh
    exact hfresh happlied
  obtain ⟨now, written, hcommitted⟩ := h
  obtain ⟨sent, unsent, before, hbefore, hrest, hcurrent⟩ := hcommitted.writes.exists_before acceptance hacceptance
  have happliedBefore : before.HasApplied acceptance.entry := (hbefore.lineage_prefix _).subset happlied
  obtain ⟨latest, hlatest, hlast⟩ := exists_descendant_current (hinv.writes hbefore).cards happliedBefore
  rw [← hid] at hlast
  rw [← hcurrent, hlast] at hlinked
  refine (hrebuilds.mono fun ancestor hancestor => hancestor.writes hbefore).ancestorHash_ne hne ?_ hlatest hlinked
  refine hdigests.mono fun version hversion => ?_
  have hafter : version ∈ after.cards.lineage acceptance.entry.id := by
    rw [hcommitted.cards_eq, EntityTables.lineage_stampAll]
    exact (hrest.lineage_prefix _).subset hversion
  exact Network.mem_cardVersions_of_lineage hafter

end

/-! ### Runs -/

section

variable [Blake3]

/-- Nothing is accepted for an entry that the server has applied, and no version that is on its way for it builds on
the entry or on a version since. -/
def Network.RetriesHarmless (net : Network) (step : NetworkStep) : Prop :=
  (∀ acceptance ∈ net.accepted step, ¬net.store.HasApplied acceptance.entry) ∧
    ∀ task ∈ (net.step step).tasks, ∀ pair ∈ task.sends, pair.2 ≠ pair.1 →
      ∀ descendant ∈ (net.step step).store.descendants pair.1, pair.2.ancestorHash ≠ descendant.hash

instance (net : Network) (step : NetworkStep) : Decidable (net.RetriesHarmless step) :=
  inferInstanceAs (Decidable (_ ∧ ∀ task ∈ _, _))

omit [Blake3] in
/-- No task waits for the answer to a push of an entry that the server has applied, and no chain of others has two
ids. -/
def Network.Unrepeated (net : Network) : NetworkStep → Prop
  | .foreign call => call.SingleId
  | .handle task _ => ∀ entry ∈ net.tasks[task]?.bind Task.asked?, ¬net.store.HasApplied entry
  | _ => True

omit [Blake3] in
instance (net : Network) : (step : NetworkStep) → Decidable (net.Unrepeated step)
  | .foreign call => inferInstanceAs (Decidable call.SingleId)
  | .handle _ _ => inferInstanceAs (Decidable (∀ entry ∈ _, _))
  | .connect _ | .edit _ _ | .move _ _ _ _ _ _ _ | .flushBurst _ | .flushBlocking _ | .sync | .flush
  | .start _ _ | .deliver _ _ | .lose _ _ | .restart => isTrue trivial

namespace Network

variable {net : Network}

structure Chained (net : Network) : Prop where
  sound : net.Sound
  lineages : LineagesInvariant net.store
  built : net.TasksBuilt (BuiltBefore net.store)

omit [Blake3] in
theorem chained_new (client : ClientState) : (Network.new initSchema client).Chained :=
  ⟨sound_new initSchema client, lineagesInvariant_initSchema, fun _ hnil => absurd hnil List.not_mem_nil⟩

omit [Blake3] in
theorem Unrepeated.singleId {step : NetworkStep} (h : net.Unrepeated step) {call : Call}
    (hcall : step = .foreign call ∨ call.SingleId) : call.SingleId := by
  rcases hcall with rfl | hsingle
  · exact h
  · exact hsingle

theorem builtBefore_step {step : NetworkStep} {entry ancestor : Card}
    (h : BuiltBefore net.store entry ancestor) (hunrepeated : net.Unrepeated step) :
    BuiltBefore (net.step step).store entry ancestor :=
  store_induction (p := fun store => BuiltBefore store entry ancestor) h step fun _ hcall =>
    h.execute (hunrepeated.singleId hcall)

theorem Chained.step {step : NetworkStep} (h : net.Chained) (hunrepeated : net.Unrepeated step) :
    (net.step step).Chained := by
  refine ⟨h.sound.step step, ?_, ?_⟩
  · exact store_induction (p := LineagesInvariant) h.lineages step fun _ hcall =>
      h.lineages.execute (hunrepeated.singleId hcall)
  · have hbuilt : net.TasksBuilt (BuiltBefore (net.step step).store) := fun task htask =>
      (h.built task htask).mono fun _ _ hancestor => builtBefore_step hancestor hunrepeated
    refine hbuilt.step ?_
    rintro task now stage jobs request rfl htask hrequest
    refine answered_handleRequest now hrequest fun entry hentry card hcurrent => ?_
    have hnot : ¬net.store.HasApplied entry := by
      apply hunrepeated entry
      rw [htask]
      exact hentry
    exact builtBefore_step (builtBefore_of_current h.lineages.cards hnot hcurrent) hunrepeated

theorem Chained.retriesHarmless {step : NetworkStep} (h : net.Chained) (hunrepeated : net.Unrepeated step)
    (hdigests : Distinguished (net.step step).history) : net.RetriesHarmless step := by
  have hafter := h.step hunrepeated
  have hstored : Distinguished (net.step step).store.cardVersions := hdigests.mono hafter.sound.history
  constructor
  · intro acceptance haccepted
    obtain ⟨task, now, stage, -, hopen, haccepts, hacceptance⟩ := accepts_of_accepted haccepted
    exact haccepts.not_hasApplied h.lineages (h.built.of_open hopen) hstored acceptance hacceptance
  · intro task htask pair hpair hne descendant hdescendant
    have hrebuilds : Rebuilds (BuiltBefore (net.step step).store) pair.1 pair.2 := by
      have hbuilt := hafter.built task htask
      cases task with
      | waiting stage jobs answer => exact hbuilt.1 pair hpair
      | orphaned stage => exact hbuilt pair hpair
      | started work => cases hpair
      | finished => cases hpair
      | panicked => cases hpair
    exact hrebuilds.ancestorHash_ne hne (hstored.mono fun _ => mem_cardVersions_of_lineage) hdescendant

theorem mem_history_run {card : Card} (h : card ∈ net.history) (steps : List NetworkStep) :
    card ∈ (Run.after Network.step net steps).history :=
  Run.invariant (fun net : Network => card ∈ net.history) h (fun _ step hcard => mem_history_step hcard step) steps

theorem Chained.run {steps : List NetworkStep} (h : net.Chained)
    (hdigests : Distinguished (Run.after Network.step net steps).history)
    (hunrepeated : Run.Meets Network.step Network.Unrepeated net steps) :
    Run.Meets Network.step Network.RetriesHarmless net steps := by
  induction steps generalizing net with
  | nil => trivial
  | cons step rest ih =>
      obtain ⟨hstep, hrest⟩ := hunrepeated
      have hnext : Distinguished (net.step step).history :=
        hdigests.mono fun card hcard => mem_history_run hcard rest
      exact ⟨h.retriesHarmless hstep hnext, ih (h.step hstep) hdigests hrest⟩

end Network

/-- As long as no task sends an entry again that the server has applied, and waits for the answer, nothing undoes what
has come on top of the entry. -/
theorem retries_run (client : ClientState) (steps : List NetworkStep)
    (hdigests : Distinguished (Run.after Network.step (.new initSchema client) steps).history)
    (hunrepeated : Run.Meets Network.step Network.Unrepeated (.new initSchema client) steps) :
    Run.Meets Network.step Network.RetriesHarmless (.new initSchema client) steps :=
  (Network.chained_new client).run hdigests hunrepeated

end

/-! ### A lost answer -/

def lostAnswer (card : Card) : List NetworkStep :=
  [.edit card false, .start 0 sampleEnv, .handle 0 0, .lose 0 sampleEnv, .deliver 0 sampleEnv]

def foreignEdit (card : Card) : List NetworkStep :=
  [.foreign ⟨.pushCardVersions [sampleEdit card "theirs"], 0⟩, .sync, .start 1 sampleEnv, .handle 1 0,
    .deliver 1 sampleEnv, .deliver 1 sampleEnv]

/-- The queue is flushed. The entry is not the first version of the card, and is not sent again. -/
theorem retries_run_reconciled :
    let _ := polynomialBlake3
    let card := sampleCard 1 ⟨7, seven_mem_i64⟩
    let mine := sampleEdit card "mine"
    let steps := .foreign ⟨.pushCardVersions [card], 0⟩ :: lostAnswer mine ++ foreignEdit mine ++
      [.flush, .start 2 sampleEnv, .deliver 2 sampleEnv]
    let after := Run.after Network.step (.new initSchema (sampleClient [card] [])) steps
    Run.Meets Network.step Network.RetriesHarmless (.new initSchema (sampleClient [card] [])) steps ∧
      after.store.HasApplied mine ∧ after.client.offlineQueue = [] ∧
      (after.store.cards.current 1).map Card.content = some "theirs" :=
  ⟨@retries_run polynomialBlake3 _ _ (by decide +kernel) (by decide +kernel), by decide +kernel, by decide +kernel,
    by decide +kernel⟩

/-- The first version of a card is sent again: it is refused, built anew on the version of the other client, and
accepted. -/
theorem not_retriesHarmless_firstVersion :
    let _ := polynomialBlake3
    let card := sampleCard 1 ⟨7, seven_mem_i64⟩
    let start := Network.new initSchema (sampleClient [] [])
    let synced := lostAnswer card ++ foreignEdit card
    let flushed : List NetworkStep :=
      [.flush, .start 2 sampleEnv, .handle 2 0, .deliver 2 sampleEnv, .handle 2 0, .deliver 2 sampleEnv]
    let before := Run.after Network.step start synced
    let after := Run.after Network.step before flushed
    before.client.offlineQueue = [card] ∧ before.store.HasApplied card ∧ Distinguished after.history ∧
      (before.store.cards.current 1).map Card.content = some "theirs" ∧
      (after.store.cards.current 1).map Card.content = some card.content ∧
      ¬ Run.Meets Network.step Network.RetriesHarmless start (synced ++ flushed) := by
  decide +kernel

end BlazeList
