import BlazeList.Client.Coalesce

/-!
# What a burst hands on

The versions of a burst are built twice: when a move is shown, and when the burst is flushed. They are
the same versions only if the clock reads the same both times.
-/

namespace BlazeList

/-! ### The pipeline -/

/-- A call of `enqueue_move`. A placement never shifts the card it is for. -/
structure MoveCall where
  prevCard : Card
  newPriority : I64
  siblingsWithPrev : List (Card × I64)
  apart : prevCard.id ∉ siblingsWithPrev.map burstKey
  before : Env
  shown : Env

namespace ClientState

variable [Blake3]

def flush (client : ClientState) (env : Env) : Option (ClientState × List Card) :=
  match client.pendingPriority with
  | none => some (client, [])
  | some burst =>
      (burst.buildVersions env).map fun (primary, siblings) =>
        ({ client with pendingPriority := none }, primary :: siblings)

def flushOther (client : ClientState) (cardId : Uuid) (env : Env) : Option (ClientState × List Card) :=
  if client.bursting cardId then client.flush env else some (client, [])

/-- A burst of another card is flushed first. -/
def enqueueMove (client : ClientState) (prevCard : Card) (newPriority : I64)
    (siblingsWithPrev : List (Card × I64)) (before shown : Env) :
    Option (ClientState × List Card) := do
  let (client, pushed) ← client.flushOther prevCard.id before
  let client ← client.recordMove prevCard newPriority siblingsWithPrev shown
  return (client, pushed)

def enqueueAll (client : ClientState) : List MoveCall → Option ClientState
  | [] => some client
  | call :: calls => do
      let (client, _) ← client.enqueueMove call.prevCard call.newPriority call.siblingsWithPrev
        call.before call.shown
      client.enqueueAll calls

end ClientState

/-! ### The versions that are pushed and those that are shown -/

section

variable [Blake3] {client after : ClientState}

/-- A flush hands on the cards of the pending burst. -/
theorem ClientState.flush_spec {env : Env} {versions : List Card}
    (h : client.flush env = some (after, versions)) :
    after.cards = client.cards ∧ after.pendingPriority = none ∧
      ∀ version ∈ versions, ∃ burst ∈ client.pendingPriority,
        version.id ∈ burst.cards.map burstKey := by
  unfold flush at h
  cases hpending : client.pendingPriority with
  | none =>
      rw [hpending] at h
      obtain ⟨rfl, rfl⟩ := Prod.mk.inj (Option.some.inj h)
      exact ⟨rfl, hpending, fun version hversion => absurd hversion List.not_mem_nil⟩
  | some burst =>
      rw [hpending] at h
      obtain ⟨⟨primary, siblings⟩, hbuilt, hpair⟩ := Option.map_eq_some_iff.mp h
      obtain ⟨rfl, rfl⟩ := Prod.mk.inj hpair
      refine ⟨rfl, rfl, fun version hversion => ⟨burst, rfl, ?_⟩⟩
      exact (PriorityBurst.mem_keys_versions hbuilt).mp (List.mem_map.mpr ⟨version, hversion, rfl⟩)

theorem ClientState.flushOther_spec {cardId : Uuid} {env : Env} {versions : List Card}
    (h : client.flushOther cardId env = some (after, versions)) :
    after.cards = client.cards ∧
      (∀ burst ∈ after.pendingPriority, burst ∈ client.pendingPriority) ∧
      ∀ version ∈ versions, ∃ burst ∈ client.pendingPriority,
        version.id ∈ burst.cards.map burstKey := by
  unfold flushOther at h
  split at h
  · obtain ⟨hcards, hnone, hversions⟩ := flush_spec h
    refine ⟨hcards, fun burst hburst => ?_, hversions⟩
    rw [hnone] at hburst
    cases hburst
  · obtain ⟨rfl, rfl⟩ := Prod.mk.inj (Option.some.inj h)
    exact ⟨rfl, fun _ hburst => hburst, fun version hversion => absurd hversion List.not_mem_nil⟩

theorem ClientState.enqueueMove_spec {call : MoveCall} {pushed : List Card}
    (happart : ∀ burst ∈ client.pendingPriority, burst.Apart)
    (h : client.enqueueMove call.prevCard call.newPriority call.siblingsWithPrev call.before
      call.shown = some (after, pushed)) :
    ∃ burst : PriorityBurst, after.pendingPriority = some burst ∧ burst.Apart ∧
      (∃ versions, burst.buildVersions call.shown = some versions) ∧
      ∀ id move, burst.entry id = some move →
        Keyed.lookup Card.id after.cards id = move.1.reprioritized move.2 call.shown.now := by
  obtain ⟨⟨taken, versions⟩, hflush, hrest⟩ := Option.bind_eq_some_iff.mp h
  obtain ⟨recorded, hrecord, heq⟩ := Option.bind_eq_some_iff.mp hrest
  obtain ⟨rfl, -⟩ := Prod.mk.inj (Option.some.inj heq)
  have htaken : ∀ burst ∈ taken.pendingPriority, burst.Apart := fun burst hburst =>
    happart burst ((flushOther_spec hflush).2.1 burst hburst)
  have hnew : (taken.burstOf call.prevCard call.newPriority call.siblingsWithPrev).Apart :=
    ClientState.apart_burstOf htaken call.apart
  obtain ⟨hpending, primary, siblings, hbuilt, -⟩ := ClientState.recordMove_spec hrecord
  refine ⟨_, hpending, hnew, ⟨_, hbuilt⟩, fun id move hmove => ?_⟩
  obtain ⟨version, hversion⟩ : ∃ version, move.1.reprioritized move.2 call.shown.now = some version :=
    (Card.exists_next_iff _ _ _ _ _ _ _).mpr ((PriorityBurst.exists_versions_iff _ call.shown).mp
      ⟨_, hbuilt⟩ move (Keyed.mem_of_lookup hmove))
  rw [ClientState.lookup_recordMove hrecord hnew, ClientState.entry, hpending, Option.bind_some, hmove,
    Option.bind_some, hversion, Option.some_or]

theorem ClientState.enqueueAll_append {calls more : List MoveCall}
    (h : client.enqueueAll (calls ++ more) = some after) :
    ∃ middle, client.enqueueAll calls = some middle ∧ middle.enqueueAll more = some after := by
  induction calls generalizing client with
  | nil => exact ⟨client, rfl, h⟩
  | cons call rest ih =>
      obtain ⟨⟨next, pushed⟩, hcall, hrest⟩ := Option.bind_eq_some_iff.mp h
      obtain ⟨middle, hmiddle, hmore⟩ := ih hrest
      refine ⟨middle, ?_, hmore⟩
      rw [ClientState.enqueueAll, hcall]
      exact hmiddle

theorem ClientState.apart_enqueueAll {calls : List MoveCall}
    (happart : ∀ burst ∈ client.pendingPriority, burst.Apart)
    (h : client.enqueueAll calls = some after) : ∀ burst ∈ after.pendingPriority, burst.Apart := by
  induction calls generalizing client with
  | nil =>
      obtain rfl := Option.some.inj h
      exact happart
  | cons call rest ih =>
      obtain ⟨⟨next, pushed⟩, hcall, hrest⟩ := Option.bind_eq_some_iff.mp h
      refine ih (fun burst hburst => ?_) hrest
      obtain ⟨other, hpending, hother, -⟩ := enqueueMove_spec happart hcall
      rw [hpending, Option.mem_some_iff] at hburst
      exact hburst ▸ hother

/-- **The versions a flush pushes.** They are the versions that the last move put on the screen exactly
when the clock still reads what it read then. -/
theorem flush_shown_iff (happart : ∀ burst ∈ client.pendingPriority, burst.Apart)
    {calls : List MoveCall} {last : MoveCall}
    (hrun : client.enqueueAll (calls ++ [last]) = some after) (env : Env) :
    ∃ flushed versions, after.flush env = some (flushed, versions) ∧
      ((∀ version ∈ versions, Keyed.lookup Card.id after.cards version.id = some version) ↔
        env.now = last.shown.now) := by
  obtain ⟨middle, hcalls, hlast⟩ := ClientState.enqueueAll_append hrun
  obtain ⟨⟨next, pushed⟩, hcall, hnext⟩ := Option.bind_eq_some_iff.mp hlast
  obtain rfl := Option.some.inj hnext
  obtain ⟨burst, hpending, hburst, ⟨shown, hshown⟩, hscreen⟩ :=
    ClientState.enqueueMove_spec (ClientState.apart_enqueueAll happart hcalls) hcall
  obtain ⟨⟨primary, siblings⟩, hbuilt⟩ := (PriorityBurst.exists_versions_iff burst env).mpr
    ((PriorityBurst.exists_versions_iff burst last.shown).mp ⟨shown, hshown⟩)
  have hpushed : ∀ version ∈ primary :: siblings, ∃ move, burst.entry version.id = some move ∧
      move.1.reprioritized move.2 env.now = some version := by
    intro version hversion
    have hlookup := PriorityBurst.lookup_versions hburst hbuilt version.id
    rw [Keyed.lookup_of_mem (PriorityBurst.nodup_versions hburst hbuilt) hversion] at hlookup
    exact Option.bind_eq_some_iff.mp hlookup.symm
  refine ⟨{ next with pendingPriority := none }, primary :: siblings, ?_, fun hsame => ?_, fun hnow => ?_⟩
  · rw [ClientState.flush, hpending]
    dsimp only
    rw [hbuilt]
    rfl
  · obtain ⟨move, hentry, hversion⟩ := hpushed primary List.mem_cons_self
    have hshownVersion := hsame primary List.mem_cons_self
    rw [hscreen _ _ hentry] at hshownVersion
    rw [← (repositioned_of_reprioritized hversion).1.modifiedAt,
      (repositioned_of_reprioritized hshownVersion).1.modifiedAt]
  · intro version hversion
    obtain ⟨move, hentry, hnextVersion⟩ := hpushed version hversion
    rw [hscreen _ _ hentry, ← hnow]
    exact hnextVersion

end

def topCall (shown : Env) : MoveCall where
  prevCard := sampleCard 1 ⟨1, one_mem_i64⟩
  newPriority := ⟨100, by decide⟩
  siblingsWithPrev := []
  apart := List.not_mem_nil
  before := sampleEnv
  shown

/-- Nothing is flushed before the clock has gone on. -/
theorem flush_shown_iff_sameTime :
    let _ := polynomialBlake3
    ∃ after, (sampleClient wideCards []).enqueueAll ([] ++ [topCall (envAt 1)]) = some after ∧
      ∃ flushed versions, after.flush (envAt 1) = some (flushed, versions) ∧
        ∀ version ∈ versions, Keyed.lookup Card.id after.cards version.id = some version := by
  intro _
  have hsome : ((sampleClient wideCards []).enqueueAll ([] ++ [topCall (envAt 1)])).isSome := by
    decide +kernel
  obtain ⟨after, hrun⟩ := Option.isSome_iff_exists.mp hsome
  have hpending : ∀ burst ∈ (sampleClient wideCards []).pendingPriority, burst.Apart :=
    fun burst hburst => by cases hburst
  obtain ⟨flushed, versions, hflush, hiff⟩ := flush_shown_iff hpending hrun (envAt 1)
  exact ⟨after, hrun, flushed, versions, hflush, hiff.mpr rfl⟩

/-- A millisecond later the pushed version has another hash, and is not what an edit of the shown one
has as its ancestor. -/
theorem not_flush_shown_later :
    let _ := polynomialBlake3
    let after := (sampleClient wideCards []).enqueueAll [topCall (envAt 1)]
    let pushed := after.bind fun client => (client.flush (envAt 2)).bind fun flushed =>
      Keyed.lookup Card.id flushed.2 1
    let shown := after.bind fun client => Keyed.lookup Card.id client.cards 1
    pushed.isSome ∧ shown.isSome ∧ pushed.map Card.hash ≠ shown.map Card.hash ∧
      (shown.map fun card => (sampleEdit card "edited").ancestorHash) ≠ pushed.map Card.hash := by
  decide +kernel

end BlazeList
