import BlazeList.Client.Bursts

/-!
# What a burst comes to

However many moves a burst has seen and whichever siblings each of them shifted, it is flushed as one
version of each card. The versions continue the snapshots from before the burst, and have the priorities
that the placements give when they are applied one after another.
-/

namespace BlazeList

/-! ### One placement after another -/

def prioritiesOf (cards : List Card) (id : Uuid) : Option I64 :=
  (Keyed.lookup Card.id cards id).map Card.priority

def Placement.assign (cardId : Uuid) (priorities : Uuid → Option I64) (placement : Placement) :
    Uuid → Option I64 :=
  fun id => (priorities id).map fun priority =>
    if id = cardId then placement.priority
    else ((Keyed.lookup Prod.fst placement.shifted id).map Prod.snd).getD priority

/-- The card is the moved one, or was shifted by a placement. -/
def Touched (cardId : Uuid) (placements : List Placement) (id : Uuid) : Prop :=
  placements ≠ [] ∧ id = cardId ∨ ∃ placement ∈ placements, id ∈ placement.shifted.map Prod.fst

/-- The version continues the snapshot, with nothing changed but its place and its time. -/
structure Repositioned (base version : Card) (now : DateTime) : Prop where
  id : version.id = base.id
  count : version.count.val = base.count.val + 1
  ancestorHash : version.ancestorHash = base.hash
  content : version.content = base.content
  tags : version.tags = base.tags.insertionSort (· ≤ ·)
  blazed : version.blazed = base.blazed
  createdAt : version.createdAt = base.createdAt
  dueDate : version.dueDate = base.dueDate
  modifiedAt : version.modifiedAt = now

section

variable {cardId id : Uuid} {done : List Placement} {placement : Placement}
  {priorities : Uuid → Option I64}

theorem isSome_foldl_assign (cardId : Uuid) (placements : List Placement)
    (priorities : Uuid → Option I64) (id : Uuid) :
    (placements.foldl (Placement.assign cardId) priorities id).isSome = (priorities id).isSome := by
  induction placements generalizing priorities with
  | nil => rfl
  | cons placement rest ih =>
      rw [List.foldl_cons, ih, Placement.assign, Option.isSome_map]

theorem touched_concat : Touched cardId (done ++ [placement]) id ↔
    Touched cardId done id ∨ id = cardId ∨ id ∈ placement.shifted.map Prod.fst := by
  simp only [Touched, List.mem_append, List.mem_singleton, or_and_right, exists_or, exists_eq_left,
    ne_eq, List.append_eq_nil_iff, List.cons_ne_self, and_false, not_false_eq_true, true_and]
  constructor
  · rintro (hself | hold | hnew)
    · exact .inr (.inl hself)
    · exact .inl (.inr hold)
    · exact .inr (.inr hnew)
  · rintro ((⟨-, hself⟩ | hold) | hself | hnew)
    · exact .inl hself
    · exact .inr (.inl hold)
    · exact .inl hself
    · exact .inr (.inr hnew)

end

/-! ### The burst and the placements -/

section

structure Coalesced (cards : List Card) (cardId : Uuid) (done : List Placement) (client : ClientState) :
    Prop where
  ids : (client.cards.map Card.id).Nodup
  base_id : ∀ burst ∈ client.pendingPriority, burst.base.id = cardId
  apart : ∀ burst ∈ client.pendingPriority, burst.Apart
  built : ∀ burst ∈ client.pendingPriority, ∀ move ∈ burst.cards, move.1.count.val < 9223372036854775807
  pending : done ≠ [] → client.pendingPriority.isSome
  entry_eq_none : ∀ id, ¬ Touched cardId done id → client.entry id = none
  entry_eq : ∀ id, Touched cardId done id → client.entry id =
    (Keyed.lookup Card.id cards id).bind fun base =>
      (done.foldl (Placement.assign cardId) (prioritiesOf cards) id).map fun priority => (base, priority)
  untouched : ∀ id, ¬ Touched cardId done id →
    done.foldl (Placement.assign cardId) (prioritiesOf cards) id = prioritiesOf cards id
  shown : ∀ id, client.entry id = none →
    Keyed.lookup Card.id client.cards id = Keyed.lookup Card.id cards id
  known : ∀ id, (Keyed.lookup Card.id cards id).isSome →
    (Keyed.lookup Card.id client.cards id).isSome
  shifted : ∀ placement ∈ done, ∀ id ∈ placement.shifted.map Prod.fst,
    id ≠ cardId ∧ (Keyed.lookup Card.id cards id).isSome

variable {cards : List Card} {cardId : Uuid} {done : List Placement} {client : ClientState}

theorem Coalesced.start (hids : (client.cards.map Card.id).Nodup)
    (hpending : client.pendingPriority = none) : Coalesced client.cards cardId [] client where
  ids := hids
  base_id := by simp [hpending]
  apart := by simp [hpending]
  built := by simp [hpending]
  pending hne := absurd rfl hne
  entry_eq_none id _ := by simp [ClientState.entry, hpending]
  entry_eq id htouched := by simp [Touched] at htouched
  untouched id _ := rfl
  shown id _ := rfl
  known id hsome := hsome
  shifted placement hmem := absurd hmem List.not_mem_nil

/-- The snapshot of a card is the one from before the burst, whether it is recorded yet or not. -/
theorem Coalesced.lookup_base (h : Coalesced cards cardId done client) {id : Uuid} {card : Card}
    (hcard : Keyed.lookup Card.id client.cards id = some card) :
    Keyed.lookup Card.id cards id = some (((client.entry id).map Prod.fst).getD card) := by
  cases hentry : client.entry id with
  | none =>
      rw [← h.shown id hentry]
      exact hcard
  | some move =>
      have htouched : Touched cardId done id := by
        by_contra hnot
        rw [h.entry_eq_none id hnot] at hentry
        cases hentry
      rw [h.entry_eq id htouched] at hentry
      obtain ⟨base, hbase, hmove⟩ := Option.bind_eq_some_iff.mp hentry
      obtain ⟨priority, -, rfl⟩ := Option.map_eq_some_iff.mp hmove
      exact hbase

theorem Coalesced.mem_of_entry (h : Coalesced cards cardId done client) {id : Uuid} {move : Card × I64}
    (hentry : client.entry id = some move) : move.1 ∈ cards := by
  by_cases htouched : Touched cardId done id
  · rw [h.entry_eq id htouched] at hentry
    obtain ⟨base, hbase, hpair⟩ := Option.bind_eq_some_iff.mp hentry
    obtain ⟨priority, -, rfl⟩ := Option.map_eq_some_iff.mp hpair
    exact Keyed.mem_of_lookup hbase
  · rw [h.entry_eq_none id htouched] at hentry
    cases hentry

/-- Every card that was there and has been touched is in the burst. -/
theorem Coalesced.isSome_entry_iff (h : Coalesced cards cardId done client) {id : Uuid}
    (hknown : (Keyed.lookup Card.id cards id).isSome) :
    (client.entry id).isSome ↔ Touched cardId done id := by
  constructor
  · intro hsome
    by_contra hnot
    rw [h.entry_eq_none id hnot] at hsome
    cases hsome
  · intro htouched
    obtain ⟨base, hbase⟩ := Option.isSome_iff_exists.mp hknown
    have hdomain := isSome_foldl_assign cardId done (prioritiesOf cards) id
    rw [h.entry_eq id htouched, hbase, Option.bind_some, Option.isSome_map, hdomain, prioritiesOf,
      hbase]
    rfl

/-! ### One more move -/

structure OnScreen (client : ClientState) (cardId : Uuid) (current : Card) (shown : List Card)
    (placement : Placement) : Prop where
  current : Keyed.lookup Card.id client.cards cardId = some current
  subperm : shown.Subperm client.cards
  shifted : ∃ moved : List Card, moved.Sublist (otherCards shown cardId) ∧
    placement.shifted.map Prod.fst = moved.map Card.id

variable {current : Card} {shown : List Card} {placement : Placement}

theorem OnScreen.nodup_shown (h : OnScreen client cardId current shown placement)
    (hids : (client.cards.map Card.id).Nodup) : (shown.map Card.id).Nodup := by
  obtain ⟨part, hperm, hsub⟩ := h.subperm
  exact (hperm.map Card.id).nodup_iff.mp (hids.sublist (hsub.map Card.id))

theorem OnScreen.nodup (h : OnScreen client cardId current shown placement)
    (hids : (client.cards.map Card.id).Nodup) :
    (((current, placement.priority) :: placement.siblingsWithPrev shown).map burstKey).Nodup := by
  obtain ⟨moved, hsub, hkeys⟩ := h.shifted
  have hshown := h.nodup_shown hids
  have hmoved : (placement.shifted.map Prod.fst).Nodup := by
    rw [hkeys]
    exact hshown.sublist ((hsub.trans (otherCards_sublist _ _)).map Card.id)
  refine List.nodup_cons.mpr ⟨fun hmem => ?_, hmoved.sublist (keys_siblingsWithPrev placement shown)⟩
  have hcurrent : current.id = cardId := Keyed.key_of_lookup h.current
  have hshifted := (keys_siblingsWithPrev placement shown).subset hmem
  rw [hkeys] at hshifted
  obtain ⟨other, hother, hid⟩ := List.mem_map.mp hshifted
  exact id_ne_of_mem_otherCards (hsub.subset hother) (hid.trans hcurrent)

/-- A shifted card is on the screen. -/
theorem OnScreen.lookup_shifted (h : OnScreen client cardId current shown placement)
    (hids : (client.cards.map Card.id).Nodup) {id : Uuid}
    (hid : id ∈ placement.shifted.map Prod.fst) :
    ∃ card, Keyed.lookup Card.id shown id = some card ∧
      Keyed.lookup Card.id client.cards id = some card := by
  obtain ⟨moved, hsub, hkeys⟩ := h.shifted
  have hshown := h.nodup_shown hids
  rw [hkeys] at hid
  obtain ⟨card, hcard, rfl⟩ := List.mem_map.mp hid
  have hmem : card ∈ shown := List.mem_of_mem_filter (hsub.subset hcard)
  exact ⟨card, Keyed.lookup_of_mem hshown hmem,
    Keyed.lookup_of_mem hids (h.subperm.subset hmem)⟩

theorem Coalesced.isSome_priorities (h : Coalesced cards cardId done client) {id : Uuid} {card : Card}
    (hcard : Keyed.lookup Card.id client.cards id = some card) :
    ∃ priority, done.foldl (Placement.assign cardId) (prioritiesOf cards) id = some priority := by
  apply Option.isSome_iff_exists.mp
  rw [isSome_foldl_assign, prioritiesOf, h.lookup_base hcard]
  rfl

/-- What the burst holds after a move. -/
theorem Coalesced.entry_burstOf (h : Coalesced cards cardId done client)
    (hscreen : OnScreen client cardId current shown placement) (id : Uuid) :
    let burst := client.burstOf current placement.priority (placement.siblingsWithPrev shown)
    (Touched cardId (done ++ [placement]) id → burst.entry id =
      (Keyed.lookup Card.id cards id).bind fun base =>
        ((done ++ [placement]).foldl (Placement.assign cardId) (prioritiesOf cards) id).map
          fun priority => (base, priority)) ∧
    (¬ Touched cardId (done ++ [placement]) id → burst.entry id = none ∧ client.entry id = none ∧
      (done ++ [placement]).foldl (Placement.assign cardId) (prioritiesOf cards) id =
        prioritiesOf cards id) := by
  intro burst
  have hcurrent : current.id = cardId := Keyed.key_of_lookup hscreen.current
  have hbase : ∀ burst ∈ client.pendingPriority, burst.base.id = current.id :=
    fun burst hburst => (h.base_id burst hburst).trans hcurrent.symm
  have hentry : burst.entry id = _ := ClientState.entry_burstOf hbase (hscreen.nodup h.ids) id
  rw [Keyed.lookup_cons, lookup_siblingsWithPrev] at hentry
  rw [touched_concat, List.foldl_append, List.foldl_cons, List.foldl_nil, Placement.assign]
  rw [hentry]
  by_cases hself : cardId = id
  · subst hself
    obtain ⟨priority, hpriority⟩ := h.isSome_priorities hscreen.current
    refine ⟨fun _ => ?_, fun hnot => absurd (.inr (.inl rfl)) hnot⟩
    rw [if_pos hcurrent, h.lookup_base hscreen.current, hpriority]
    simp only [Option.map_some, Option.some_or, Option.bind_some, eq_self, if_true]
  · have hother : burstKey (current, placement.priority) ≠ id := fun heq => hself (hcurrent.symm.trans heq)
    rw [if_neg hother]
    cases hshifted : Keyed.lookup Prod.fst placement.shifted id with
    | none =>
        have hnot := Keyed.lookup_eq_none_iff.mp hshifted
        have hkeep : ∀ priorities : Option I64, (priorities.map fun priority =>
            if id = cardId then placement.priority
            else ((none : Option (Uuid × I64)).map Prod.snd).getD priority) = priorities := by
          intro priorities
          simp [Ne.symm hself]
        rw [hkeep, Option.bind_none, Option.map_none, Option.none_or]
        constructor
        · rintro (htouched | heq | hmem)
          · exact h.entry_eq id htouched
          · exact absurd heq.symm hself
          · exact absurd hmem hnot
        · intro hnew
          have hold : ¬ Touched cardId done id := fun htouched => hnew (.inl htouched)
          exact ⟨h.entry_eq_none id hold, h.entry_eq_none id hold, h.untouched id hold⟩
    | some move =>
        have hmem : id ∈ placement.shifted.map Prod.fst :=
          Keyed.lookup_isSome_iff.mp (hshifted ▸ rfl)
        obtain ⟨card, hshown, hcard⟩ := hscreen.lookup_shifted h.ids hmem
        obtain ⟨priority, hpriority⟩ := h.isSome_priorities hcard
        refine ⟨fun _ => ?_, fun hnot => absurd (.inr (.inr hmem)) hnot⟩
        rw [Option.bind_some, hshown, h.lookup_base hcard, hpriority, Option.map_some, Option.map_some,
          Option.map_some, if_neg (Ne.symm hself)]
        rfl

theorem Coalesced.apart_burstOf (h : Coalesced cards cardId done client)
    (hscreen : OnScreen client cardId current shown placement) :
    (client.burstOf current placement.priority (placement.siblingsWithPrev shown)).Apart :=
  ClientState.apart_burstOf h.apart (List.nodup_cons.mp (hscreen.nodup h.ids)).1

/-- A placement shifts other cards. -/
theorem OnScreen.ne_of_shifted (hscreen : OnScreen client cardId current shown placement) {id : Uuid}
    (hid : id ∈ placement.shifted.map Prod.fst) : id ≠ cardId := by
  obtain ⟨moved, hsub, hkeys⟩ := hscreen.shifted
  rw [hkeys] at hid
  obtain ⟨sibling, hsibling, rfl⟩ := List.mem_map.mp hid
  exact id_ne_of_mem_otherCards (hsub.subset hsibling)

/-- A card that the burst says nothing about is one that it said nothing about before the move. -/
theorem Coalesced.entry_eq_none_of_burstOf (h : Coalesced cards cardId done client)
    (hscreen : OnScreen client cardId current shown placement) {id : Uuid}
    (hnone : (client.burstOf current placement.priority (placement.siblingsWithPrev shown)).entry id = none) :
    client.entry id = none := by
  obtain ⟨htouched, huntouched⟩ := h.entry_burstOf hscreen id
  by_cases hnew : Touched cardId (done ++ [placement]) id
  · rw [htouched hnew] at hnone
    by_contra hsome
    obtain ⟨move, hmove⟩ := Option.ne_none_iff_exists'.mp hsome
    have hwas : Touched cardId done id := by
      by_contra hnot
      exact hsome (h.entry_eq_none id hnot)
    rw [h.entry_eq id hwas] at hmove
    obtain ⟨base, hbase, hpair⟩ := Option.bind_eq_some_iff.mp hmove
    rw [hbase, Option.bind_some, Option.map_eq_none_iff] at hnone
    -- a card of the start has a priority after all placements
    have hdomain := isSome_foldl_assign cardId (done ++ [placement]) (prioritiesOf cards) id
    rw [hnone, prioritiesOf, hbase] at hdomain
    cases hdomain
  · exact (huntouched hnew).2.1

/-- The snapshots of the burst are cards from before it. -/
theorem Coalesced.mem_of_burstOf (h : Coalesced cards cardId done client)
    (hscreen : OnScreen client cardId current shown placement) {move : Card × I64}
    (hmove : move ∈
      (client.burstOf current placement.priority (placement.siblingsWithPrev shown)).cards) :
    move.1 ∈ cards := by
  obtain ⟨htouched, huntouched⟩ := h.entry_burstOf hscreen (burstKey move)
  have hentry := Keyed.lookup_of_mem (h.apart_burstOf hscreen) hmove
  by_cases hnew : Touched cardId (done ++ [placement]) (burstKey move)
  · have heq := htouched hnew
    rw [PriorityBurst.entry, hentry] at heq
    obtain ⟨base, hbase, hpair⟩ := Option.bind_eq_some_iff.mp heq.symm
    obtain ⟨priority, -, rfl⟩ := Option.map_eq_some_iff.mp hpair
    exact Keyed.mem_of_lookup hbase
  · have hnone := (huntouched hnew).1
    rw [PriorityBurst.entry, hentry] at hnone
    cases hnone

variable [Blake3]

/-- One more move, unless it panics. -/
theorem Coalesced.step (h : Coalesced cards cardId done client)
    (hscreen : OnScreen client cardId current shown placement) {env : Env} {after : ClientState}
    (hafter : client.applyMovePlacement placement current shown env = some after) :
    Coalesced cards cardId (done ++ [placement]) after := by
  have hapart := h.apart_burstOf hscreen
  have hlookup := ClientState.lookup_recordMove hafter hapart
  obtain ⟨hpending, primary, siblings, hbuilt, -⟩ := ClientState.recordMove_spec hafter
  have hentry : after.entry =
      (client.burstOf current placement.priority (placement.siblingsWithPrev shown)).entry := by
    funext id
    rw [ClientState.entry, hpending, Option.bind_some]
  refine ⟨ClientState.nodup_recordMove hafter h.ids, ?_, ?_, ?_, ?_, ?_, ?_, ?_, ?_, ?_, ?_⟩
  · intro burst hburst
    rw [hpending, Option.mem_some_iff] at hburst
    rw [← hburst, ClientState.base_burstOf]
    exact Keyed.key_of_lookup hscreen.current
  · intro burst hburst
    rw [hpending, Option.mem_some_iff] at hburst
    exact hburst ▸ hapart
  · intro burst hburst
    rw [hpending, Option.mem_some_iff] at hburst
    exact hburst ▸ (PriorityBurst.exists_versions_iff _ env).mp ⟨_, hbuilt⟩
  · intro _
    rw [hpending]
    rfl
  · intro id hnot
    rw [hentry]
    exact ((h.entry_burstOf hscreen id).2 hnot).1
  · intro id htouched
    rw [hentry]
    exact (h.entry_burstOf hscreen id).1 htouched
  · intro id hnot
    exact ((h.entry_burstOf hscreen id).2 hnot).2.2
  · intro id hnone
    have hold : client.entry id = none := h.entry_eq_none_of_burstOf hscreen (hentry ▸ hnone)
    rw [hlookup, hnone, Option.bind_none, Option.none_or]
    exact h.shown id hold
  · intro id hsome
    rw [hlookup, Option.isSome_or, h.known id hsome, Bool.or_true]
  · intro other hother id hid
    rcases List.mem_append.mp hother with hold | hnew
    · exact h.shifted other hold id hid
    · obtain rfl : other = placement := List.mem_singleton.mp hnew
      obtain ⟨card, -, hcard⟩ := hscreen.lookup_shifted h.ids hid
      exact ⟨hscreen.ne_of_shifted hid, h.lookup_base hcard ▸ rfl⟩

/-! ### A run of moves -/

theorem Coalesced.run {moves : List ShownMove} (h : Coalesced cards cardId done client)
    (hcard : (Keyed.lookup Card.id cards cardId).isSome)
    (hmoves : ∀ move ∈ moves, move.cardId = cardId) :
    (client.moveAll moves = none ∧ ∃ card ∈ cards, card.count.val = 9223372036854775807) ∨
      ∃ after placements, client.moveAll moves = some (after, placements) ∧
        placements.length = moves.length ∧ Coalesced cards cardId (done ++ placements) after := by
  induction moves generalizing done client with
  | nil => exact .inr ⟨client, [], rfl, rfl, (List.append_nil done).symm ▸ h⟩
  | cons move rest ih =>
      have hid : move.cardId = cardId := hmoves move List.mem_cons_self
      obtain ⟨current, hcurrent⟩ := Option.isSome_iff_exists.mp (h.known cardId hcard)
      have hscreen : OnScreen client cardId current (move.view.shown client.cards)
          (client.placementOf move) := by
        refine ⟨hcurrent, move.view.subperm client.cards, ?_⟩
        rw [← hid]
        exact moveCard_shifted _ _ _ _
      have hmoved : client.moveShown move =
          client.applyMovePlacement (client.placementOf move) current
            (move.view.shown client.cards) move.env := by
        have hfind : (client.cards.find? fun card => card.id = move.cardId) = some current := by
          rw [hid]
          exact hcurrent
        rw [ClientState.moveShown, hfind]
      cases hafter : client.applyMovePlacement (client.placementOf move) current
          (move.view.shown client.cards) move.env with
      | none =>
          refine .inl ⟨?_, ?_⟩
          · rw [ClientState.moveAll, hmoved, hafter]
            rfl
          · -- a snapshot of the burst has no next version
            have hnone := Option.map_eq_none_iff.mp hafter
            by_contra hroom
            have hbuilt := (PriorityBurst.exists_versions_iff _ move.env).mpr fun entry hentry => by
              have hmem := h.mem_of_burstOf hscreen hentry
              have hle := entry.1.count.le_max
              have hne : entry.1.count.val ≠ 9223372036854775807 := fun heq =>
                hroom ⟨entry.1, hmem, heq⟩
              omega
            obtain ⟨versions, hversions⟩ := hbuilt
            rw [hnone] at hversions
            cases hversions
      | some next =>
          have hnext := h.step hscreen hafter
          rcases ih hnext fun other hother => hmoves other (List.mem_cons_of_mem move hother) with
            ⟨hnone, hlast⟩ | ⟨after, placements, hrun, hlength, hdone⟩
          · refine .inl ⟨?_, hlast⟩
            rw [ClientState.moveAll, hmoved, hafter, Option.bind_eq_bind, Option.bind_some, hnone]
            rfl
          · refine .inr ⟨after, client.placementOf move :: placements, ?_, by simp [hlength], ?_⟩
            · rw [ClientState.moveAll, hmoved, hafter, Option.bind_eq_bind, Option.bind_some, hrun]
              rfl
            · rwa [List.append_assoc, List.singleton_append] at hdone

theorem repositioned_of_reprioritized {base version : Card} {priority : I64} {now : DateTime}
    (h : base.reprioritized priority now = some version) :
    Repositioned base version now ∧ version.priority = priority := by
  obtain ⟨-, hid, hcontent, hpriority, htags, hblazed, hcreated, hmodified, hdue, hcount, hancestor⟩ :=
    Card.reprioritized_eq_some_iff.mp h
  exact ⟨⟨hid, hcount, hancestor, hcontent, htags, hblazed, hcreated, hdue, hmodified⟩, hpriority⟩

/-- The priorities of the list with the versions in it are those of the placements. -/
theorem Coalesced.priorities (h : Coalesced cards cardId done client) {burst : PriorityBurst}
    (hburst : client.pendingPriority = some burst) {env : Env} {primary : Card} {siblings : List Card}
    (hbuilt : burst.buildVersions env = some (primary, siblings)) :
    prioritiesOf ((primary :: siblings).foldl replaceCard cards) =
      done.foldl (Placement.assign cardId) (prioritiesOf cards) := by
  have hapart := h.apart burst hburst
  have hentry : ∀ id, client.entry id = burst.entry id := by
    intro id
    rw [ClientState.entry, hburst, Option.bind_some]
  funext id
  have hlookup : Keyed.lookup Card.id ((primary :: siblings).foldl replaceCard cards) id = _ :=
    Keyed.lookup_foldl_replace (PriorityBurst.nodup_versions hapart hbuilt) cards id
  rw [prioritiesOf, hlookup, PriorityBurst.lookup_versions hapart hbuilt, ← hentry]
  by_cases htouched : Touched cardId done id
  · rw [h.entry_eq id htouched]
    cases hbase : Keyed.lookup Card.id cards id with
    | none =>
        have hdomain := isSome_foldl_assign cardId done (prioritiesOf cards) id
        rw [prioritiesOf, hbase] at hdomain
        exact (Option.not_isSome_iff_eq_none.mp (by simp [hdomain])).symm
    | some base =>
        obtain ⟨priority, hpriority⟩ : ∃ priority,
            done.foldl (Placement.assign cardId) (prioritiesOf cards) id = some priority := by
          apply Option.isSome_iff_exists.mp
          rw [isSome_foldl_assign, prioritiesOf, hbase]
          rfl
        have hmove : (base, priority) ∈ burst.cards := by
          have hlookup : Keyed.lookup burstKey burst.cards id = some (base, priority) := by
            rw [← PriorityBurst.entry, ← hentry, h.entry_eq id htouched, hbase, hpriority]
            rfl
          exact Keyed.mem_of_lookup hlookup
        obtain ⟨version, hversion⟩ : ∃ version, base.reprioritized priority env.now = some version :=
          (Card.exists_next_iff _ _ _ _ _ _ _).mpr (h.built burst hburst _ hmove)
        rw [hpriority, Option.bind_some, Option.map_some, Option.bind_some, hversion, Option.some_or,
          Option.map_some, (repositioned_of_reprioritized hversion).2]
  · rw [h.entry_eq_none id htouched, h.untouched id htouched]
    rfl

/-- **A burst coalesces.** Unless a card is at the last count, the moves of a card end with a burst that
is flushed, whenever that is, as one version of the moved card and one of each card that was shifted.
Each continues its snapshot, and together they have the priorities of the placements one after another. -/
theorem burst_coalesces (hids : (client.cards.map Card.id).Nodup)
    (hpending : client.pendingPriority = none) (hcard : cardId ∈ client.cards.map Card.id)
    {moves : List ShownMove} (hne : moves ≠ []) (hmoves : ∀ move ∈ moves, move.cardId = cardId) :
    (client.moveAll moves = none ∧ ∃ card ∈ client.cards, card.count.val = 9223372036854775807) ∨
      ∃ after placements burst, client.moveAll moves = some (after, placements) ∧
        after.pendingPriority = some burst ∧
        ∀ env, ∃ primary siblings, burst.buildVersions env = some (primary, siblings) ∧
          primary.id = cardId ∧ ((primary :: siblings).map Card.id).Nodup ∧
          (∀ id, id ∈ siblings.map Card.id ↔
            ∃ placement ∈ placements, id ∈ placement.shifted.map Prod.fst) ∧
          (∀ version ∈ primary :: siblings, ∃ base ∈ client.cards, Repositioned base version env.now) ∧
          prioritiesOf ((primary :: siblings).foldl replaceCard client.cards) =
            placements.foldl (Placement.assign cardId) (prioritiesOf client.cards) := by
  have hsome : (Keyed.lookup Card.id client.cards cardId).isSome := Keyed.lookup_isSome_iff.mpr hcard
  apply ((Coalesced.start hids hpending).run hsome hmoves).imp_right
  rintro ⟨after, placements, hrun, hlength, h⟩
  rw [List.nil_append] at h
  have hplacements : placements ≠ [] := by
    rw [← List.length_pos_iff, hlength, List.length_pos_iff]
    exact hne
  obtain ⟨burst, hburst⟩ := Option.isSome_iff_exists.mp (h.pending hplacements)
  refine ⟨after, placements, burst, hrun, hburst, fun env => ?_⟩
  obtain ⟨⟨primary, siblings⟩, hbuilt⟩ :=
    (PriorityBurst.exists_versions_iff burst env).mpr (h.built burst hburst)
  have hapart := h.apart burst hburst
  have hentry : ∀ id, after.entry id = burst.entry id := by
    intro id
    rw [ClientState.entry, hburst, Option.bind_some]
  obtain ⟨hprimary, hkeys⟩ := PriorityBurst.keys_versions hbuilt
  have hbase := h.base_id burst hburst
  refine ⟨primary, siblings, hbuilt, hprimary.trans hbase, PriorityBurst.nodup_versions hapart hbuilt,
    fun id => ?_, fun version hversion => ?_, h.priorities hburst hbuilt⟩
  · have hcards : id ∈ burst.cards.map burstKey ↔ id = cardId ∨ id ∈ burst.siblings.map burstKey := by
      rw [PriorityBurst.cards, List.map_cons, List.mem_cons]
      exact or_congr (by rw [← hbase]) Iff.rfl
    have hself : cardId ∉ burst.siblings.map burstKey := hbase ▸ (List.nodup_cons.mp hapart).1
    rw [hkeys.mem_iff]
    constructor
    · intro hmem
      obtain ⟨move, hmove⟩ := Option.isSome_iff_exists.mp
        (Keyed.lookup_isSome_iff.mpr (hcards.mpr (.inr hmem)))
      have hmove' : after.entry id = some move := (hentry id).trans hmove
      have htouched : Touched cardId placements id := by
        by_contra hnot
        rw [h.entry_eq_none id hnot] at hmove'
        cases hmove'
      refine htouched.resolve_left fun hmoved => ?_
      obtain ⟨-, hid⟩ := hmoved
      exact hself (hid ▸ hmem)
    · rintro ⟨placement, hplacement, hid⟩
      obtain ⟨hne, hknown⟩ := h.shifted placement hplacement id hid
      have hsomeEntry := (h.isSome_entry_iff hknown).mpr (.inr ⟨placement, hplacement, hid⟩)
      rw [hentry] at hsomeEntry
      exact (hcards.mp (Keyed.lookup_isSome_iff.mp hsomeEntry)).resolve_left hne
  · have hlookup := PriorityBurst.lookup_versions hapart hbuilt version.id
    rw [Keyed.lookup_of_mem (PriorityBurst.nodup_versions hapart hbuilt) hversion] at hlookup
    obtain ⟨move, hmove, hnext⟩ := Option.bind_eq_some_iff.mp hlookup.symm
    exact ⟨move.1, h.mem_of_entry ((hentry version.id).trans hmove),
      (repositioned_of_reprioritized hnext).1⟩

end

/-! ### Samples -/

def View.all : View := ⟨id, fun cards => List.Subperm.refl cards⟩

def envAt (millis : Int)
    (h : -8334601228800000 ≤ millis ∧ millis ≤ 8210266876799999 := by decide) : Env :=
  ⟨⟨millis, h⟩, fun _ => 0, []⟩

def wideMoves : List ShownMove :=
  [⟨1, .top, .all, envAt 1⟩, ⟨1, .at 1, .all, envAt 2⟩]

theorem burst_coalesces_wide :
    let _ := polynomialBlake3
    ∃ after placements burst,
      (sampleClient wideCards []).moveAll wideMoves = some (after, placements) ∧
        after.pendingPriority = some burst ∧
        ∃ primary siblings, burst.buildVersions (envAt 3) = some (primary, siblings) ∧
          primary.id = 1 ∧ ∀ version ∈ primary :: siblings,
            ∃ base ∈ wideCards, Repositioned base version (envAt 3).now := by
  intro _
  have hmoves : ∀ move ∈ wideMoves, move.cardId = 1 := by decide +kernel
  have hids : ((sampleClient wideCards []).cards.map Card.id).Nodup := by decide +kernel
  rcases burst_coalesces hids rfl (by decide +kernel) (List.cons_ne_nil _ _) hmoves with
    ⟨-, card, hcard, hlast⟩ | ⟨after, placements, burst, hrun, hburst, hversions⟩
  · have hnone : ∀ card ∈ wideCards, card.count.val ≠ 9223372036854775807 := by decide +kernel
    exact absurd hlast (hnone card hcard)
  · obtain ⟨primary, siblings, hbuilt, hid, -, -, hbases, -⟩ := hversions (envAt 3)
    exact ⟨after, placements, burst, hrun, hburst, primary, siblings, hbuilt, hid, hbases⟩

/-- The time of a version is the one it is built at, not that of its snapshot. -/
theorem not_burst_keeps_modifiedAt :
    let _ := polynomialBlake3
    ((sampleClient wideCards []).moveAll [⟨1, .top, .all, envAt 1⟩]).bind (fun run =>
        run.1.pendingPriority.bind fun burst => (burst.buildVersions (envAt 3)).map fun versions =>
          (versions.1.id, versions.1.modifiedAt.timestampMillis)) = some (1, 3) ∧
      (wideCards.find? fun card => card.id = 1).map (fun card => card.modifiedAt.timestampMillis) =
        some 0 := by
  decide +kernel

end BlazeList
