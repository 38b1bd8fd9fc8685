import BlazeList.Lib.Keyed
import BlazeList.Client.Network
import BlazeList.Client.Ordering

/-!
# Moves in a burst

The moves of one card are collected in a burst. Each of them is looked for in the list on the screen,
which shows the versions that were built for the moves before, and the burst keeps the snapshots from
before the first of them.
-/

namespace BlazeList

/-! ### A move on the screen -/

def Placement.siblingsWithPrev (placement : Placement) (allCards : List Card) : List (Card × I64) :=
  placement.shifted.filterMap fun (id, priority) =>
    (allCards.find? fun card => card.id = id).map fun card => (card, priority)

/-- What a list on the screen makes of the cards: some of them, in some order. -/
structure View where
  shown : List Card → List Card
  subperm : ∀ cards, (shown cards).Subperm cards

structure ShownMove where
  cardId : Uuid
  target : InsertPosition
  view : View
  env : Env

namespace ClientState

def placementOf (client : ClientState) (move : ShownMove) : Placement :=
  moveCard move.env.randomRange (move.view.shown client.cards) move.cardId move.target

variable [Blake3]

/-- The move is recorded, and its versions are shown. There are none when a card is at the last count. -/
def recordMove (client : ClientState) (prevCard : Card) (newPriority : I64)
    (siblingsWithPrev : List (Card × I64)) (env : Env) : Option ClientState :=
  let burst := client.burstOf prevCard newPriority siblingsWithPrev
  (burst.buildVersions env).map fun (primary, siblings) =>
    (primary :: siblings).foldl upsertCard { client with pendingPriority := some burst }

def applyMovePlacement (client : ClientState) (placement : Placement) (current : Card)
    (allCards : List Card) (env : Env) : Option ClientState :=
  client.recordMove current placement.priority (placement.siblingsWithPrev allCards) env

def moveShown (client : ClientState) (move : ShownMove) : Option ClientState :=
  match client.cards.find? fun card => card.id = move.cardId with
  | none => some client
  | some current =>
      client.applyMovePlacement (client.placementOf move) current (move.view.shown client.cards)
        move.env

def moveAll (client : ClientState) : List ShownMove → Option (ClientState × List Placement)
  | [] => some (client, [])
  | move :: moves => do
      let next ← client.moveShown move
      let (after, placements) ← next.moveAll moves
      return (after, client.placementOf move :: placements)

end ClientState

/-- The network records a move as its client does. -/
theorem Network.recordMove_eq [Blake3] (net : Network) (prevCard : Card) (newPriority : I64)
    (siblingsWithPrev : List (Card × I64)) (env : Env) :
    net.recordMove prevCard newPriority siblingsWithPrev env =
      match net.client.recordMove prevCard newPriority siblingsWithPrev env with
      | some client => { net with client }
      | none =>
          { net with
            client := { net.client with
              pendingPriority := some (net.client.burstOf prevCard newPriority siblingsWithPrev) }
            tasks := net.tasks ++ [.panicked] } := by
  unfold Network.recordMove ClientState.recordMove
  dsimp only
  cases (net.client.burstOf prevCard newPriority siblingsWithPrev).buildVersions env with
  | none => rfl
  | some versions => rfl

/-! ### What a placement shifts -/

section

variable {cards : List Card}

theorem redistribute_shifted (rangeUpper step : Int) (newSlot : Nat) (state : Redistribution)
    (card : Card) :
    (redistribute rangeUpper step newSlot state card).shifted = state.shifted ∨
      ∃ priority, (redistribute rangeUpper step newSlot state card).shifted =
        state.shifted ++ [(card.id, priority)] := by
  unfold redistribute
  by_cases hslot : state.slot = newSlot ∧ state.newPriority = none
  · simp only [hslot, and_self, if_true]
    split
    · exact .inr ⟨_, rfl⟩
    · exact .inl rfl
  · simp only [if_neg hslot]
    split
    · exact .inr ⟨_, rfl⟩
    · exact .inl rfl

theorem foldl_redistribute_shifted (rangeUpper step : Int) (newSlot : Nat) (cards : List Card)
    (state : Redistribution) :
    ∃ moved : List Card, moved.Sublist cards ∧
      (cards.foldl (redistribute rangeUpper step newSlot) state).shifted.map Prod.fst =
        state.shifted.map Prod.fst ++ moved.map Card.id := by
  induction cards generalizing state with
  | nil => exact ⟨[], .slnil, by simp⟩
  | cons card rest ih =>
      obtain ⟨moved, hsub, hmoved⟩ := ih (redistribute rangeUpper step newSlot state card)
      rw [List.foldl_cons, hmoved]
      rcases redistribute_shifted rangeUpper step newSlot state card with hsame | ⟨priority, hmore⟩
      · exact ⟨moved, hsub.cons card, by rw [hsame]⟩
      · exact ⟨card :: moved, hsub.cons_cons card, by rw [hmore]; simp⟩

/-- A placement shifts cards of its list, each at most once, whatever their order. -/
theorem tryPlace_shifted (randomRange : Int → Int) (cards : List Card) (upper lower : I64)
    (insertIdx : Nat) :
    ∃ moved : List Card, moved.Sublist cards ∧
      (tryPlace randomRange cards upper lower insertIdx).shifted.map Prod.fst =
        moved.map Card.id := by
  have hnone : ∃ moved : List Card, moved.Sublist cards ∧ ([] : List Uuid) = moved.map Card.id :=
    ⟨[], List.nil_sublist cards, rfl⟩
  unfold tryPlace
  split
  · exact hnone
  · unfold rebalance
    split
    · exact hnone
    · extract_lets left start right rangeUpper rangeLower rangeCount totalSlots space step final
        priority
      obtain ⟨moved, hsub, hmoved⟩ := foldl_redistribute_shifted rangeUpper step (insertIdx - left)
        ((cards.drop left).take rangeCount) ⟨0, none, []⟩
      split
      · exact hnone
      · refine ⟨moved, hsub.trans ((List.take_sublist _ _).trans (List.drop_sublist _ _)), ?_⟩
        exact hmoved.trans (List.nil_append _)

theorem moveCard_shifted (randomRange : Int → Int) (cards : List Card) (cardId : Uuid)
    (target : InsertPosition) :
    ∃ moved : List Card, moved.Sublist (otherCards cards cardId) ∧
      (moveCard randomRange cards cardId target).shifted.map Prod.fst = moved.map Card.id :=
  tryPlace_shifted _ _ _ _ _

end

/-! ### Reading a burst -/

abbrev burstKey (move : Card × I64) : Uuid := move.1.id

def PriorityBurst.entry (burst : PriorityBurst) (id : Uuid) : Option (Card × I64) :=
  Keyed.lookup burstKey burst.cards id

/-- No two snapshots are of one card. -/
def PriorityBurst.Apart (burst : PriorityBurst) : Prop := (burst.cards.map burstKey).Nodup

def ClientState.entry (client : ClientState) (id : Uuid) : Option (Card × I64) :=
  client.pendingPriority.bind fun burst => burst.entry id

section

variable {siblings moves : List (Card × I64)} {move : Card × I64} {id : Uuid}

theorem lookup_recordSibling :
    Keyed.lookup burstKey (recordSibling siblings move) id =
      if burstKey move = id then
        some (((Keyed.lookup burstKey siblings id).map Prod.fst).getD move.1, move.2)
      else
        Keyed.lookup burstKey siblings id := by
  have hmap : Keyed.lookup burstKey (siblings.map fun sibling =>
        if sibling.1.id = move.1.id then (sibling.1, move.2) else sibling) id =
      (Keyed.lookup burstKey siblings id).map fun sibling =>
        if sibling.1.id = move.1.id then (sibling.1, move.2) else sibling := by
    rw [Keyed.lookup, List.find?_map]
    congr 2
    funext sibling
    by_cases hsibling : sibling.1.id = move.1.id <;> simp [hsibling, burstKey]
  have hknown : (siblings.any fun sibling => decide (sibling.1.id = move.1.id)) = true ↔
      burstKey move ∈ siblings.map burstKey := by
    simp [burstKey]
  unfold recordSibling
  split
  · rename_i hany
    rw [hmap]
    by_cases hid : burstKey move = id
    · rw [if_pos hid]
      obtain ⟨found, hfound⟩ := Option.isSome_iff_exists.mp
        (Keyed.lookup_isSome_iff.mpr (hid ▸ hknown.mp hany))
      have hkey : found.1.id = move.1.id := (Keyed.key_of_lookup hfound).trans hid.symm
      rw [hfound, Option.map_some, Option.map_some, Option.getD_some, if_pos hkey]
    · rw [if_neg hid]
      cases hfound : Keyed.lookup burstKey siblings id with
      | none => rfl
      | some found =>
          have hfoundKey : burstKey found = id := Keyed.key_of_lookup hfound
          have hkey : found.1.id ≠ move.1.id := fun h => hid (h.symm.trans hfoundKey)
          rw [Option.map_some, if_neg hkey]
  · rename_i hany
    have hnone : Keyed.lookup burstKey siblings (burstKey move) = none :=
      Keyed.lookup_eq_none_iff.mpr (mt hknown.mpr hany)
    rw [Keyed.lookup_append, Keyed.lookup_cons]
    by_cases hid : burstKey move = id
    · rw [if_pos hid, if_pos hid, ← hid, hnone]
      rfl
    · rw [if_neg hid, if_neg hid]
      exact Option.or_none

theorem keys_recordSibling (siblings : List (Card × I64)) (move : Card × I64) :
    (recordSibling siblings move).map burstKey =
      if burstKey move ∈ siblings.map burstKey then siblings.map burstKey
      else siblings.map burstKey ++ [burstKey move] := by
  have hknown : (siblings.any fun sibling => decide (sibling.1.id = move.1.id)) = true ↔
      burstKey move ∈ siblings.map burstKey := by
    simp [burstKey]
  unfold recordSibling
  by_cases hany : burstKey move ∈ siblings.map burstKey
  · rw [if_pos (hknown.mpr hany), if_pos hany, List.map_map]
    refine List.map_congr_left fun sibling _ => ?_
    by_cases hsibling : sibling.1.id = move.1.id <;> simp [hsibling, burstKey]
  · rw [if_neg (mt hknown.mp hany), if_neg hany, List.map_append, List.map_singleton]

theorem lookup_foldl_recordSibling (hmoves : (moves.map burstKey).Nodup)
    (siblings : List (Card × I64)) (id : Uuid) :
    Keyed.lookup burstKey (moves.foldl recordSibling siblings) id =
      ((Keyed.lookup burstKey moves id).map fun move =>
        (((Keyed.lookup burstKey siblings id).map Prod.fst).getD move.1, move.2)).or
        (Keyed.lookup burstKey siblings id) := by
  induction moves generalizing siblings with
  | nil => rfl
  | cons move rest ih =>
      obtain ⟨hmove, hrest⟩ := List.nodup_cons.mp hmoves
      rw [List.foldl_cons, ih hrest, lookup_recordSibling, Keyed.lookup_cons]
      by_cases hid : burstKey move = id
      · have hnone : Keyed.lookup burstKey rest id = none :=
          Keyed.lookup_eq_none_iff.mpr (hid ▸ hmove)
        rw [if_pos hid, if_pos hid, hnone]
        rfl
      · rw [if_neg hid, if_neg hid]

theorem nodup_foldl_recordSibling (hsiblings : (siblings.map burstKey).Nodup) :
    ((moves.foldl recordSibling siblings).map burstKey).Nodup := by
  induction moves generalizing siblings with
  | nil => exact hsiblings
  | cons move rest ih =>
      apply ih
      rw [keys_recordSibling]
      split
      · exact hsiblings
      · rename_i hnew
        rw [List.nodup_append']
        exact ⟨hsiblings, List.nodup_singleton _, fun id hid hself =>
          hnew (List.mem_singleton.mp hself ▸ hid)⟩

theorem mem_keys_foldl_recordSibling :
    id ∈ (moves.foldl recordSibling siblings).map burstKey ↔
      id ∈ moves.map burstKey ∨ id ∈ siblings.map burstKey := by
  induction moves generalizing siblings with
  | nil => simp
  | cons move rest ih =>
      rw [List.foldl_cons, ih, keys_recordSibling, List.map_cons, List.mem_cons]
      split
      · rename_i hknown
        constructor
        · rintro (hrest | hold)
          · exact .inl (.inr hrest)
          · exact .inr hold
        · rintro ((rfl | hrest) | hold)
          · exact .inr hknown
          · exact .inl hrest
          · exact .inr hold
      · rw [List.mem_append, List.mem_singleton]
        tauto

theorem lookup_siblingsWithPrev (placement : Placement) (allCards : List Card) (id : Uuid) :
    Keyed.lookup burstKey (placement.siblingsWithPrev allCards) id =
      (Keyed.lookup Prod.fst placement.shifted id).bind fun move =>
        (Keyed.lookup Card.id allCards id).map fun card => (card, move.2) := by
  unfold Placement.siblingsWithPrev
  induction placement.shifted with
  | nil => rfl
  | cons move rest ih =>
      obtain ⟨other, priority⟩ := move
      rw [List.filterMap_cons, Keyed.lookup_cons]
      dsimp only
      cases hfind : allCards.find? fun card => card.id = other with
      | none =>
          rw [Option.map_none]
          dsimp only
          rw [ih]
          by_cases hid : other = id
          · have hnone : Keyed.lookup Card.id allCards id = none := hid ▸ hfind
            simp [hnone]
          · rw [if_neg hid]
      | some card =>
          have hcard : card.id = other := Keyed.key_of_lookup hfind
          rw [Option.map_some]
          dsimp only
          rw [Keyed.lookup_cons, ih]
          by_cases hid : other = id
          · have hsome : Keyed.lookup Card.id allCards id = some card := hid ▸ hfind
            rw [if_pos hid, if_pos (hcard.trans hid), Option.bind_some, hsome]
            rfl
          · rw [if_neg hid, if_neg fun h => hid (hcard.symm.trans h)]

theorem keys_siblingsWithPrev (placement : Placement) (allCards : List Card) :
    ((placement.siblingsWithPrev allCards).map burstKey).Sublist (placement.shifted.map Prod.fst) := by
  unfold Placement.siblingsWithPrev
  induction placement.shifted with
  | nil => exact .slnil
  | cons move rest ih =>
      obtain ⟨other, priority⟩ := move
      rw [List.filterMap_cons, List.map_cons]
      dsimp only
      cases hfind : allCards.find? fun card => card.id = other with
      | none => exact ih.cons other
      | some card =>
          have hcard : card.id = other := Keyed.key_of_lookup hfind
          rw [Option.map_some]
          dsimp only
          rw [List.map_cons]
          change (card.id :: _).Sublist _
          rw [hcard]
          exact ih.cons_cons other

end

/-! ### The burst of a move -/

namespace ClientState

variable {client : ClientState} {prevCard : Card} {newPriority : I64}
  {siblingsWithPrev : List (Card × I64)}

theorem base_burstOf (client : ClientState) (prevCard : Card) (newPriority : I64)
    (siblingsWithPrev : List (Card × I64)) :
    (client.burstOf prevCard newPriority siblingsWithPrev).base.id = prevCard.id := by
  unfold burstOf PriorityBurst.applyMove
  dsimp only
  split
  · split
    · assumption
    · rfl
  · rfl

/-- A burst of the same card keeps its snapshots, and takes the new targets. -/
theorem entry_burstOf (hpending : ∀ burst ∈ client.pendingPriority, burst.base.id = prevCard.id)
    (hnodup : (((prevCard, newPriority) :: siblingsWithPrev).map burstKey).Nodup) (id : Uuid) :
    (client.burstOf prevCard newPriority siblingsWithPrev).entry id =
      ((Keyed.lookup burstKey ((prevCard, newPriority) :: siblingsWithPrev) id).map fun move =>
        (((client.entry id).map Prod.fst).getD move.1, move.2)).or (client.entry id) := by
  obtain ⟨hself, hsiblings⟩ := List.nodup_cons.mp hnodup
  unfold burstOf ClientState.entry PriorityBurst.entry PriorityBurst.cards PriorityBurst.applyMove
  cases hburst : client.pendingPriority with
  | none =>
      simp only [PriorityBurst.new, Option.bind_none]
      rw [Keyed.lookup_cons, lookup_foldl_recordSibling hsiblings, Keyed.lookup_cons]
      split
      · rfl
      · rfl
  | some burst =>
      have hsame := hpending burst hburst
      simp only [hsame, if_true, Option.bind_some]
      rw [Keyed.lookup_cons, lookup_foldl_recordSibling hsiblings, Keyed.lookup_cons,
        Keyed.lookup_cons]
      have hkeys : ∀ priority, burstKey (burst.base, priority) = burstKey (prevCard, newPriority) :=
        fun _ => hsame
      simp only [hkeys]
      split
      · rfl
      · rfl

/-- The keys of the burst of a move are those of the move and those recorded before. -/
theorem apart_burstOf (hpending : ∀ burst ∈ client.pendingPriority, burst.Apart)
    (hapart : prevCard.id ∉ siblingsWithPrev.map burstKey) :
    (client.burstOf prevCard newPriority siblingsWithPrev).Apart := by
  unfold burstOf PriorityBurst.Apart PriorityBurst.cards PriorityBurst.applyMove
  have hnew : ∀ {base : Card} {siblings : List (Card × I64)}, base.id = prevCard.id →
      base.id ∉ siblings.map burstKey → (siblings.map burstKey).Nodup →
        (((base, newPriority) :: siblingsWithPrev.foldl recordSibling siblings).map burstKey).Nodup := by
    intro base siblings hbase hself hsiblings
    rw [List.map_cons, List.nodup_cons]
    refine ⟨fun hmem => ?_, nodup_foldl_recordSibling hsiblings⟩
    rcases mem_keys_foldl_recordSibling.mp hmem with hmove | hold
    · exact hapart (hbase ▸ hmove)
    · exact hself hold
  cases hburst : client.pendingPriority with
  | none => exact hnew rfl List.not_mem_nil List.nodup_nil
  | some burst =>
      dsimp only
      split
      · rename_i hsame
        have hold := hpending burst hburst
        rw [PriorityBurst.Apart, PriorityBurst.cards, List.map_cons, List.nodup_cons] at hold
        exact hnew hsame hold.1 hold.2
      · exact hnew rfl List.not_mem_nil List.nodup_nil

end ClientState

/-! ### The versions of a burst -/

section

variable [Blake3] {burst : PriorityBurst} {env : Env} {primary : Card} {siblings : List Card}

theorem Card.reprioritized_eq_some_iff {card version : Card} {priority : I64} {now : DateTime} :
    card.reprioritized priority now = some version ↔
      Entity.verify version = true ∧ version.id = card.id ∧ version.content = card.content ∧
        version.priority = priority ∧ version.tags = card.tags.insertionSort (· ≤ ·) ∧
        version.blazed = card.blazed ∧ version.createdAt = card.createdAt ∧
        version.modifiedAt = now ∧ version.dueDate = card.dueDate ∧
        version.count.val = card.count.val + 1 ∧ version.ancestorHash = card.hash :=
  Card.next_eq_some_iff

theorem PriorityBurst.versions_forall₂ (h : burst.buildVersions env = some (primary, siblings)) :
    ∃ order, order.Perm burst.siblings ∧
      List.Forall₂ (fun move version => move.1.reprioritized move.2 env.now = some version)
        ((burst.base, burst.priority) :: order) (primary :: siblings) := by
  obtain ⟨first, hfirst, hrest⟩ := Option.bind_eq_some_iff.mp h
  obtain ⟨others, hothers, heq⟩ := Option.bind_eq_some_iff.mp hrest
  cases heq
  exact ⟨_, List.orderBy_perm _ _, .cons hfirst (Option.forall₂_of_mapM hothers)⟩

/-- Each card of the burst gets one version, from its snapshot to its target. -/
theorem PriorityBurst.lookup_versions (hapart : burst.Apart)
    (h : burst.buildVersions env = some (primary, siblings)) (id : Uuid) :
    Keyed.lookup Card.id (primary :: siblings) id =
      (burst.entry id).bind fun move => move.1.reprioritized move.2 env.now := by
  obtain ⟨order, hperm, hmade⟩ := versions_forall₂ h
  have hcards : burst.cards.Perm ((burst.base, burst.priority) :: order) := hperm.symm.cons _
  rw [PriorityBurst.entry, Keyed.lookup_perm hcards hapart]
  exact Keyed.lookup_forall₂ hmade
    (fun move version hversion => (Card.reprioritized_eq_some_iff.mp hversion).2.1) id

theorem PriorityBurst.keys_versions (h : burst.buildVersions env = some (primary, siblings)) :
    primary.id = burst.base.id ∧ (siblings.map Card.id).Perm (burst.siblings.map burstKey) := by
  obtain ⟨order, hperm, hmade⟩ := versions_forall₂ h
  obtain ⟨hprimary, hsiblings⟩ := List.forall₂_cons.mp hmade
  have hkeys : ∀ {rows : List (Card × I64)} {made : List Card},
      List.Forall₂ (fun move version => move.1.reprioritized move.2 env.now = some version) rows made →
        made.map Card.id = rows.map burstKey := by
    intro rows made hmade
    induction hmade with
    | nil => rfl
    | cons hfirst _ ih =>
        rw [List.map_cons, List.map_cons, ih, (Card.reprioritized_eq_some_iff.mp hfirst).2.1]
  refine ⟨(Card.reprioritized_eq_some_iff.mp hprimary).2.1, ?_⟩
  rw [hkeys hsiblings]
  exact hperm.map burstKey

theorem PriorityBurst.mem_keys_versions {id : Uuid} (h : burst.buildVersions env = some (primary, siblings)) :
    id ∈ (primary :: siblings).map Card.id ↔ id ∈ burst.cards.map burstKey := by
  obtain ⟨hprimary, hsiblings⟩ := keys_versions h
  rw [List.map_cons, List.mem_cons, hprimary, hsiblings.mem_iff, PriorityBurst.cards, List.map_cons,
    List.mem_cons]

theorem PriorityBurst.nodup_versions (hapart : burst.Apart)
    (h : burst.buildVersions env = some (primary, siblings)) :
    ((primary :: siblings).map Card.id).Nodup := by
  obtain ⟨hprimary, hsiblings⟩ := keys_versions h
  have hperm : ((primary :: siblings).map Card.id).Perm (burst.cards.map burstKey) := by
    rw [List.map_cons, PriorityBurst.cards, List.map_cons, hprimary]
    exact hsiblings.cons _
  exact hperm.nodup_iff.mpr hapart

theorem PriorityBurst.exists_versions_iff (burst : PriorityBurst) (env : Env) :
    (∃ versions, burst.buildVersions env = some versions) ↔
      ∀ move ∈ burst.cards, move.1.count.val < 9223372036854775807 := by
  have hsiblings : ∀ order : List (Card × I64), order.Perm burst.siblings →
      ((∃ made, (order.mapM fun sibling : Card × I64 => sibling.1.reprioritized sibling.2 env.now) =
          some made) ↔ ∀ move ∈ burst.siblings, move.1.count.val < 9223372036854775807) := by
    intro order hperm
    rw [Option.exists_mapM_iff]
    simp only [Card.reprioritized, Card.exists_next_iff, hperm.mem_iff]
  have hperm := List.orderBy_perm (fun sibling : Card × I64 => env.hashOrder.idxOf sibling.1.id)
    burst.siblings
  have hbase : (∃ version, burst.base.reprioritized burst.priority env.now = some version) ↔
      burst.base.count.val < 9223372036854775807 := Card.exists_next_iff _ _ _ _ _ _ _
  rw [PriorityBurst.cards, List.forall_mem_cons, ← hsiblings _ hperm, ← hbase]
  constructor
  · rintro ⟨versions, h⟩
    obtain ⟨first, hfirst, hrest⟩ := Option.bind_eq_some_iff.mp h
    obtain ⟨others, hothers, -⟩ := Option.bind_eq_some_iff.mp hrest
    exact ⟨⟨first, hfirst⟩, others, hothers⟩
  · rintro ⟨⟨first, hfirst⟩, others, hothers⟩
    refine ⟨(first, others), ?_⟩
    rw [PriorityBurst.buildVersions, hfirst, Option.bind_eq_bind, Option.bind_some, hothers]
    rfl

end

/-! ### Recording a move -/

section

variable [Blake3] {client after : ClientState} {prevCard : Card} {newPriority : I64}
  {siblingsWithPrev : List (Card × I64)} {env : Env}

/-- After a move the screen shows the versions of the burst, and the other cards as before. -/
theorem ClientState.recordMove_spec
    (h : client.recordMove prevCard newPriority siblingsWithPrev env = some after) :
    after.pendingPriority = some (client.burstOf prevCard newPriority siblingsWithPrev) ∧
      ∃ primary siblings, (client.burstOf prevCard newPriority siblingsWithPrev).buildVersions env =
          some (primary, siblings) ∧
        after.cards = (primary :: siblings).foldl replaceCard client.cards := by
  obtain ⟨⟨primary, siblings⟩, hbuilt, rfl⟩ := Option.map_eq_some_iff.mp h
  dsimp only
  rw [foldl_upsertCard]
  exact ⟨rfl, primary, siblings, hbuilt, rfl⟩

theorem ClientState.lookup_recordMove
    (h : client.recordMove prevCard newPriority siblingsWithPrev env = some after)
    (hapart : (client.burstOf prevCard newPriority siblingsWithPrev).Apart) (id : Uuid) :
    Keyed.lookup Card.id after.cards id =
      ((after.entry id).bind fun move => move.1.reprioritized move.2 env.now).or
        (Keyed.lookup Card.id client.cards id) := by
  obtain ⟨hpending, primary, siblings, hbuilt, hcards⟩ := recordMove_spec h
  rw [ClientState.entry, hpending, Option.bind_some, ← PriorityBurst.lookup_versions hapart hbuilt,
    hcards]
  exact Keyed.lookup_foldl_replace (PriorityBurst.nodup_versions hapart hbuilt) client.cards id

theorem ClientState.nodup_recordMove
    (h : client.recordMove prevCard newPriority siblingsWithPrev env = some after)
    (hids : (client.cards.map Card.id).Nodup) : (after.cards.map Card.id).Nodup := by
  obtain ⟨-, primary, siblings, -, hcards⟩ := recordMove_spec h
  rw [hcards]
  exact Keyed.nodup_foldl_replace hids

end

end BlazeList
