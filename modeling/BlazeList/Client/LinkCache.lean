import BlazeList.Client.LinkCounts
import BlazeList.Lib.Run

/-!
# The link graph cache

For each linked card the list view keeps what the expansion finds from it. After an update of the cards
the entries that the update may have touched are dropped, and what is missing is computed again in idle
time, one connected component after the other.
-/

namespace BlazeList

/-- For an id the hash of the content it was computed from, and the other ids of its component. -/
abbrev LinkGraphCache := Uuid → Option (Hash × List Uuid)

/-! ### The effect and its passes -/

def fingerprint (cards : List Card) : BitVec 64 :=
  cards.foldl (fun acc card => acc + BitVec.ofNat 64 card.count.val)
    (BitVec.ofNat 64 cards.length * 0x517cc1b727220a95)

def allLinked (cards : List Card) : List Uuid :=
  let direct := computeAllLinkCounts cards
  (cards.filter fun card => (direct card.id).any fun counts =>
    counts.forward > 0 ∨ counts.back > 0 ∨ counts.mutualLinks > 0).map Card.id

structure Pass where
  generation : BitVec 32
  cards : List Card
  contentHashes : Uuid → Option Hash
  cardIds : List Uuid
  grandTotal : Nat
  offset : Nat
  filled : List Uuid

abbrev Batch := List (Uuid × Hash × List Uuid)

/-- The next card of the pass, unless it was filled together with an earlier one: every member of its
component gets the rest of the component. -/
def Pass.round (pass : Pass) (batch : Batch) : Pass × Batch :=
  match pass.cardIds[pass.offset]? with
  | none => (pass, batch)
  | some cid =>
      let pass := { pass with offset := pass.offset + 1 }
      if cid ∈ pass.filled then (pass, batch)
      else
        let component := expandLinkedCards cid pass.cards ++ [cid]
        ({ pass with filled := pass.filled ++ component },
          batch ++ component.map fun member =>
            (member, (pass.contentHashes member).getD zeroHash, component.filter fun id => id ≠ member))

def Pass.rounds (pass : Pass) (batch : Batch) : Nat → Pass × Batch
  | 0 => (pass, batch)
  | n + 1 => (pass.round batch).1.rounds (pass.round batch).2 n

def LinkGraphCache.insertAll (cache : LinkGraphCache) (batch : Batch) : LinkGraphCache :=
  batch.foldl (fun cache (id, entry) => Function.update cache id (some entry)) cache

/-- The card list's signals and cells, and the idle callbacks that were asked for. -/
structure LinkCache where
  enabled : Bool
  cards : List Card
  lastFingerprint : BitVec 64
  generation : BitVec 32
  cache : LinkGraphCache
  progress : Nat × Nat
  waiting : List Pass

def LinkCache.start : LinkCache where
  enabled := false
  cards := []
  lastFingerprint := 0
  generation := 0
  cache := fun _ => none
  progress := (0, 0)
  waiting := []

/-- The cards changed, or a switch did: `enabled` says that link counts are shown and links followed recursively.
Or one of the waiting callbacks is called. -/
inductive CacheEvent where
  | update (enabled : Bool) (cards : List Card)
  | idle (index rounds : Nat)

section

variable [Blake3]

def contentHash (card : Card) : Hash := Blake3.digest card.content.toUTF8.toList

def neededHashes (existing : LinkGraphCache) (cards : List Card) (id : Uuid) : Option Hash :=
  let needed := cards.filter fun card => (existing card.id).isSome ∨ card.id ∈ allLinked cards
  (Keyed.lookup Card.id needed.reverse id).map contentHash

def isChanged (existing : LinkGraphCache) (contentHashes : Uuid → Option Hash) (id : Uuid) : Bool :=
  match existing id with
  | some (cachedHash, _) =>
      match contentHashes id with
      | some currentHash => currentHash ≠ cachedHash
      | none => true
  | none => false

/-- Changed entries go, then those with a changed card among the ids they hold, then those of no card. -/
def invalidate (existing : LinkGraphCache) (contentHashes : Uuid → Option Hash) (cards : List Card) :
    LinkGraphCache := fun id =>
  (existing id).filter fun (_, reachable) =>
    isChanged existing contentHashes id = false ∧
      (∀ member ∈ reachable, isChanged existing contentHashes member = false) ∧ id ∈ cards.map Card.id

/-- The effect of new cards. A list with the fingerprint of the last one is taken for the same list. -/
def LinkCache.update (state : LinkCache) (enabled : Bool) (cards : List Card) : LinkCache :=
  if enabled = false then
    { state with
      enabled, cards
      generation := state.generation + 1
      cache := fun _ => none
      progress := (0, 0)
      lastFingerprint := 0 }
  else if fingerprint cards = state.lastFingerprint then { state with enabled, cards }
  else
    let contentHashes := neededHashes state.cache cards
    let cache := invalidate state.cache contentHashes cards
    let cardIds := (allLinked cards).filter fun id => (cache id).isNone
    let next := { state with
      enabled, cards, cache
      lastFingerprint := fingerprint cards
      generation := state.generation + 1 }
    if cardIds = [] then { next with progress := (0, 0) }
    else
      let grandTotal := (allLinked cards).length
      let pass : Pass :=
        { generation := next.generation, cards, contentHashes, cardIds, grandTotal, offset := 0, filled := [] }
      { next with progress := (grandTotal, cardIds.length), waiting := state.waiting ++ [pass] }

/-- An idle callback: a pass goes on for as many rounds as there is time for, at least one, and asks to be
called again if it is not through. A pass of an older generation does nothing. -/
def LinkCache.idle (state : LinkCache) (index rounds : Nat) : LinkCache :=
  match state.waiting[index]? with
  | none => state
  | some pass =>
      let waiting := state.waiting.eraseIdx index
      if pass.generation ≠ state.generation then { state with waiting }
      else
        let (pass, batch) := pass.rounds [] (rounds + 1)
        let cache := state.cache.insertAll batch
        let remaining := (pass.cardIds.filter fun id => id ∉ pass.filled).length
        if pass.offset < pass.cardIds.length then
          { state with cache, progress := (pass.grandTotal, remaining), waiting := waiting ++ [pass] }
        else { state with cache, progress := (0, 0), waiting }

def LinkCache.step (state : LinkCache) : CacheEvent → LinkCache
  | .update enabled cards => state.update enabled cards
  | .idle index rounds => state.idle index rounds

theorem LinkCache.step_update (state : LinkCache) (enabled : Bool) (cards : List Card) :
    state.step (.update enabled cards) = state.update enabled cards :=
  rfl

/-- The early return, the entries that are there stay. -/
theorem LinkCache.update_of_fingerprint_eq {state : LinkCache} {cards : List Card}
    (h : fingerprint cards = state.lastFingerprint) :
    state.update true cards = { state with enabled := true, cards } := by
  rw [LinkCache.update, if_neg (by decide), if_pos h]

theorem LinkCache.update_of_unlinked {state : LinkCache} {cards : List Card}
    (hfresh : ¬ fingerprint cards = state.lastFingerprint) (hunlinked : allLinked cards = []) :
    state.update true cards =
      { state with
        enabled := true
        cards := cards
        cache := invalidate state.cache (neededHashes state.cache cards) cards
        lastFingerprint := fingerprint cards
        generation := state.generation + 1
        progress := (0, 0) } := by
  rw [LinkCache.update, if_neg (by decide), if_neg hfresh]
  dsimp only
  rw [hunlinked, List.filter_nil, if_pos rfl]

end

/-! ### Components -/

def LinkedIds (cards : List Card) (a b : Uuid) : Prop :=
  (∃ card ∈ cards, card.id = a ∧ Mentions card b) ∨ ∃ card ∈ cards, card.id = b ∧ Mentions card a

/-- The ids that are connected with this one, ids of no card among them. -/
def ConnectedIds (cards : List Card) (a b : Uuid) : Prop := Relation.ReflTransGen (LinkedIds cards) a b

theorem LinkedIds.symm {cards : List Card} {a b : Uuid} (h : LinkedIds cards a b) : LinkedIds cards b a := Or.symm h

theorem ConnectedIds.symm {cards : List Card} {a b : Uuid} (h : ConnectedIds cards a b) : ConnectedIds cards b a := by
  induction h with
  | refl => exact .refl
  | tail _ hlink ih => exact ih.head hlink.symm

/-- The cards have distinct ids and spell ids in lower case. -/
structure PlainCards (cards : List Card) : Prop where
  nodup : (cards.map Card.id).Nodup
  lower : ∀ card ∈ cards, SpelledInLowerCase card

theorem PlainCards.edge_iff {cards : List Card} (h : PlainCards cards) {a b : Uuid} :
    Search.Edge (neighbors cards) a b ↔ LinkedIds cards a b := by
  have hback {node : Uuid} : (∃ other ∈ cards, other.id = b ∧ Mentions other node ∧ AlsoLowerCase other node) ↔
      ∃ other ∈ cards, other.id = b ∧ Mentions other node := by
    constructor
    · rintro ⟨other, hother, hid, hmentions, -⟩
      exact ⟨other, hother, hid, hmentions⟩
    · rintro ⟨other, hother, hid, hmentions⟩
      exact ⟨other, hother, hid, hmentions, (h.lower other hother).alsoLowerCase node⟩
  by_cases hcard : ∃ card ∈ cards, card.id = a
  · obtain ⟨card, hcard, rfl⟩ := hcard
    rw [Search.Edge, mem_neighbors_of_mem h.nodup hcard, hback, LinkedIds]
    refine or_congr_left ⟨fun hmentions => ⟨card, hcard, rfl, hmentions⟩, ?_⟩
    rintro ⟨other, hother, hid, hmentions⟩
    rwa [← card_eq_of_id_eq h.nodup hother hcard hid]
  · have hmissing : ∀ card ∈ cards, card.id ≠ a := fun card hmem hid => hcard ⟨card, hmem, hid⟩
    rw [Search.Edge, mem_neighbors_of_missing hmissing, hback, LinkedIds]
    refine (or_iff_right ?_).symm
    rintro ⟨card, hmem, hid, -⟩
    exact hmissing card hmem hid

theorem PlainCards.mem_expandLinkedCards_iff {cards : List Card} (h : PlainCards cards) {a b : Uuid} :
    b ∈ expandLinkedCards a cards ↔ b ≠ a ∧ ConnectedIds cards a b := by
  have hedge : Search.Edge (neighbors cards) = LinkedIds cards := by
    funext x y
    exact propext h.edge_iff
  rw [(expandLinkedCards_spec a cards).2.2.1, hedge, ConnectedIds]
  refine and_congr_right fun hne => ?_
  rw [Relation.reflTransGen_iff_eq_or_transGen, or_iff_right hne]

def IsLinked (cards : List Card) (id : Uuid) : Prop :=
  ∃ card ∈ cards, card.id = id ∧ ∃ other ∈ cards, DirectlyLinked card other

theorem PlainCards.mem_allLinked_iff {cards : List Card} (h : PlainCards cards) {id : Uuid} :
    id ∈ allLinked cards ↔ IsLinked cards id := by
  have hpositive (counts : Option LinkCounts) :
      counts.any (fun counts => counts.forward > 0 ∨ counts.back > 0 ∨ counts.mutualLinks > 0) = true ↔
        0 < (counts.getD {}).direct := by
    cases counts with
    | none => simp [LinkCounts.direct]
    | some counts =>
        simp [LinkCounts.direct]
        omega
  simp only [allLinked, List.mem_map, List.mem_filter, IsLinked]
  constructor
  · rintro ⟨card, ⟨hcard, hany⟩, rfl⟩
    have hdirect := (hpositive _).mp hany
    rw [← CountMap.entry, direct_eq_length, List.length_pos_iff_exists_mem] at hdirect
    obtain ⟨other, hother⟩ := hdirect
    rcases (mem_linkedIds h.nodup).mp hother with hforward | hback
    · obtain ⟨own, hown, hid, hmentions, hexisting⟩ := (mem_linkPairs h.nodup).mp hforward
      obtain ⟨target, htarget, rfl⟩ := List.mem_map.mp hexisting
      obtain rfl := card_eq_of_id_eq h.nodup hown hcard hid
      exact ⟨own, hown, rfl, target, htarget, .inl hmentions⟩
    · obtain ⟨source, hsource, rfl, hmentions, -⟩ := (mem_linkPairs h.nodup).mp hback
      exact ⟨card, hcard, rfl, source, hsource, .inr hmentions⟩
  · rintro ⟨card, hcard, rfl, other, hother, hlinked⟩
    refine ⟨card, ⟨hcard, (hpositive _).mpr ?_⟩, rfl⟩
    rw [← CountMap.entry, direct_eq_length, List.length_pos_iff_exists_mem]
    refine ⟨other.id, (mem_linkedIds h.nodup).mpr ?_⟩
    rw [mem_linkPairs h.nodup, mem_linkPairs h.nodup]
    rcases hlinked with hforward | hback
    · exact .inl ⟨card, hcard, rfl, hforward, List.mem_map.mpr ⟨other, hother, rfl⟩⟩
    · exact .inr ⟨other, hother, rfl, hback, List.mem_map.mpr ⟨card, hcard, rfl⟩⟩

/-! ### Lists with the same contents -/

def SameTexts (left right : List Card) : Prop :=
  ∀ id content, (∃ card ∈ left, card.id = id ∧ card.content = content) ↔
    ∃ card ∈ right, card.id = id ∧ card.content = content

theorem mentions_congr {a b : Card} (hid : a.id = b.id) (hcontent : a.content = b.content) (id : Uuid) :
    Mentions a id ↔ Mentions b id := by
  rw [Mentions, Mentions, hid, hcontent]

namespace SameTexts

variable {left right : List Card}

theorem refl (cards : List Card) : SameTexts cards cards := fun _ _ => Iff.rfl

theorem symm (h : SameTexts left right) : SameTexts right left := fun id content => (h id content).symm

theorem trans {middle : List Card} (h : SameTexts left middle) (hmiddle : SameTexts middle right) :
    SameTexts left right := fun id content => (h id content).trans (hmiddle id content)

theorem exists_card (h : SameTexts left right) {card : Card} (hcard : card ∈ left) :
    ∃ other ∈ right, other.id = card.id ∧ other.content = card.content :=
  (h card.id card.content).mp ⟨card, hcard, rfl, rfl⟩

theorem exists_mentions_iff (h : SameTexts left right) {a b : Uuid} :
    (∃ card ∈ left, card.id = a ∧ Mentions card b) ↔ ∃ card ∈ right, card.id = a ∧ Mentions card b := by
  constructor
  · rintro ⟨card, hcard, rfl, hmentions⟩
    obtain ⟨other, hother, hid, hcontent⟩ := h.exists_card hcard
    exact ⟨other, hother, hid, (mentions_congr hid hcontent b).mpr hmentions⟩
  · rintro ⟨card, hcard, rfl, hmentions⟩
    obtain ⟨other, hother, hid, hcontent⟩ := h.symm.exists_card hcard
    exact ⟨other, hother, hid, (mentions_congr hid hcontent b).mpr hmentions⟩

theorem linkedIds_eq (h : SameTexts left right) : LinkedIds left = LinkedIds right := by
  funext a b
  rw [LinkedIds, LinkedIds, h.exists_mentions_iff, h.exists_mentions_iff]

theorem connectedIds_iff (h : SameTexts left right) {a b : Uuid} :
    ConnectedIds left a b ↔ ConnectedIds right a b := by
  rw [ConnectedIds, ConnectedIds, h.linkedIds_eq]

end SameTexts

/-! ### What an entry promises -/

def Holds (id : Uuid) (reachable : List Uuid) (x : Uuid) : Prop := x = id ∨ x ∈ reachable

section

variable [Blake3]

/-- An entry holds connected ids, and all that its cards mention. Its members have entries that hold the
same, and whoever has an entry and mentions a member is one. Only an entry with an id of no card need be
the whole component. -/
structure SoundEntry (cards : List Card) (cache : LinkGraphCache) (id : Uuid) (hash : Hash)
    (reachable : List Uuid) : Prop where
  self : id ∉ reachable
  uniform : ∀ member ∈ reachable, ∃ hash' reachable', cache member = some (hash', reachable') ∧
    ∀ x, Holds member reachable' x ↔ Holds id reachable x
  closed : ∀ card ∈ cards, Holds id reachable card.id → ∀ x, Mentions card x → Holds id reachable x
  connected : ∀ x, Holds id reachable x →
    Relation.ReflTransGen (fun a b => Holds id reachable a ∧ Holds id reachable b ∧ LinkedIds cards a b) id x
  sources : ∀ card ∈ cards, (cache card.id).isSome → ∀ x, Mentions card x → Holds id reachable x →
    Holds id reachable card.id
  hash_eq : hash = zeroHash ∨ ∃ card ∈ cards, card.id = id ∧ hash = contentHash card
  missing : ∀ x, Holds id reachable x → (∀ card ∈ cards, card.id ≠ x) →
    ∀ y, ConnectedIds cards id y → Holds id reachable y

def Sound (cards : List Card) (cache : LinkGraphCache) : Prop :=
  ∀ id hash reachable, cache id = some (hash, reachable) → SoundEntry cards cache id hash reachable

variable {cards : List Card} {cache : LinkGraphCache} {id : Uuid} {hash : Hash} {reachable : List Uuid}

theorem SoundEntry.connectedIds (h : SoundEntry cards cache id hash reachable) {x : Uuid}
    (hx : Holds id reachable x) : ConnectedIds cards id x :=
  Relation.ReflTransGen.mono (fun _ _ hstep => hstep.2.2) _ _ (h.connected x hx)

theorem sound_empty (cards : List Card) : Sound cards fun _ => none := fun _ _ _ h => by cases h

theorem Sound.congr {other : List Card} (h : Sound cards cache) (hsame : SameTexts cards other) :
    Sound other cache := by
  intro id hash reachable hentry
  have hsound := h id hash reachable hentry
  refine ⟨hsound.self, hsound.uniform, ?_, ?_, ?_, ?_, ?_⟩
  · intro card hcard hholds x hmentions
    obtain ⟨old, hold, hid, hcontent⟩ := hsame.symm.exists_card hcard
    exact hsound.closed old hold (hid ▸ hholds) x ((mentions_congr hid hcontent x).mpr hmentions)
  · rw [← hsame.linkedIds_eq]
    exact hsound.connected
  · intro card hcard hsome x hmentions hholds
    obtain ⟨old, hold, hid, hcontent⟩ := hsame.symm.exists_card hcard
    rw [← hid] at hsome ⊢
    exact hsound.sources old hold hsome x ((mentions_congr hid hcontent x).mpr hmentions) hholds
  · refine hsound.hash_eq.imp_right ?_
    rintro ⟨card, hcard, rfl, rfl⟩
    obtain ⟨new, hnew, hid, hcontent⟩ := hsame.exists_card hcard
    exact ⟨new, hnew, hid, by rw [contentHash, contentHash, hcontent]⟩
  · intro x hholds hmissing y hconnected
    refine hsound.missing x hholds (fun card hcard hid => ?_) y (hsame.connectedIds_iff.mpr hconnected)
    obtain ⟨new, hnew, hnewId, -⟩ := hsame.exists_card hcard
    exact hmissing new hnew (hnewId.trans hid)

/-! ### Filling a component -/

omit [Blake3] in
theorem holds_filter_iff {component : List Uuid} (hid : id ∈ component) (x : Uuid) :
    Holds id (component.filter fun other => other ≠ id) x ↔ x ∈ component := by
  rw [Holds, List.mem_filter, decide_eq_true_eq]
  constructor
  · rintro (rfl | ⟨hx, -⟩)
    · exact hid
    · exact hx
  · intro hx
    by_cases heq : x = id
    · exact .inl heq
    · exact .inr ⟨hx, heq⟩

section Component

variable {component : List Uuid} {cid : Uuid} {hashes : Uuid → Option Hash} {after : LinkGraphCache}

omit [Blake3] in
theorem mem_component_of_linkedIds (hcomponent : ∀ x, x ∈ component ↔ ConnectedIds cards cid x) {a b : Uuid}
    (ha : a ∈ component) (hlink : LinkedIds cards a b) : b ∈ component :=
  (hcomponent b).mpr (Relation.ReflTransGen.tail ((hcomponent a).mp ha) hlink)

/-- The new entry of a member. -/
theorem soundEntry_component (hcomponent : ∀ x, x ∈ component ↔ ConnectedIds cards cid x)
    (hhashes : ∀ x hash, hashes x = some hash → ∃ card ∈ cards, card.id = x ∧ hash = contentHash card)
    (hafter : ∀ x ∈ component,
      after x = some ((hashes x).getD zeroHash, component.filter fun other => other ≠ x)) (hid : id ∈ component) :
    SoundEntry cards after id ((hashes id).getD zeroHash) (component.filter fun other => other ≠ id) := by
  have hfrom := (hcomponent id).mp hid
  refine ⟨?_, ?_, ?_, ?_, ?_, ?_, ?_⟩
  · simp
  · intro member hmember
    have hmem := List.mem_of_mem_filter hmember
    refine ⟨_, _, hafter member hmem, fun x => ?_⟩
    rw [holds_filter_iff hmem, holds_filter_iff hid]
  · intro card hcard hcardHolds x hmentions
    rw [holds_filter_iff hid] at hcardHolds ⊢
    exact mem_component_of_linkedIds hcomponent hcardHolds (.inl ⟨card, hcard, rfl, hmentions⟩)
  · intro x hx
    rw [holds_filter_iff hid] at hx
    have hpath : ConnectedIds cards id x := hfrom.symm.trans ((hcomponent x).mp hx)
    simp only [holds_filter_iff hid]
    clear hx
    induction hpath with
    | refl => exact .refl
    | @tail a b hpath hlink ih =>
        have ha : a ∈ component := (hcomponent a).mpr (hfrom.trans hpath)
        exact ih.tail ⟨ha, mem_component_of_linkedIds hcomponent ha hlink, hlink⟩
  · intro card hcard _ x hmentions hx
    rw [holds_filter_iff hid] at hx ⊢
    exact mem_component_of_linkedIds hcomponent hx (.inr ⟨card, hcard, rfl, hmentions⟩)
  · cases hvalue : hashes id with
    | none => exact .inl rfl
    | some value =>
        obtain ⟨card, hcard, hcardId, rfl⟩ := hhashes id value hvalue
        exact .inr ⟨card, hcard, hcardId, rfl⟩
  · intro x _ _ y hconnected
    rw [holds_filter_iff hid]
    exact (hcomponent y).mpr (hfrom.trans hconnected)

/-- The entry of an id that is no member holds no member either, and stays sound. -/
theorem SoundEntry.outside (h : SoundEntry cards cache id hash reachable)
    (hcomponent : ∀ x, x ∈ component ↔ ConnectedIds cards cid x)
    (hafter : ∀ x, x ∉ component → after x = cache x) (hid : id ∉ component) :
    SoundEntry cards after id hash reachable := by
  have houtside {x : Uuid} (hx : Holds id reachable x) : x ∉ component := by
    intro hmem
    exact hid ((hcomponent id).mpr (((hcomponent x).mp hmem).trans (h.connectedIds hx).symm))
  refine ⟨h.self, ?_, h.closed, h.connected, ?_, h.hash_eq, h.missing⟩
  · intro member hmember
    obtain ⟨hash', reachable', hcache, hsame⟩ := h.uniform member hmember
    exact ⟨hash', reachable', (hafter member (houtside (.inr hmember))).trans hcache, hsame⟩
  · intro card hcard hsome x hmentions hx
    have hnot : card.id ∉ component := fun hmem =>
      houtside hx (mem_component_of_linkedIds hcomponent hmem (.inl ⟨card, hcard, rfl, hmentions⟩))
    rw [hafter card.id hnot] at hsome
    exact h.sources card hcard hsome x hmentions hx

/-- Where the members of a component get new entries, every entry is sound again. -/
theorem Sound.fill (h : Sound cards cache) (hcomponent : ∀ x, x ∈ component ↔ ConnectedIds cards cid x)
    (hhashes : ∀ x hash, hashes x = some hash → ∃ card ∈ cards, card.id = x ∧ hash = contentHash card)
    (hafter : ∀ x, after x =
      if x ∈ component then some ((hashes x).getD zeroHash, component.filter fun id => id ≠ x) else cache x) :
    Sound cards after := by
  have hmember (x : Uuid) (hx : x ∈ component) := (hafter x).trans (if_pos hx)
  have hother (x : Uuid) (hx : x ∉ component) := (hafter x).trans (if_neg hx)
  intro id hash reachable hentry
  by_cases hid : id ∈ component
  · rw [hmember id hid] at hentry
    obtain ⟨rfl, rfl⟩ := Prod.mk.inj (Option.some.inj hentry)
    exact soundEntry_component hcomponent hhashes hmember hid
  · rw [hother id hid] at hentry
    exact (h id hash reachable hentry).outside hcomponent hother hid

end Component

/-! ### Dropping entries -/

theorem mem_neededHashes {x : Uuid} {value : Hash} (h : neededHashes cache cards x = some value) :
    ∃ card ∈ cards, card.id = x ∧ value = contentHash card := by
  obtain ⟨card, hlookup, rfl⟩ := Option.map_eq_some_iff.mp h
  have hmem := List.mem_of_mem_filter (List.mem_reverse.mp (Keyed.mem_of_lookup hlookup))
  exact ⟨card, hmem, Keyed.key_of_lookup hlookup, rfl⟩

/-- An entry that is not changed is of a card with the hash that the entry has. -/
theorem exists_of_not_isChanged {x : Uuid} {cachedHash : Hash} {others : List Uuid}
    (hentry : cache x = some (cachedHash, others)) (h : isChanged cache (neededHashes cache cards) x = false) :
    ∃ card ∈ cards, card.id = x ∧ cachedHash = contentHash card := by
  rw [isChanged, hentry] at h
  dsimp only at h
  cases hvalue : neededHashes cache cards x with
  | none =>
      rw [hvalue] at h
      cases h
  | some value =>
      rw [hvalue] at h
      obtain ⟨card, hcard, hid, rfl⟩ := mem_neededHashes hvalue
      exact ⟨card, hcard, hid, (not_not.mp (of_decide_eq_false h)).symm⟩

theorem invalidate_eq_some_iff :
    invalidate cache (neededHashes cache cards) cards id = some (hash, reachable) ↔
      cache id = some (hash, reachable) ∧
        (∀ x, Holds id reachable x → isChanged cache (neededHashes cache cards) x = false) ∧
          id ∈ cards.map Card.id := by
  rw [invalidate, Option.filter_eq_some_iff]
  refine and_congr_right fun _ => ?_
  rw [decide_eq_true_eq]
  constructor
  · rintro ⟨hself, hothers, hid⟩
    refine ⟨fun x hx => ?_, hid⟩
    rcases hx with rfl | hx
    · exact hself
    · exact hothers x hx
  · rintro ⟨hall, hid⟩
    exact ⟨hall id (.inl rfl), fun member hmember => hall member (.inr hmember), hid⟩

/-- An entry that is not changed is of a card that was there before with the same content. -/
theorem Sound.exists_unchanged {old : List Card} (h : Sound old cache)
    (hdigest : ∀ a ∈ old, ∀ b ∈ cards, contentHash a = contentHash b → a.content = b.content)
    (hzero : ∀ card ∈ cards, contentHash card ≠ zeroHash) {x : Uuid} (hentry : cache x = some (hash, reachable))
    (hunchanged : isChanged cache (neededHashes cache cards) x = false) :
    ∃ card ∈ cards, card.id = x ∧ hash = contentHash card ∧
      ∃ before ∈ old, before.id = x ∧ before.content = card.content := by
  obtain ⟨card, hcard, hid, rfl⟩ := exists_of_not_isChanged hentry hunchanged
  obtain ⟨before, hbefore, hbeforeId, hhash⟩ := (h x _ reachable hentry).hash_eq.resolve_left (hzero card hcard)
  exact ⟨card, hcard, hid, rfl, before, hbefore, hbeforeId, hdigest before hbefore card hcard hhash.symm⟩

omit [Blake3] in
/-- A card that both lists have with one content mentions the same ids in both. -/
theorem exists_mentions_iff {old : List Card} (hold : (old.map Card.id).Nodup) (hcards : (cards.map Card.id).Nodup)
    {card before : Card} (hcard : card ∈ cards) (hbefore : before ∈ old) (hid : before.id = card.id)
    (hcontent : before.content = card.content) (y : Uuid) :
    (∃ other ∈ old, other.id = card.id ∧ Mentions other y) ↔
      ∃ other ∈ cards, other.id = card.id ∧ Mentions other y := by
  have hiff := mentions_congr hid hcontent y
  constructor
  · rintro ⟨other, hother, hotherId, hmentions⟩
    rw [card_eq_of_id_eq hold hother hbefore (hotherId.trans hid.symm)] at hmentions
    exact ⟨card, hcard, rfl, hiff.mp hmentions⟩
  · rintro ⟨other, hother, hotherId, hmentions⟩
    rw [card_eq_of_id_eq hcards hother hcard hotherId] at hmentions
    exact ⟨before, hbefore, hid, hiff.mpr hmentions⟩

/-- The entries that stay are sound for the new cards: the contents behind them did not change. -/
theorem Sound.invalidate {old : List Card} (h : Sound old cache) (hold : PlainCards old) (hcards : PlainCards cards)
    (hdigest : ∀ a ∈ old, ∀ b ∈ cards, contentHash a = contentHash b → a.content = b.content)
    (hzero : ∀ card ∈ cards, contentHash card ≠ zeroHash) :
    Sound cards (BlazeList.invalidate cache (neededHashes cache cards) cards) := by
  intro id hash reachable hkept
  obtain ⟨hentry, hunchanged, hid⟩ := invalidate_eq_some_iff.mp hkept
  have hsound := h id hash reachable hentry
  have hmember {x : Uuid} (hx : Holds id reachable x) : ∃ card ∈ cards, card.id = x ∧
      ∃ before ∈ old, before.id = x ∧ before.content = card.content := by
    obtain ⟨value, others, hvalue⟩ : ∃ value others, cache x = some (value, others) := by
      rcases hx with rfl | hx
      · exact ⟨hash, reachable, hentry⟩
      · obtain ⟨value, others, hvalue, -⟩ := hsound.uniform x hx
        exact ⟨value, others, hvalue⟩
    obtain ⟨card, hcard, hcardId, -, hbefore⟩ := h.exists_unchanged hdigest hzero hvalue (hunchanged x hx)
    exact ⟨card, hcard, hcardId, hbefore⟩
  have hmentions {x y : Uuid} (hx : Holds id reachable x) :
      (∃ card ∈ old, card.id = x ∧ Mentions card y) ↔ ∃ card ∈ cards, card.id = x ∧ Mentions card y := by
    obtain ⟨card, hcard, rfl, before, hbefore, hbeforeId, hcontent⟩ := hmember hx
    exact exists_mentions_iff hold.nodup hcards.nodup hcard hbefore hbeforeId hcontent y
  refine ⟨hsound.self, ?_, ?_, ?_, ?_, ?_, ?_⟩
  · intro member hmem
    obtain ⟨value, others, hvalue, hiff⟩ := hsound.uniform member hmem
    obtain ⟨card, hcard, hcardId, -⟩ := hmember (.inr hmem)
    refine ⟨value, others, invalidate_eq_some_iff.mpr ⟨hvalue, fun x hx => ?_, ?_⟩, hiff⟩
    · exact hunchanged x ((hiff x).mp hx)
    · exact List.mem_map.mpr ⟨card, hcard, hcardId⟩
  · intro card hcard hholds x hmention
    obtain ⟨before, hbefore, hbeforeId, hmentionBefore⟩ := (hmentions hholds).mpr ⟨card, hcard, rfl, hmention⟩
    exact hsound.closed before hbefore (hbeforeId ▸ hholds) x hmentionBefore
  · intro x hx
    refine Relation.ReflTransGen.mono (fun a b hstep => ?_) _ _ (hsound.connected x hx)
    obtain ⟨ha, hb, hlink⟩ := hstep
    exact ⟨ha, hb, hlink.imp (hmentions ha).mp (hmentions hb).mp⟩
  · intro card hcard hsome x hmention hholds
    obtain ⟨⟨value, others⟩, hkeptCard⟩ := Option.isSome_iff_exists.mp hsome
    obtain ⟨hvalue, hunchangedCard, -⟩ := invalidate_eq_some_iff.mp hkeptCard
    obtain ⟨other, hother, hotherId, -, before, hbefore, hbeforeId, hcontent⟩ :=
      h.exists_unchanged hdigest hzero hvalue (hunchangedCard card.id (.inl rfl))
    obtain rfl := card_eq_of_id_eq hcards.nodup hother hcard hotherId
    have hmentionBefore := (mentions_congr hbeforeId hcontent x).mpr hmention
    have hsomeBefore : (cache before.id).isSome := by
      rw [hbeforeId, hvalue]
      rfl
    rw [← hbeforeId]
    exact hsound.sources before hbefore hsomeBefore x hmentionBefore hholds
  · obtain ⟨card, hcard, hcardId, hhash, -⟩ :=
      h.exists_unchanged hdigest hzero hentry (hunchanged id (.inl rfl))
    exact .inr ⟨card, hcard, hcardId, hhash⟩
  · intro x hx hmissing
    obtain ⟨card, hcard, hcardId, -⟩ := hmember hx
    exact absurd hcardId (hmissing card hcard)

/-! ### A pass -/

omit [Blake3] in
theorem insertAll_append (cache : LinkGraphCache) (batch more : Batch) :
    cache.insertAll (batch ++ more) = (cache.insertAll batch).insertAll more :=
  List.foldl_append

omit [Blake3] in
theorem insertAll_map (cache : LinkGraphCache) (members : List Uuid) (entry : Uuid → Hash × List Uuid) (x : Uuid) :
    cache.insertAll (members.map fun member => (member, entry member)) x =
      if x ∈ members then some (entry x) else cache x := by
  induction members generalizing cache with
  | nil => rfl
  | cons member members ih =>
      rw [List.map_cons, LinkGraphCache.insertAll, List.foldl_cons, ← LinkGraphCache.insertAll, ih]
      dsimp only
      rw [Function.update_apply]
      by_cases hmem : x ∈ members
      · rw [if_pos hmem, if_pos (List.mem_cons_of_mem member hmem)]
      · by_cases heq : x = member
        · rw [if_neg hmem, if_pos heq, heq, if_pos List.mem_cons_self]
        · rw [if_neg hmem, if_neg heq, if_neg (mt List.mem_cons.mp (not_or.mpr ⟨heq, hmem⟩))]

omit [Blake3] in
theorem isSome_insertAll_map_iff (cache : LinkGraphCache) (members : List Uuid) (entry : Uuid → Hash × List Uuid)
    (x : Uuid) :
    (cache.insertAll (members.map fun member => (member, entry member)) x).isSome ↔
      x ∈ members ∨ (cache x).isSome := by
  rw [insertAll_map]
  by_cases hx : x ∈ members
  · rw [if_pos hx]
    exact iff_of_true rfl (.inl hx)
  · rw [if_neg hx]
    exact (or_iff_right hx).symm

omit [Blake3] in
theorem PlainCards.mem_component_iff (h : PlainCards cards) {cid x : Uuid} :
    x ∈ expandLinkedCards cid cards ++ [cid] ↔ ConnectedIds cards cid x := by
  rw [List.mem_append, List.mem_singleton, h.mem_expandLinkedCards_iff]
  constructor
  · rintro (⟨-, hconnected⟩ | rfl)
    · exact hconnected
    · exact .refl
  · intro hconnected
    by_cases heq : x = cid
    · exact .inr heq
    · exact .inl ⟨heq, hconnected⟩

structure LivePass (cards : List Card) (cache : LinkGraphCache) (pass : Pass) : Prop where
  plain : PlainCards pass.cards
  same : SameTexts pass.cards cards
  hashes : ∀ x value, pass.contentHashes x = some value → ∃ card ∈ pass.cards, card.id = x ∧ value = contentHash card
  filled : ∀ x ∈ pass.filled, (cache x).isSome

theorem LivePass.mono {pass : Pass} (h : LivePass cards cache pass) {after : LinkGraphCache}
    (hgrow : ∀ x, (cache x).isSome → (after x).isSome) : LivePass cards after pass :=
  ⟨h.plain, h.same, h.hashes, fun x hx => hgrow x (h.filled x hx)⟩

theorem LivePass.congr {pass : Pass} (h : LivePass cards cache pass) {other : List Card}
    (hsame : SameTexts cards other) : LivePass other cache pass :=
  ⟨h.plain, h.same.trans hsame, h.hashes, h.filled⟩

structure Proceeds (cards : List Card) (before after : LinkGraphCache) (pass next : Pass) : Prop where
  sound : Sound cards after
  live : LivePass cards after next
  generation_eq : next.generation = pass.generation
  grow : ∀ x, (before x).isSome → (after x).isSome
  advance : ∀ x ∈ pass.cardIds.drop pass.offset, (after x).isSome ∨ x ∈ next.cardIds.drop next.offset

theorem Proceeds.trans {before middle after : LinkGraphCache} {pass next last : Pass}
    (h : Proceeds cards before middle pass next) (hnext : Proceeds cards middle after next last) :
    Proceeds cards before after pass last where
  sound := hnext.sound
  live := hnext.live
  generation_eq := hnext.generation_eq.trans h.generation_eq
  grow x hx := hnext.grow x (h.grow x hx)
  advance x hx := by
    rcases h.advance x hx with hsome | hlater
    · exact .inl (hnext.grow x hsome)
    · exact hnext.advance x hlater

theorem LivePass.round {pass : Pass} {batch : Batch} (h : LivePass cards (cache.insertAll batch) pass)
    (hsound : Sound cards (cache.insertAll batch)) :
    Proceeds cards (cache.insertAll batch) (cache.insertAll (pass.round batch).2) pass (pass.round batch).1 := by
  rw [Pass.round]
  cases hnext : pass.cardIds[pass.offset]? with
  | none => exact ⟨hsound, h, rfl, fun _ hx => hx, fun x hx => .inr hx⟩
  | some cid =>
      obtain ⟨hlt, hget⟩ := List.getElem?_eq_some_iff.mp hnext
      have hdrop : pass.cardIds.drop pass.offset = cid :: pass.cardIds.drop (pass.offset + 1) := by
        rw [List.drop_eq_getElem_cons hlt, hget]
      dsimp only
      split
      next hfilled =>
        refine ⟨hsound, ⟨h.plain, h.same, h.hashes, h.filled⟩, rfl, fun _ hx => hx, fun x hx => ?_⟩
        rw [hdrop] at hx
        rcases List.mem_cons.mp hx with rfl | hlater
        · exact .inl (h.filled x hfilled)
        · exact .inr hlater
      next hfresh =>
        generalize hcomponent : expandLinkedCards cid pass.cards ++ [cid] = component
        have hmem (x : Uuid) : x ∈ component ↔ ConnectedIds cards cid x := by
          rw [← hcomponent, h.plain.mem_component_iff, h.same.connectedIds_iff]
        rw [insertAll_append]
        have hsome := isSome_insertAll_map_iff (cache.insertAll batch) component
          fun member => ((pass.contentHashes member).getD zeroHash, component.filter fun id => id ≠ member)
        refine ⟨hsound.fill hmem (fun x value hvalue => ?_) (insertAll_map _ _ _),
          ⟨h.plain, h.same, h.hashes, fun x hx => (hsome x).mpr ?_⟩, rfl,
          fun x hx => (hsome x).mpr (.inr hx), fun x hx => ?_⟩
        · obtain ⟨card, hcard, hid, rfl⟩ := h.hashes x value hvalue
          obtain ⟨other, hother, hotherId, hcontent⟩ := h.same.exists_card hcard
          exact ⟨other, hother, hotherId.trans hid, by rw [contentHash, contentHash, hcontent]⟩
        · rcases List.mem_append.mp hx with hbefore | hnow
          · exact .inr (h.filled x hbefore)
          · exact .inl hnow
        · rw [hdrop] at hx
          rcases List.mem_cons.mp hx with rfl | hlater
          · exact .inl ((hsome x).mpr (.inl ((hmem x).mpr .refl)))
          · exact .inr hlater

theorem LivePass.rounds {pass : Pass} {batch : Batch} (h : LivePass cards (cache.insertAll batch) pass)
    (hsound : Sound cards (cache.insertAll batch)) (n : Nat) :
    Proceeds cards (cache.insertAll batch) (cache.insertAll (pass.rounds batch n).2) pass (pass.rounds batch n).1 := by
  induction n generalizing pass batch with
  | zero => exact ⟨hsound, h, rfl, fun _ hx => hx, fun x hx => .inr hx⟩
  | succ n ih =>
      have hround := h.round hsound
      exact hround.trans (ih hround.live hround.sound)

/-! ### Runs -/

def LinkCache.seen (state : LinkCache) : List Card := if state.enabled = true then state.cards else []

omit [Blake3] in
theorem IsLinked.congr {other : List Card} (h : IsLinked cards id)
    (hsame : SameTexts cards other) : IsLinked other id := by
  obtain ⟨card, hcard, rfl, target, htarget, hlinked⟩ := h
  obtain ⟨newCard, hnewCard, hnewId, hnewContent⟩ := hsame.exists_card hcard
  obtain ⟨newTarget, hnewTarget, hnewTargetId, hnewTargetContent⟩ := hsame.exists_card htarget
  refine ⟨newCard, hnewCard, hnewId, newTarget, hnewTarget, ?_⟩
  rw [DirectlyLinked, hnewTargetId, hnewId, mentions_congr hnewId hnewContent,
    mentions_congr hnewTargetId hnewTargetContent]
  exact hlinked

/-- Entries are sound, a pass that is not outdated works on the cards that the cache is about, and each linked
card has an entry or is waiting for one. -/
structure Good (state : LinkCache) : Prop where
  plain : PlainCards state.seen
  sound : Sound state.seen state.cache
  live : ∀ pass ∈ state.waiting, pass.generation = state.generation → LivePass state.seen state.cache pass
  complete : ∀ id, IsLinked state.seen id → (state.cache id).isSome ∨
    ∃ pass ∈ state.waiting, pass.generation = state.generation ∧ id ∈ pass.cardIds.drop pass.offset

omit [Blake3] in
theorem plainCards_nil : PlainCards [] where
  nodup := List.nodup_nil
  lower _ hcard := absurd hcard List.not_mem_nil

omit [Blake3] in
theorem not_isLinked_nil (id : Uuid) : ¬ IsLinked [] id := by
  rintro ⟨card, hcard, -⟩
  exact List.not_mem_nil hcard

theorem good_start : Good .start where
  plain := plainCards_nil
  sound := sound_empty []
  live _ hpass := absurd hpass List.not_mem_nil
  complete id hlinked := absurd hlinked (not_isLinked_nil id)

/-- A list is told from the one before by its fingerprint, unless the contents are the same, and no callback is
still waiting with the number that a new pass gets. -/
def Told (state : LinkCache) : CacheEvent → Prop
  | .update enabled cards =>
      (enabled = true → fingerprint cards = state.lastFingerprint → SameTexts state.seen cards) ∧
        (¬ (enabled = true ∧ fingerprint cards = state.lastFingerprint) →
          ∀ pass ∈ state.waiting, pass.generation ≠ state.generation + 1)
  | .idle _ _ => True

theorem Good.skip {state : LinkCache} (h : Good state) (hcards : PlainCards cards)
    (hsame : SameTexts state.seen cards) : Good { state with enabled := true, cards := cards } where
  plain := hcards
  sound := h.sound.congr hsame
  live pass hpass hgeneration := (h.live pass hpass hgeneration).congr hsame
  complete id hlinked := h.complete id (hlinked.congr hsame.symm)

theorem Good.update {state : LinkCache} (h : Good state) {enabled : Bool} (hcards : PlainCards cards)
    (hdigest : ∀ a ∈ state.seen, ∀ b ∈ cards, contentHash a = contentHash b → a.content = b.content)
    (hzero : ∀ card ∈ cards, contentHash card ≠ zeroHash) (htold : Told state (.update enabled cards)) :
    Good (state.update enabled cards) := by
  obtain ⟨hskip, hfresh⟩ := htold
  rw [LinkCache.update]
  cases enabled with
  | false =>
      rw [if_pos rfl]
      have houtdated := hfresh fun hskipped => Bool.false_ne_true hskipped.1
      exact ⟨plainCards_nil, sound_empty [], fun pass hpass hgeneration => absurd hgeneration (houtdated pass hpass),
        fun id hlinked => absurd hlinked (not_isLinked_nil id)⟩
  | true =>
      rw [if_neg (by decide)]
      split
      next hfingerprint => exact h.skip hcards (hskip rfl hfingerprint)
      next hfingerprint =>
        have houtdated := hfresh fun hskipped => hfingerprint hskipped.2
        have hsound := h.sound.invalidate h.plain hcards hdigest hzero
        dsimp only
        split
        next hnone =>
          refine ⟨hcards, hsound, fun pass hpass hgeneration => absurd hgeneration (houtdated pass hpass),
            fun id hlinked => ?_⟩
          have hmem := hcards.mem_allLinked_iff.mpr hlinked
          have hentry := List.filter_eq_nil_iff.mp hnone id hmem
          exact .inl (by simpa [Option.isNone_iff_eq_none, Option.isSome_iff_ne_none] using hentry)
        next =>
          refine ⟨hcards, hsound, fun pass hpass hgeneration => ?_, fun id hlinked => ?_⟩
          · rcases List.mem_append.mp hpass with hold | hnew
            · exact absurd hgeneration (houtdated pass hold)
            · rw [List.mem_singleton.mp hnew]
              exact ⟨hcards, .refl cards, fun x value => mem_neededHashes, fun x hx => absurd hx List.not_mem_nil⟩
          · by_cases hentry : (BlazeList.invalidate state.cache (neededHashes state.cache cards) cards id).isSome
            · exact .inl hentry
            · refine .inr ⟨_, List.mem_append_right _ (List.mem_singleton_self _), rfl, ?_⟩
              rw [List.drop_zero]
              exact List.mem_filter.mpr ⟨hcards.mem_allLinked_iff.mpr hlinked, by simpa using hentry⟩

omit [Blake3] in
theorem mem_waiting_iff {waiting : List Pass} {index : Nat} {pass : Pass} (hget : waiting[index]? = some pass)
    (other : Pass) : other ∈ waiting ↔ other = pass ∨ other ∈ waiting.eraseIdx index := by
  obtain ⟨hlt, rfl⟩ := List.getElem?_eq_some_iff.mp hget
  rw [← (List.getElem_cons_eraseIdx_perm hlt).mem_iff, List.mem_cons]

/-- After some rounds of a pass each linked card has an entry, or waits for one in the rest of the pass or in
another one. -/
theorem Good.complete_rounds {state : LinkCache} (h : Good state) {index : Nat} {pass next : Pass}
    (hget : state.waiting[index]? = some pass) {after : LinkGraphCache}
    (hproceeds : Proceeds state.seen state.cache after pass next) (hlinked : IsLinked state.seen id) :
    (after id).isSome ∨ id ∈ next.cardIds.drop next.offset ∨
      ∃ other ∈ state.waiting.eraseIdx index, other.generation = state.generation ∧
        id ∈ other.cardIds.drop other.offset := by
  rcases h.complete id hlinked with hsome | ⟨other, hother, heq, hwaits⟩
  · exact .inl (hproceeds.grow id hsome)
  · rcases (mem_waiting_iff hget other).mp hother with rfl | hrest
    · exact (hproceeds.advance id hwaits).imp_right .inl
    · exact .inr (.inr ⟨other, hrest, heq, hwaits⟩)

theorem Good.idle {state : LinkCache} (h : Good state) (index rounds : Nat) : Good (state.idle index rounds) := by
  rw [LinkCache.idle]
  cases hget : state.waiting[index]? with
  | none => exact h
  | some pass =>
      have hmem := mem_waiting_iff hget
      dsimp only
      split
      next hstale =>
        refine ⟨h.plain, h.sound, fun other hother => h.live other ((hmem other).mpr (.inr hother)),
          fun id hlinked => ?_⟩
        refine (h.complete id hlinked).imp_right ?_
        rintro ⟨other, hother, hgeneration, hwaits⟩
        refine ⟨other, ((hmem other).mp hother).resolve_left ?_, hgeneration, hwaits⟩
        rintro rfl
        exact hstale hgeneration
      next hgeneration =>
        rw [not_not] at hgeneration
        have hlive : LivePass state.seen (state.cache.insertAll []) pass :=
          h.live pass ((hmem pass).mpr (.inl rfl)) hgeneration
        have hproceeds : Proceeds state.seen state.cache (state.cache.insertAll (pass.rounds [] (rounds + 1)).2) pass
            (pass.rounds [] (rounds + 1)).1 := hlive.rounds h.sound (rounds + 1)
        have hothers (other : Pass) (hother : other ∈ state.waiting.eraseIdx index)
            (heq : other.generation = state.generation) :
            LivePass state.seen (state.cache.insertAll (pass.rounds [] (rounds + 1)).2) other :=
          (h.live other ((hmem other).mpr (.inr hother)) heq).mono hproceeds.grow
        split
        next =>
          refine ⟨h.plain, hproceeds.sound, fun other hother heq => ?_, fun id hlinked => ?_⟩
          · rcases List.mem_append.mp hother with hrest | hlast
            · exact hothers other hrest heq
            · rw [List.mem_singleton.mp hlast]
              exact hproceeds.live
          · rcases h.complete_rounds hget hproceeds hlinked with hsome | hwaits | ⟨other, hother, heq, hwaits⟩
            · exact .inl hsome
            · exact .inr ⟨_, List.mem_append_right _ (List.mem_singleton_self _),
                hproceeds.generation_eq.trans hgeneration, hwaits⟩
            · exact .inr ⟨other, List.mem_append_left _ hother, heq, hwaits⟩
        next hthrough =>
          refine ⟨h.plain, hproceeds.sound, hothers, fun id hlinked => ?_⟩
          rcases h.complete_rounds hget hproceeds hlinked with hsome | hwaits | hrest
          · exact .inl hsome
          · rw [List.drop_eq_nil_of_le (Nat.le_of_not_lt hthrough)] at hwaits
            exact absurd hwaits List.not_mem_nil
          · exact .inr hrest

omit [Blake3] in
theorem seen_idle (state : LinkCache) (index rounds : Nat) : (state.idle index rounds).seen = state.seen := by
  rw [LinkCache.idle]
  split
  next => rfl
  next =>
    dsimp only
    split
    next => rfl
    next =>
      split
      next => rfl
      next => rfl

theorem mem_of_mem_seen_update {state : LinkCache} {enabled : Bool} {card : Card}
    (h : card ∈ (state.update enabled cards).seen) : card ∈ cards := by
  rw [LinkCache.update] at h
  cases enabled with
  | false => exact absurd h List.not_mem_nil
  | true =>
      rw [if_neg (by decide)] at h
      split at h
      next => exact h
      next =>
        dsimp only at h
        split at h
        next => exact h
        next => exact h

/-- Once no callback of the latest pass is waiting, every linked card has an entry with what the expansion of
the current cards finds from it. -/
def Coherent (state : LinkCache) : Prop :=
  state.enabled = true → (∀ pass ∈ state.waiting, pass.generation ≠ state.generation) →
    ∀ card ∈ state.cards, (∃ other ∈ state.cards, DirectlyLinked card other) →
      ∃ hash reachable, state.cache card.id = some (hash, reachable) ∧
        ∀ id, id ∈ reachable ↔ id ∈ expandLinkedCards card.id state.cards

/-- An entry is the whole component once every linked card has one. -/
theorem SoundEntry.holds_iff (h : SoundEntry cards cache id hash reachable)
    (hcomplete : ∀ x, IsLinked cards x → (cache x).isSome) (x : Uuid) :
    Holds id reachable x ↔ ConnectedIds cards id x := by
  constructor
  · exact h.connectedIds
  · intro hconnected
    have hall := hconnected
    induction hconnected with
    | refl => exact .inl rfl
    | @tail a b hpath hlink ih =>
        have ha := ih hpath
        rcases hlink with ⟨card, hcard, rfl, hmentions⟩ | ⟨card, hcard, rfl, hmentions⟩
        · exact h.closed card hcard ha b hmentions
        · by_cases hexisting : ∃ target ∈ cards, target.id = a
          · obtain ⟨target, htarget, rfl⟩ := hexisting
            have hlinked : IsLinked cards card.id := ⟨card, hcard, rfl, target, htarget, .inl hmentions⟩
            exact h.sources card hcard (hcomplete _ hlinked) target.id hmentions ha
          · exact h.missing a ha (fun target htarget hid => hexisting ⟨target, htarget, hid⟩) card.id hall

theorem Good.coherent {state : LinkCache} (h : Good state) : Coherent state := by
  intro henabled hdone card hcard hlinked
  have hseen : state.seen = state.cards := if_pos henabled
  obtain ⟨hplain, hsound, -, hcomplete⟩ := h
  rw [hseen] at hplain hsound hcomplete
  have hentries (x : Uuid) (hx : IsLinked state.cards x) : (state.cache x).isSome := by
    refine (hcomplete x hx).resolve_right ?_
    rintro ⟨pass, hpass, hgeneration, -⟩
    exact hdone pass hpass hgeneration
  obtain ⟨⟨hash, reachable⟩, hentry⟩ := Option.isSome_iff_exists.mp (hentries card.id ⟨card, hcard, rfl, hlinked⟩)
  have hsoundEntry := hsound card.id hash reachable hentry
  refine ⟨hash, reachable, hentry, fun id => ?_⟩
  rw [hplain.mem_expandLinkedCards_iff, ← hsoundEntry.holds_iff hentries]
  constructor
  · intro hid
    exact ⟨fun heq => hsoundEntry.self (heq ▸ hid), .inr hid⟩
  · rintro ⟨hne, hholds⟩
    exact hholds.resolve_left hne

def cardsOf (events : List CacheEvent) : List Card :=
  events.flatMap fun
    | .update _ cards => cards
    | .idle _ _ => []

/-- The cache is coherent after every run in which each update is told from the one before it. -/
theorem coherent_run {events : List CacheEvent}
    (hplain : ∀ enabled cards, .update enabled cards ∈ events → PlainCards cards)
    (hdigest : ∀ a ∈ cardsOf events, ∀ b ∈ cardsOf events, contentHash a = contentHash b → a.content = b.content)
    (hzero : ∀ card ∈ cardsOf events, contentHash card ≠ zeroHash)
    (hmeets : Run.Meets LinkCache.step Told .start events) :
    Coherent (Run.after LinkCache.step .start events) := by
  have hevents : Run.Meets LinkCache.step (fun _ event => event ∈ events) .start events :=
    Run.meets_of_forall fun _ _ hevent => hevent
  have hmem {enabled : Bool} {cards : List Card} (hevent : .update enabled cards ∈ events) {card : Card}
      (hcard : card ∈ cards) : card ∈ cardsOf events := List.mem_flatMap.mpr ⟨.update enabled cards, hevent, hcard⟩
  have hstep (state : LinkCache) (event : CacheEvent)
      (hstate : Good state ∧ ∀ card ∈ state.seen, card ∈ cardsOf events)
      (hcondition : event ∈ events ∧ Told state event) :
      Good (state.step event) ∧ ∀ card ∈ (state.step event).seen, card ∈ cardsOf events := by
    obtain ⟨hgood, hseen⟩ := hstate
    obtain ⟨hevent, htold⟩ := hcondition
    cases event with
    | update enabled cards =>
        refine ⟨hgood.update (hplain enabled cards hevent)
          (fun a ha b hb => hdigest a (hseen a ha) b (hmem hevent hb))
          (fun card hcard => hzero card (hmem hevent hcard)) htold, fun card hcard => ?_⟩
        exact hmem hevent (mem_of_mem_seen_update hcard)
    | idle index rounds =>
        refine ⟨hgood.idle index rounds, ?_⟩
        rwa [LinkCache.step, seen_idle]
  have hgood := (hmeets.and hevents).invariant
    (fun state : LinkCache => Good state ∧ ∀ card ∈ state.seen, card ∈ cardsOf events)
    ⟨good_start, fun card hcard => absurd hcard List.not_mem_nil⟩ hstep
  exact hgood.1.coherent

end

/-! ### A pass that comes to its end -/

theorem Pass.offset_rounds (pass : Pass) (batch : Batch) (n : Nat) :
    (pass.rounds batch n).1.cardIds = pass.cardIds ∧
      min (pass.offset + n) pass.cardIds.length ≤ (pass.rounds batch n).1.offset := by
  induction n generalizing pass batch with
  | zero => exact ⟨rfl, Nat.min_le_left _ _⟩
  | succ n ih =>
      obtain ⟨hids, hoffset⟩ := ih (pass.round batch).1 (pass.round batch).2
      rw [Pass.rounds]
      have hround : (pass.round batch).1.cardIds = pass.cardIds ∧
          min (pass.offset + 1) pass.cardIds.length ≤ (pass.round batch).1.offset := by
        rw [Pass.round]
        split
        next hnone =>
          rw [List.getElem?_eq_none_iff] at hnone
          exact ⟨rfl, (Nat.min_le_right _ _).trans hnone⟩
        next =>
          dsimp only
          split
          · exact ⟨rfl, Nat.min_le_left _ _⟩
          · exact ⟨rfl, Nat.min_le_left _ _⟩
      rw [hround.1] at hids hoffset
      exact ⟨hids, by omega⟩

/-- The only pass is through after as many rounds as it has cards left. -/
theorem LinkCache.waiting_idle [Blake3] {state : LinkCache} {pass : Pass} {rounds : Nat}
    (hwaiting : state.waiting = [pass]) (hrounds : pass.cardIds.length ≤ pass.offset + (rounds + 1)) :
    (state.idle 0 rounds).waiting = [] := by
  obtain ⟨hids, hoffset⟩ := pass.offset_rounds [] (rounds + 1)
  have hdone : ¬ (pass.rounds [] (rounds + 1)).1.offset < (pass.rounds [] (rounds + 1)).1.cardIds.length := by
    rw [hids]
    omega
  simp only [LinkCache.idle, hwaiting, List.getElem?_cons_zero, List.eraseIdx_cons_zero]
  split
  next => rfl
  next => rfl

theorem LinkCache.shown_idle [Blake3] (state : LinkCache) (index rounds : Nat) :
    (state.idle index rounds).enabled = state.enabled ∧ (state.idle index rounds).cards = state.cards := by
  rw [LinkCache.idle]
  split
  next => exact ⟨rfl, rfl⟩
  next =>
    dsimp only
    split_ifs
    · exact ⟨rfl, rfl⟩
    · exact ⟨rfl, rfl⟩
    · exact ⟨rfl, rfl⟩

theorem LinkCache.shown_update [Blake3] (state : LinkCache) (cards : List Card) :
    (state.update true cards).enabled = true ∧ (state.update true cards).cards = cards := by
  rw [LinkCache.update, if_neg (by decide)]
  dsimp only
  split_ifs
  · exact ⟨rfl, rfl⟩
  · exact ⟨rfl, rfl⟩
  · exact ⟨rfl, rfl⟩

theorem length_allLinked_le (cards : List Card) : (allLinked cards).length ≤ cards.length := by
  rw [allLinked, List.length_map]
  exact List.length_filter_le _ _

theorem LinkCache.waiting_update [Blake3] {state : LinkCache} (hwaiting : state.waiting = []) (cards : List Card) :
    (state.update true cards).waiting = [] ∨
      ∃ pass, (state.update true cards).waiting = [pass] ∧ pass.offset = 0 ∧ pass.cardIds.length ≤ cards.length := by
  rw [LinkCache.update, if_neg (by decide)]
  split
  next => exact .inl hwaiting
  next =>
    dsimp only
    split
    next => exact .inl hwaiting
    next =>
      refine .inr ⟨_, by rw [hwaiting, List.nil_append], rfl, ?_⟩
      exact (List.length_filter_le _ _).trans (length_allLinked_le cards)

/-- Cards without a link, and then at most two cards: two rounds are enough. -/
theorem LinkCache.after_two_rounds [Blake3] {first cards : List Card} (hfresh : fingerprint first ≠ 0)
    (hunlinked : allLinked first = []) (hlength : cards.length ≤ 2) :
    let state := Run.after LinkCache.step .start [.update true first, .update true cards, .idle 0 1]
    state.waiting = [] ∧ state.enabled = true ∧ state.cards = cards := by
  intro state
  have hfirst : LinkCache.update .start true first = _ := LinkCache.update_of_unlinked hfresh hunlinked
  have hstate : state = ((LinkCache.update .start true first).update true cards).idle 0 1 := rfl
  obtain ⟨hon, hshown⟩ := LinkCache.shown_update (LinkCache.update .start true first) cards
  obtain ⟨henabled, hcards⟩ := LinkCache.shown_idle ((LinkCache.update .start true first).update true cards) 0 1
  refine ⟨?_, hstate ▸ henabled.trans hon, hstate ▸ hcards.trans hshown⟩
  have hnone : (LinkCache.update .start true first).waiting = [] := by
    rw [hfirst]
    rfl
  rw [hstate]
  rcases LinkCache.waiting_update hnone cards with hidle | ⟨pass, hpass, hoffset, hpassLength⟩
  · simp only [LinkCache.idle, hidle, List.getElem?_nil]
  · exact LinkCache.waiting_idle hpass (by omega)

def plainNote : Card := noteCard 0xAAAAAAAABBBBCCCCDDDDEEEEEEEEEEEE ['a']

def linkNote : Card := noteCard 1 lowerCaseLink

theorem spelledInLowerCase_plainNote : SpelledInLowerCase plainNote := by
  intro text htext
  have hcontent : plainNote.content.toList = ['a'] := String.toList_ofList
  rw [hcontent, uuidMatches_of_short (by decide)] at htext
  exact absurd htext List.not_mem_nil

theorem plainCards_plainNote : PlainCards [plainNote] :=
  ⟨List.nodup_singleton _, List.forall_mem_singleton.mpr spelledInLowerCase_plainNote⟩

theorem plainCards_linkNote : PlainCards [plainNote, linkNote] := by
  refine ⟨by decide, fun card hcard => ?_⟩
  rcases List.mem_cons.mp hcard with rfl | hlast
  · exact spelledInLowerCase_plainNote
  · rw [List.mem_singleton.mp hlast]
    exact spelledInLowerCase_noteCard 1

theorem allLinked_plainNote : allLinked [plainNote] = [] := by
  rw [List.eq_nil_iff_forall_not_mem]
  intro id hmem
  obtain ⟨card, hcard, -, other, hother, hlinked⟩ := plainCards_plainNote.mem_allLinked_iff.mp hmem
  rw [List.mem_singleton.mp hcard, List.mem_singleton.mp hother] at hlinked
  rcases hlinked with hmentions | hmentions
  · exact hmentions.1 rfl
  · exact hmentions.1 rfl

/-- A second card comes with a link to the first one, and the pass that it starts comes to its end. -/
theorem coherent_run_linkedCards :
    let _ := polynomialBlake3
    let state := Run.after LinkCache.step .start
      [.update true [plainNote], .update true [plainNote, linkNote], .idle 0 1]
    state.waiting = [] ∧ ∃ hash reachable, state.cache linkNote.id = some (hash, reachable) ∧
      ∀ id, id ∈ reachable ↔ id ∈ expandLinkedCards linkNote.id [plainNote, linkNote] := by
  intro _ state
  have hfresh : fingerprint [plainNote] ≠ 0 := by decide
  obtain ⟨hwaiting, hon, hshown⟩ := LinkCache.after_two_rounds hfresh allLinked_plainNote
    (Nat.le_refl [plainNote, linkNote].length)
  have hcontents : ∀ card ∈ cardsOf [.update true [plainNote], .update true [plainNote, linkNote], .idle 0 1],
      card = plainNote ∨ card = linkNote := by
    intro card hcard
    simp only [cardsOf, List.flatMap_cons, List.flatMap_nil, List.append_nil, List.mem_append, List.mem_cons,
      List.not_mem_nil, or_false] at hcard
    exact hcard.elim .inl id
  have hne : contentHash plainNote ≠ contentHash linkNote := by decide +kernel
  have hfirst : LinkCache.update .start true [plainNote] = _ :=
    LinkCache.update_of_unlinked hfresh allLinked_plainNote
  have hcoherent : Coherent state := by
    refine coherent_run ?_ ?_ ?_ ⟨⟨?_, ?_⟩, ⟨?_, ?_⟩, trivial, trivial⟩
    · intro enabled cards hevent
      simp only [List.mem_cons, CacheEvent.update.injEq, List.not_mem_nil, or_false, reduceCtorEq] at hevent
      rcases hevent with ⟨-, rfl⟩ | ⟨-, rfl⟩
      · exact plainCards_plainNote
      · exact plainCards_linkNote
    · intro a ha b hb hsame
      rcases hcontents a ha with rfl | rfl
      · rcases hcontents b hb with rfl | rfl
        · rfl
        · exact absurd hsame hne
      · rcases hcontents b hb with rfl | rfl
        · exact absurd hsame.symm hne
        · rfl
    · intro card hcard
      rcases hcontents card hcard with rfl | rfl
      · decide +kernel
      · decide +kernel
    · exact fun _ hsame => absurd hsame hfresh
    · exact fun _ pass hpass => absurd hpass List.not_mem_nil
    · intro _ hsame
      rw [LinkCache.step_update, hfirst] at hsame
      exact absurd hsame (by decide)
    · intro _ pass hpass
      rw [LinkCache.step_update, hfirst] at hpass
      exact absurd hpass List.not_mem_nil
  have hmem : linkNote ∈ state.cards := hshown ▸ List.mem_cons_of_mem _ (List.mem_singleton_self _)
  have hlinked : ∃ other ∈ state.cards, DirectlyLinked linkNote other :=
    ⟨plainNote, hshown ▸ List.mem_cons_self, .inl mentions_lowerCaseLink⟩
  have hdone : ∀ pass ∈ state.waiting, pass.generation ≠ state.generation := by
    rw [hwaiting]
    exact fun pass hpass => absurd hpass List.not_mem_nil
  have hentry := hcoherent hon hdone linkNote hmem hlinked
  rw [hshown] at hentry
  exact ⟨hwaiting, hentry⟩

theorem not_mentions_empty (id x : Uuid) : ¬ Mentions (noteCard id []) x := by
  rintro ⟨-, text, htext, -⟩
  have hcontent : (noteCard id []).content.toList = [] := String.toList_ofList
  rw [hcontent, uuidMatches, captures_nil] at htext
  exact absurd htext List.not_mem_nil

def emptyCards : List Card := [noteCard 0xAAAAAAAABBBBCCCCDDDDEEEEEEEEEEEE [], noteCard 2 []]

theorem exists_of_mem_emptyCards {card : Card} (h : card ∈ emptyCards) : ∃ id, card = noteCard id [] := by
  rcases List.mem_cons.mp h with rfl | hlast
  · exact ⟨_, rfl⟩
  · exact ⟨2, List.mem_singleton.mp hlast⟩

theorem plainCards_emptyCards : PlainCards emptyCards := by
  refine ⟨by decide, fun card hcard => ?_⟩
  obtain ⟨id, rfl⟩ := exists_of_mem_emptyCards hcard
  exact spelledInLowerCase_empty id

theorem allLinked_emptyCards : allLinked emptyCards = [] := by
  rw [List.eq_nil_iff_forall_not_mem]
  intro id hmem
  obtain ⟨card, hcard, -, other, hother, hlinked⟩ := plainCards_emptyCards.mem_allLinked_iff.mp hmem
  obtain ⟨cardId, rfl⟩ := exists_of_mem_emptyCards hcard
  obtain ⟨otherId, rfl⟩ := exists_of_mem_emptyCards hother
  rcases hlinked with hforward | hback
  · exact not_mentions_empty _ _ hforward
  · exact not_mentions_empty _ _ hback

theorem plainCards_linkedCards : PlainCards (linkedCards lowerCaseLink) := by
  refine ⟨by decide, fun card hcard => ?_⟩
  rcases List.mem_cons.mp hcard with rfl | hlast
  · exact spelledInLowerCase_empty _
  · rw [List.mem_singleton.mp hlast]
    exact spelledInLowerCase_noteCard 1

/-- A card gives way to another one with the same count, and the new list is taken for the one before. -/
theorem not_coherent_replaced :
    PlainCards emptyCards ∧ PlainCards (linkedCards lowerCaseLink) ∧
      ¬ Coherent (Run.after (@LinkCache.step polynomialBlake3) .start
        [.update true emptyCards, .update true (linkedCards lowerCaseLink)]) := by
  refine ⟨plainCards_emptyCards, plainCards_linkedCards, fun hcoherent => ?_⟩
  have hfresh : ¬ fingerprint emptyCards = LinkCache.start.lastFingerprint := by decide
  have hfirst := @LinkCache.update_of_unlinked polynomialBlake3 .start emptyCards hfresh allLinked_emptyCards
  have hsame : fingerprint (linkedCards lowerCaseLink) =
      (@LinkCache.update polynomialBlake3 .start true emptyCards).lastFingerprint := by
    rw [hfirst]
    decide
  rw [Run.after_cons, Run.after_cons, Run.after_nil, @LinkCache.step_update polynomialBlake3,
    @LinkCache.step_update polynomialBlake3, @LinkCache.update_of_fingerprint_eq polynomialBlake3 _ _ hsame,
    hfirst] at hcoherent
  have hmentions : Mentions (noteCard 1 lowerCaseLink) 0xAAAAAAAABBBBCCCCDDDDEEEEEEEEEEEE := mentions_lowerCaseLink
  have hlinked : ∃ other ∈ linkedCards lowerCaseLink, DirectlyLinked (noteCard 1 lowerCaseLink) other :=
    ⟨_, List.mem_cons_self, .inl hmentions⟩
  obtain ⟨hash, reachable, hentry, -⟩ := hcoherent rfl (fun pass hpass => absurd hpass List.not_mem_nil)
    (noteCard 1 lowerCaseLink) (List.mem_cons_of_mem _ (List.mem_singleton_self _)) hlinked
  cases hentry

end BlazeList
