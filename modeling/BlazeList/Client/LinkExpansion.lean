import BlazeList.Lib.BreadthFirst
import BlazeList.Lib.Keyed
import BlazeList.Client.Links

/-!
# Expanding links

From one card the links are followed forward and backward until nothing new turns up. What is found may
be an id of no card, and such an id leads back to the cards that hold it.
-/

namespace BlazeList

open BreadthFirst (enqueue Frontier distance)

/-! ### The loop -/

/-- The node's ids that were not seen before, first those it links to and then those that link to it. Of
two cards with the same id the later one counts. -/
def enqueueNeighbors (node : Uuid) (allCards : List Card) (state : Finset Uuid × List Uuid) :
    Finset Uuid × List Uuid :=
  let state := match Keyed.lookup Card.id allCards.reverse node with
    | some card => (extractCardLinks card.content node).foldl enqueue state
    | none => state
  (extractBackLinks node allCards).foldl enqueue state

def occurringIds (allCards : List Card) : Finset Uuid :=
  (allCards.flatMap fun card => card.id :: extractCardLinks card.content card.id).toFinset

def neighbors (allCards : List Card) (node : Uuid) : List Uuid :=
  ((Keyed.lookup Card.id allCards.reverse node).elim [] fun card => extractCardLinks card.content node) ++
    extractBackLinks node allCards

theorem enqueueNeighbors_eq (node : Uuid) (allCards : List Card) (state : Finset Uuid × List Uuid) :
    enqueueNeighbors node allCards state = (neighbors allCards node).foldl enqueue state := by
  rw [enqueueNeighbors, neighbors, List.foldl_append]
  cases Keyed.lookup Card.id allCards.reverse node with
  | none => rfl
  | some card => rfl

theorem neighbors_mem_occurringIds {allCards : List Card} {node id : Uuid} (h : id ∈ neighbors allCards node) :
    id ∈ occurringIds allCards := by
  rw [occurringIds, List.mem_toFinset, List.mem_flatMap]
  rcases List.mem_append.mp h with hforward | hback
  · cases hcard : Keyed.lookup Card.id allCards.reverse node with
    | none =>
        rw [hcard] at hforward
        exact absurd hforward List.not_mem_nil
    | some card =>
        rw [hcard] at hforward
        obtain rfl : card.id = node := Keyed.key_of_lookup hcard
        exact ⟨card, List.mem_reverse.mp (Keyed.mem_of_lookup hcard), List.mem_cons_of_mem _ hforward⟩
  · obtain ⟨card, hcard, rfl, -⟩ := mem_extractBackLinks.mp hback
    exact ⟨card, hcard, List.mem_cons_self⟩

theorem exists_enqueueNeighbors (node : Uuid) (allCards : List Card) (state : Finset Uuid × List Uuid) :
    ∃ fresh, enqueueNeighbors node allCards state = (state.1 ∪ fresh.toFinset, state.2 ++ fresh) ∧
      fresh.Nodup ∧ ∀ id, id ∈ fresh ↔ id ∈ neighbors allCards node ∧ id ∉ state.1 := by
  rw [enqueueNeighbors_eq]
  exact BreadthFirst.exists_foldl_enqueue _ state

def expandLoop (allCards : List Card) (visited : Finset Uuid) (queue result : List Uuid) : List Uuid :=
  match queue with
  | [] => result
  | current :: rest =>
      let state := enqueueNeighbors current allCards (visited, rest)
      expandLoop allCards state.1 state.2 (result ++ [current])
termination_by (occurringIds allCards \ visited).card + queue.length
decreasing_by
  obtain ⟨fresh, hstate, hnodup, hfresh⟩ := exists_enqueueNeighbors current allCards (visited, rest)
  rw [hstate]
  exact BreadthFirst.measure_lt hnodup (fun id hid => neighbors_mem_occurringIds ((hfresh id).mp hid).1)
    fun id hid => ((hfresh id).mp hid).2

def expandLinkedCards (cardId : Uuid) (allCards : List Card) : List Uuid :=
  let state := enqueueNeighbors cardId allCards ({cardId}, [])
  expandLoop allCards state.1 state.2 []

/-! ### What is found -/

theorem expandLoop_frontier {allCards : List Card} {cardId : Uuid} {visited : Finset Uuid}
    {queue result : List Uuid} (h : Frontier (neighbors allCards) cardId (cardId :: result) queue)
    (hvisited : visited = (cardId :: result ++ queue).toFinset) :
    Frontier (neighbors allCards) cardId (cardId :: expandLoop allCards visited queue result) [] := by
  fun_induction expandLoop allCards visited queue result with
  | case1 => exact h
  | case2 visited result current rest state ih =>
      obtain ⟨fresh, hstate, hnodup, hfresh⟩ := exists_enqueueNeighbors current allCards (visited, rest)
      have hvisitedState : state.1 = visited ∪ fresh.toFinset := congrArg Prod.fst hstate
      have hqueueState : state.2 = rest ++ fresh := congrArg Prod.snd hstate
      apply ih
      · rw [hqueueState]
        refine h.expand hnodup fun id => ?_
        rw [hfresh, hvisited, List.mem_toFinset]
      · rw [hvisitedState, hqueueState, hvisited]
        ext id
        simp

/-- The start is expanded first. -/
theorem expandLinkedCards_frontier (cardId : Uuid) (allCards : List Card) :
    Frontier (neighbors allCards) cardId (cardId :: expandLinkedCards cardId allCards) [] := by
  obtain ⟨fresh, hstate, hnodup, hfresh⟩ := exists_enqueueNeighbors cardId allCards ({cardId}, [])
  rw [expandLinkedCards, hstate]
  apply expandLoop_frontier
  · refine Frontier.init.expand hnodup fun id => ?_
    rw [hfresh, Finset.mem_singleton, List.nil_append, List.mem_singleton]
  · ext id
    simp

/-- From every start, whatever the cards are, the expansion ends with each id that can be reached over one
link or more, once and nearest first, and without the start. -/
theorem expandLinkedCards_spec (cardId : Uuid) (allCards : List Card) :
    (expandLinkedCards cardId allCards).Nodup ∧ cardId ∉ expandLinkedCards cardId allCards ∧
      (∀ id, id ∈ expandLinkedCards cardId allCards ↔
        id ≠ cardId ∧ Relation.TransGen (Search.Edge (neighbors allCards)) cardId id) ∧
      (expandLinkedCards cardId allCards).Pairwise fun near far =>
        distance (neighbors allCards) cardId near ≤ distance (neighbors allCards) cardId far := by
  have hfrontier := expandLinkedCards_frontier cardId allCards
  have hnodup := hfrontier.nodup
  have hsorted := hfrontier.sorted
  rw [List.append_nil] at hnodup hsorted
  obtain ⟨hstart, hrest⟩ := List.nodup_cons.mp hnodup
  refine ⟨hrest, hstart, fun id => ?_, (List.pairwise_cons.mp hsorted).2⟩
  have hmem := hfrontier.mem_iff (a := id)
  rw [List.mem_cons, Relation.reflTransGen_iff_eq_or_transGen] at hmem
  constructor
  · intro hid
    have hne : id ≠ cardId := fun heq => hstart (heq ▸ hid)
    exact ⟨hne, (hmem.mp (.inr hid)).resolve_left hne⟩
  · rintro ⟨hne, hpath⟩
    exact (hmem.mpr (.inr hpath)).resolve_left hne

/-! ### Both directions -/

/-- The content holds the id of another card, however it is spelled. -/
def Mentions (card : Card) (id : Uuid) : Prop :=
  id ≠ card.id ∧ ∃ text ∈ uuidMatches card.content.toList, parseUuid text = some id

def AlsoLowerCase (card : Card) (id : Uuid) : Prop :=
  ∀ text ∈ uuidMatches card.content.toList, parseUuid text = some id →
    text.map Char.toLower <:+: card.content.toList

theorem mem_extractCardLinks_iff_mentions {card : Card} {id : Uuid} :
    id ∈ extractCardLinks card.content card.id ↔ Mentions card id := mem_extractCardLinks

theorem Mentions.alsoLowerCase_iff {card : Card} {id : Uuid} (h : Mentions card id) :
    AlsoLowerCase card id ↔ (Uuid.toString id).toList <:+: card.content.toList := by
  have hlower {text : List Char} (htext : text ∈ uuidMatches card.content.toList)
      (hparse : parseUuid text = some id) : (Uuid.toString id).toList = text.map Char.toLower := by
    obtain ⟨other, hother, hspelled⟩ := parseUuid_spec (isSpelling_of_mem_uuidMatches htext)
    obtain rfl := Option.some.inj (hother.symm.trans hparse)
    exact hspelled
  constructor
  · intro halso
    obtain ⟨-, text, htext, hparse⟩ := h
    rw [hlower htext hparse]
    exact halso text htext hparse
  · intro hneedle text htext hparse
    rw [← hlower htext hparse]
    exact hneedle

theorem mem_extractBackLinks_iff_mentions {cards : List Card} {cardId id : Uuid} :
    id ∈ extractBackLinks cardId cards ↔
      ∃ card ∈ cards, card.id = id ∧ Mentions card cardId ∧ AlsoLowerCase card cardId := by
  rw [mem_extractBackLinks]
  constructor
  · rintro ⟨card, hcard, hid, -, hneedle, hlink⟩
    have hmentions := mem_extractCardLinks_iff_mentions.mp hlink
    exact ⟨card, hcard, hid, hmentions, hmentions.alsoLowerCase_iff.mpr hneedle⟩
  · rintro ⟨card, hcard, rfl, hmentions, hlower⟩
    exact ⟨card, hcard, rfl, hmentions.1.symm, hmentions.alsoLowerCase_iff.mp hlower,
      mem_extractCardLinks_iff_mentions.mpr hmentions⟩

section

variable {cards : List Card} (hnodup : (cards.map Card.id).Nodup)

include hnodup

theorem card_eq_of_id_eq {a b : Card} (ha : a ∈ cards) (hb : b ∈ cards) (hid : a.id = b.id) : a = b :=
  List.inj_on_of_nodup_map hnodup ha hb hid

theorem mem_neighbors_of_mem {card : Card} (hcard : card ∈ cards) {id : Uuid} :
    id ∈ neighbors cards card.id ↔
      Mentions card id ∨ ∃ other ∈ cards, other.id = id ∧ Mentions other card.id ∧ AlsoLowerCase other card.id := by
  have hreverse : (cards.reverse.map Card.id).Nodup := by
    rw [List.map_reverse]
    exact List.nodup_reverse.mpr hnodup
  rw [neighbors, Keyed.lookup_of_mem hreverse (List.mem_reverse.mpr hcard), List.mem_append,
    mem_extractBackLinks_iff_mentions]
  exact or_congr_left mem_extractCardLinks_iff_mentions

end

theorem mem_neighbors_of_missing {cards : List Card} {node id : Uuid} (hnode : ∀ card ∈ cards, card.id ≠ node) :
    id ∈ neighbors cards node ↔
      ∃ other ∈ cards, other.id = id ∧ Mentions other node ∧ AlsoLowerCase other node := by
  have hnone : Keyed.lookup Card.id cards.reverse node = none := by
    rw [Keyed.lookup_eq_none_iff, List.map_reverse, List.mem_reverse, List.mem_map]
    rintro ⟨card, hcard, hid⟩
    exact hnode card hcard hid
  rw [neighbors, hnone, ← mem_extractBackLinks_iff_mentions]
  rfl

/-- Back links are the converse of forward links, and expansion does not depend on the end it starts from. -/
structure LinksConverse (cards : List Card) : Prop where
  converse : ∀ a ∈ cards, ∀ b ∈ cards, a ≠ b →
    (b.id ∈ extractBackLinks a.id cards ↔ a.id ∈ extractCardLinks b.content b.id)
  symmetric : ∀ a ∈ cards, ∀ b ∈ cards,
    (b.id ∈ expandLinkedCards a.id cards ↔ a.id ∈ expandLinkedCards b.id cards)

/-- One card mentions the other, or both mention an id of no card, the second of them in lower case. -/
def Connects (cards : List Card) (a b : Card) : Prop :=
  b ∈ cards ∧ (Mentions a b.id ∨ Mentions b a.id ∨
    ∃ id, (∀ card ∈ cards, card.id ≠ id) ∧ Mentions a id ∧ Mentions b id ∧ AlsoLowerCase b id)

/-- Whoever mentions an existing card does so in lower case too, and a mention of no card in upper case
alone leads nowhere that there is no way back from. -/
structure LowerCaseMentions (cards : List Card) : Prop where
  existing : ∀ card ∈ cards, ∀ other ∈ cards, Mentions card other.id → AlsoLowerCase card other.id
  missing : ∀ card ∈ cards, ∀ other ∈ cards, ∀ id, (∀ existing ∈ cards, existing.id ≠ id) →
    Mentions card id → ¬ AlsoLowerCase card id → Mentions other id → AlsoLowerCase other id →
    Relation.ReflTransGen (Connects cards) other card

section

variable {cards : List Card} (hnodup : (cards.map Card.id).Nodup)

include hnodup

/-- Expansion walks from card to card along connections, and may end at an id of no card. -/
theorem connected_of_reachable {card : Card} (hcard : card ∈ cards) {id : Uuid}
    (h : Relation.ReflTransGen (Search.Edge (neighbors cards)) card.id id) :
    (∃ other ∈ cards, other.id = id ∧ Relation.ReflTransGen (Connects cards) card other) ∨
      (∀ existing ∈ cards, existing.id ≠ id) ∧
        ∃ other ∈ cards, Relation.ReflTransGen (Connects cards) card other ∧ Mentions other id := by
  induction h with
  | refl => exact .inl ⟨card, hcard, rfl, .refl⟩
  | @tail node id _ hedge ih =>
      rcases ih with ⟨other, hother, rfl, hpath⟩ | ⟨hmissing, other, hother, hpath, hmentions⟩
      · rcases (mem_neighbors_of_mem hnodup hother).mp hedge with hforward | ⟨next, hnext, rfl, hback, -⟩
        · by_cases hid : ∃ next ∈ cards, next.id = id
          · obtain ⟨next, hnext, rfl⟩ := hid
            exact .inl ⟨next, hnext, rfl, hpath.tail ⟨hnext, .inl hforward⟩⟩
          · exact .inr ⟨fun existing hexisting heq => hid ⟨existing, hexisting, heq⟩, other, hother, hpath, hforward⟩
        · exact .inl ⟨next, hnext, rfl, hpath.tail ⟨hnext, .inr (.inl hback)⟩⟩
      · obtain ⟨next, hnext, rfl, hback, hlower⟩ := (mem_neighbors_of_missing hmissing).mp hedge
        exact .inl ⟨next, hnext, rfl,
          hpath.tail ⟨hnext, .inr (.inr ⟨node, hmissing, hmentions, hback, hlower⟩)⟩⟩

theorem reachable_of_connected
    (hexisting : ∀ card ∈ cards, ∀ other ∈ cards, Mentions card other.id → AlsoLowerCase card other.id)
    {card other : Card} (hcard : card ∈ cards) (h : Relation.ReflTransGen (Connects cards) card other) :
    other ∈ cards ∧ Relation.ReflTransGen (Search.Edge (neighbors cards)) card.id other.id := by
  induction h with
  | refl => exact ⟨hcard, .refl⟩
  | @tail middle other _ hconnects ih =>
      obtain ⟨hmiddle, hpath⟩ := ih
      obtain ⟨hother, hforward | hback | ⟨id, hmissing, hmiddleId, hotherId, hlower⟩⟩ := hconnects
      · exact ⟨hother, hpath.tail ((mem_neighbors_of_mem hnodup hmiddle).mpr (.inl hforward))⟩
      · have hlower := hexisting other hother middle hmiddle hback
        exact ⟨hother, hpath.tail
          ((mem_neighbors_of_mem hnodup hmiddle).mpr (.inr ⟨other, hother, rfl, hback, hlower⟩))⟩
      · have hout : Search.Edge (neighbors cards) middle.id id :=
          (mem_neighbors_of_mem hnodup hmiddle).mpr (.inl hmiddleId)
        have hin : Search.Edge (neighbors cards) id other.id :=
          (mem_neighbors_of_missing hmissing).mpr ⟨other, hother, rfl, hotherId, hlower⟩
        exact ⟨hother, (hpath.tail hout).tail hin⟩

theorem mem_expandLinkedCards_iff_connected
    (hexisting : ∀ card ∈ cards, ∀ other ∈ cards, Mentions card other.id → AlsoLowerCase card other.id)
    {card other : Card} (hcard : card ∈ cards) (hother : other ∈ cards) :
    other.id ∈ expandLinkedCards card.id cards ↔
      other.id ≠ card.id ∧ Relation.ReflTransGen (Connects cards) card other := by
  rw [(expandLinkedCards_spec card.id cards).2.2.1]
  refine and_congr_right fun hne => ?_
  constructor
  · intro hpath
    rcases connected_of_reachable hnodup hcard hpath.to_reflTransGen with
      ⟨found, hfound, hid, hconnected⟩ | ⟨hmissing, -⟩
    · rwa [← card_eq_of_id_eq hnodup hfound hother hid]
    · exact absurd rfl (hmissing other hother)
  · intro hconnected
    have hpath := (reachable_of_connected hnodup hexisting hcard hconnected).2
    exact (Relation.reflTransGen_iff_eq_or_transGen.mp hpath).resolve_left hne

/-- Under the condition there is a way back along every connection. -/
theorem LowerCaseMentions.connected_symm (h : LowerCaseMentions cards) {card other : Card} (hcard : card ∈ cards)
    (hconnected : Relation.ReflTransGen (Connects cards) card other) :
    Relation.ReflTransGen (Connects cards) other card := by
  induction hconnected with
  | refl => exact .refl
  | @tail middle other hpath hconnects ih =>
      refine Relation.ReflTransGen.trans ?_ ih
      have hmiddle := (reachable_of_connected hnodup h.existing hcard hpath).1
      obtain ⟨hother, hforward | hback | ⟨id, hmissing, hmiddleId, hotherId, hlower⟩⟩ := hconnects
      · exact .single ⟨hmiddle, .inr (.inl hforward)⟩
      · exact .single ⟨hmiddle, .inl hback⟩
      · by_cases halso : AlsoLowerCase middle id
        · exact .single ⟨hmiddle, .inr (.inr ⟨id, hmissing, hotherId, hmiddleId, halso⟩)⟩
        · exact h.missing middle hmiddle other hother id hmissing hmiddleId halso hotherId hlower

/-- Back links are the converse of forward links exactly if no existing card is mentioned in upper case
alone, and the ids of no card that are do not break the symmetry. -/
theorem linksConverse_iff : LinksConverse cards ↔ LowerCaseMentions cards := by
  constructor
  · intro h
    have hexisting : ∀ card ∈ cards, ∀ other ∈ cards, Mentions card other.id → AlsoLowerCase card other.id := by
      intro card hcard other hother hmentions
      have hne : other ≠ card := by
        rintro rfl
        exact hmentions.1 rfl
      have hlink := mem_extractCardLinks_iff_mentions.mpr hmentions
      obtain ⟨found, hfound, hid, -, hlower⟩ :=
        mem_extractBackLinks_iff_mentions.mp ((h.converse other hother card hcard hne).mpr hlink)
      rwa [card_eq_of_id_eq hnodup hfound hcard hid] at hlower
    refine ⟨hexisting, fun card hcard other hother id hmissing hmentions hupper hotherId hlower => ?_⟩
    have hne : other.id ≠ card.id := by
      intro hid
      rw [card_eq_of_id_eq hnodup hother hcard hid] at hlower
      exact hupper hlower
    have hconnects : Connects cards card other := ⟨hother, .inr (.inr ⟨id, hmissing, hmentions, hotherId, hlower⟩)⟩
    have hmem := (mem_expandLinkedCards_iff_connected hnodup hexisting hcard hother).mpr ⟨hne, .single hconnects⟩
    have hback := (h.symmetric card hcard other hother).mp hmem
    exact ((mem_expandLinkedCards_iff_connected hnodup hexisting hother hcard).mp hback).2
  · intro h
    constructor
    · intro a ha b hb hne
      rw [mem_extractBackLinks_iff_mentions, mem_extractCardLinks_iff_mentions]
      constructor
      · rintro ⟨found, hfound, hid, hmentions, -⟩
        rwa [card_eq_of_id_eq hnodup hfound hb hid] at hmentions
      · exact fun hmentions => ⟨b, hb, rfl, hmentions, h.existing b hb a ha hmentions⟩
    · intro a ha b hb
      rw [mem_expandLinkedCards_iff_connected hnodup h.existing ha hb,
        mem_expandLinkedCards_iff_connected hnodup h.existing hb ha]
      constructor
      · exact fun ⟨hne, hconnected⟩ => ⟨hne.symm, h.connected_symm hnodup ha hconnected⟩
      · exact fun ⟨hne, hconnected⟩ => ⟨hne.symm, h.connected_symm hnodup hb hconnected⟩

end

def noteCard (id : Uuid) (content : List Char) : Card :=
  @Card.first polynomialBlake3 id (String.ofList content) ⟨0, zero_mem_i64⟩ [] false .epoch none

def upperCaseLink : List Char :=
  ['A', 'A', 'A', 'A', 'A', 'A', 'A', 'A', '-', 'B', 'B', 'B', 'B', '-', 'C', 'C', 'C', 'C', '-',
    'D', 'D', 'D', 'D', '-', 'E', 'E', 'E', 'E', 'E', 'E', 'E', 'E', 'E', 'E', 'E', 'E']

def linkedCards (link : List Char) : List Card :=
  [noteCard 0xAAAAAAAABBBBCCCCDDDDEEEEEEEEEEEE [], noteCard 1 link]

theorem linksConverse_linkedCards :
    ((linkedCards (upperCaseLink.map Char.toLower)).map Card.id).Nodup ∧
      (LinksConverse (linkedCards (upperCaseLink.map Char.toLower)) ↔
        LowerCaseMentions (linkedCards (upperCaseLink.map Char.toLower))) :=
  have hnodup : ((linkedCards (upperCaseLink.map Char.toLower)).map Card.id).Nodup := by decide
  ⟨hnodup, linksConverse_iff hnodup⟩

/-- A link in upper case is followed forward and not backward. -/
theorem not_linksConverse_upperCase : ¬ LinksConverse (linkedCards upperCaseLink) := by
  intro h
  have hspelling : IsSpelling upperCaseLink := by
    unfold IsSpelling
    decide
  have hlink : (0xAAAAAAAABBBBCCCCDDDDEEEEEEEEEEEE : Uuid) ∈ extractCardLinks (String.ofList upperCaseLink) 1 := by
    rw [mem_extractCardLinks, String.toList_ofList, uuidMatches_spelling hspelling]
    exact ⟨by decide, upperCaseLink, List.mem_singleton_self _, by decide +kernel⟩
  have hfirst : noteCard 0xAAAAAAAABBBBCCCCDDDDEEEEEEEEEEEE [] ∈ linkedCards upperCaseLink := List.mem_cons_self
  have hsecond : noteCard 1 upperCaseLink ∈ linkedCards upperCaseLink :=
    List.mem_cons_of_mem _ (List.mem_singleton_self _)
  have hne : noteCard 0xAAAAAAAABBBBCCCCDDDDEEEEEEEEEEEE [] ≠ noteCard 1 upperCaseLink := by
    intro heq
    exact absurd (congrArg Card.id heq) (by decide)
  have hback := (h.converse _ hfirst _ hsecond hne).mpr hlink
  obtain ⟨card, hcard, hid, -, hneedle, -⟩ := mem_extractBackLinks.mp hback
  obtain rfl : card = noteCard 1 upperCaseLink :=
    card_eq_of_id_eq (by decide) hcard hsecond hid
  have hcontent : (noteCard 1 upperCaseLink).content.toList = upperCaseLink := String.toList_ofList
  have htext : (Uuid.toString 0xAAAAAAAABBBBCCCCDDDDEEEEEEEEEEEE).toList = upperCaseLink.map Char.toLower := by
    rw [Uuid.toString, String.toList_ofList]
    decide +kernel
  have heq : upperCaseLink.map Char.toLower = upperCaseLink := by
    rw [hcontent] at hneedle
    exact (htext ▸ hneedle).eq_of_length (by decide)
  exact absurd heq (by decide)

end BlazeList
