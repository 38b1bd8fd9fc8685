import BlazeList.Client.LinkExpansion
import Mathlib.Data.Set.Card

/-!
# Link counts

Each card shows how many others it links to, how many link to it, how many do both, and how many more can
be reached.
-/

namespace BlazeList

structure LinkCounts where
  forward : Nat := 0
  back : Nat := 0
  mutualLinks : Nat := 0
  transitive : Nat := 0
  deriving DecidableEq

abbrev CountMap := Uuid → Option LinkCounts

def CountMap.entry (counts : CountMap) (id : Uuid) : LinkCounts := (counts id).getD {}

def CountMap.set (counts : CountMap) (id : Uuid) (entry : LinkCounts) : CountMap :=
  Function.update counts id (some entry)

/-! ### Direct links -/

def outgoingLinks (cards : List Card) : List (Uuid × List Uuid) :=
  (cards.map fun card =>
    (card.id, (extractCardLinks card.content card.id).filter fun id => id ∈ cards.map Card.id)).foldl
      (Keyed.replace Prod.fst) []

def linksBack (outgoing : List (Uuid × List Uuid)) (own target : Uuid) : Bool :=
  (Keyed.lookup Prod.fst outgoing target).any fun (_, links) => own ∈ links

def countLink (outgoing : List (Uuid × List Uuid)) (counts : CountMap) (own target : Uuid) : CountMap :=
  if linksBack outgoing own target then
    counts.set own { counts.entry own with mutualLinks := (counts.entry own).mutualLinks + 1 }
  else
    let counts := counts.set own { counts.entry own with forward := (counts.entry own).forward + 1 }
    counts.set target { counts.entry target with back := (counts.entry target).back + 1 }

def computeAllLinkCounts (cards : List Card) : CountMap :=
  let outgoing := outgoingLinks cards
  outgoing.foldl (fun counts (own, links) =>
    links.foldl (fun counts target => countLink outgoing counts own target) counts) fun _ => none

def LinkCounts.direct (counts : LinkCounts) : Nat := counts.forward + counts.back + counts.mutualLinks

def countTransitive (cards : List Card) (counts : CountMap) (card : Card) : CountMap :=
  let expanded := expandLinkedCards card.id cards
  let direct := (counts.entry card.id).direct
  counts.set card.id { counts.entry card.id with transitive := expanded.length - direct }

def computeAllLinkCountsRecursive (cards : List Card) : CountMap :=
  cards.foldl (countTransitive cards) (computeAllLinkCounts cards)

@[simp]
theorem CountMap.entry_set (counts : CountMap) (id other : Uuid) (entry : LinkCounts) :
    (counts.set id entry).entry other = if other = id then entry else counts.entry other := by
  rw [CountMap.entry, CountMap.set, Function.update_apply]
  split
  next => rfl
  next => rfl

/-- A link adds to the counts of its two ends. -/
theorem entry_countLink (outgoing : List (Uuid × List Uuid)) (counts : CountMap) (own target id : Uuid) :
    (countLink outgoing counts own target).entry id =
      { forward := (counts.entry id).forward + if own = id ∧ linksBack outgoing own target = false then 1 else 0
        back := (counts.entry id).back + if target = id ∧ linksBack outgoing own target = false then 1 else 0
        mutualLinks := (counts.entry id).mutualLinks + if own = id ∧ linksBack outgoing own target = true then 1 else 0
        transitive := (counts.entry id).transitive } := by
  rw [countLink]
  cases linksBack outgoing own target with
  | true =>
      by_cases hown : own = id
      · simp [hown]
      · simp [hown, Ne.symm hown]
  | false =>
      by_cases hown : own = id <;> by_cases htarget : target = id
      · simp [hown, htarget]
      · simp [hown, htarget, Ne.symm htarget]
      · simp [hown, htarget, Ne.symm hown]
      · simp [hown, htarget, Ne.symm hown, Ne.symm htarget]

/-- After all links the counts are numbers of links, whatever their order. -/
theorem entry_foldl_countLink (outgoing : List (Uuid × List Uuid)) (links : List (Uuid × Uuid)) (counts : CountMap)
    (id : Uuid) :
    (links.foldl (fun counts (own, target) => countLink outgoing counts own target) counts).entry id =
      { forward := (counts.entry id).forward +
          links.countP fun (own, target) => own = id ∧ linksBack outgoing own target = false
        back := (counts.entry id).back +
          links.countP fun (own, target) => target = id ∧ linksBack outgoing own target = false
        mutualLinks := (counts.entry id).mutualLinks +
          links.countP fun (own, target) => own = id ∧ linksBack outgoing own target = true
        transitive := (counts.entry id).transitive } := by
  induction links generalizing counts with
  | nil => rfl
  | cons link links ih =>
      obtain ⟨own, target⟩ := link
      rw [List.foldl_cons, ih, entry_countLink]
      simp only [List.countP_cons, decide_eq_true_eq]
      rw [LinkCounts.mk.injEq]
      refine ⟨?_, ?_, ?_, rfl⟩
      · rw [Nat.add_assoc, Nat.add_comm (List.countP _ links)]
      · rw [Nat.add_assoc, Nat.add_comm (List.countP _ links)]
      · rw [Nat.add_assoc, Nat.add_comm (List.countP _ links)]

/-! ### The links between the cards -/

def linkPairs (cards : List Card) : List (Uuid × Uuid) :=
  (outgoingLinks cards).flatMap fun (own, links) => links.map fun target => (own, target)

theorem computeAllLinkCounts_eq (cards : List Card) :
    computeAllLinkCounts cards =
      (linkPairs cards).foldl (fun (counts : CountMap) (own, target) =>
        countLink (outgoingLinks cards) counts own target) fun _ => none := by
  rw [computeAllLinkCounts, linkPairs, List.foldl_flatMap]
  simp only [List.foldl_map]

section

variable {cards : List Card} (hnodup : (cards.map Card.id).Nodup)

include hnodup

theorem outgoingLinks_eq :
    outgoingLinks cards = cards.map fun card =>
      (card.id, (extractCardLinks card.content card.id).filter fun id => id ∈ cards.map Card.id) := by
  rw [outgoingLinks, Keyed.foldl_replace_of_nodup, List.nil_append]
  rw [List.nil_append, List.map_map]
  exact hnodup

theorem mem_linkPairs {own target : Uuid} :
    (own, target) ∈ linkPairs cards ↔
      ∃ card ∈ cards, card.id = own ∧ Mentions card target ∧ target ∈ cards.map Card.id := by
  rw [linkPairs, outgoingLinks_eq hnodup, List.mem_flatMap]
  constructor
  · rintro ⟨row, hrow, hpair⟩
    obtain ⟨card, hcard, rfl⟩ := List.mem_map.mp hrow
    obtain ⟨id, hid, heq⟩ := List.mem_map.mp hpair
    obtain ⟨rfl, rfl⟩ := Prod.mk.inj heq
    obtain ⟨hlink, hexisting⟩ := List.mem_filter.mp hid
    exact ⟨card, hcard, rfl, mem_extractCardLinks_iff_mentions.mp hlink, of_decide_eq_true hexisting⟩
  · rintro ⟨card, hcard, rfl, hmentions, hexisting⟩
    refine ⟨_, List.mem_map.mpr ⟨card, hcard, rfl⟩, List.mem_map.mpr ⟨target, ?_, rfl⟩⟩
    exact List.mem_filter.mpr ⟨mem_extractCardLinks_iff_mentions.mpr hmentions, decide_eq_true hexisting⟩

theorem nodup_linkPairs : (linkPairs cards).Nodup := by
  rw [linkPairs, outgoingLinks_eq hnodup, List.nodup_flatMap]
  constructor
  · intro row hrow
    obtain ⟨card, -, rfl⟩ := List.mem_map.mp hrow
    refine List.Nodup.map (fun a b heq => (Prod.mk.inj heq).2) ?_
    exact (nodup_extractCardLinks card.content card.id).filter _
  · rw [List.pairwise_map]
    refine (List.pairwise_map.mp hnodup).imp fun {a b} hne pair hleft hright => ?_
    obtain ⟨x, -, rfl⟩ := List.mem_map.mp hleft
    obtain ⟨y, -, heq⟩ := List.mem_map.mp hright
    exact hne (Prod.mk.inj heq).1.symm

theorem linksBack_iff {own target : Uuid} (hown : own ∈ cards.map Card.id) :
    linksBack (outgoingLinks cards) own target = true ↔ (target, own) ∈ linkPairs cards := by
  have hkeys : ((outgoingLinks cards).map Prod.fst).Nodup := by
    rw [outgoingLinks_eq hnodup, List.map_map]
    exact hnodup
  rw [linksBack, Option.any_eq_true, mem_linkPairs hnodup]
  constructor
  · rintro ⟨⟨key, links⟩, hlookup, hmem⟩
    obtain ⟨hrow, rfl⟩ := (Keyed.lookup_eq_some_iff hkeys).mp hlookup
    rw [outgoingLinks_eq hnodup] at hrow
    obtain ⟨card, hcard, heq⟩ := List.mem_map.mp hrow
    obtain ⟨rfl, rfl⟩ := Prod.mk.inj heq
    obtain ⟨hlink, -⟩ := List.mem_filter.mp (of_decide_eq_true hmem)
    exact ⟨card, hcard, rfl, mem_extractCardLinks_iff_mentions.mp hlink, hown⟩
  · rintro ⟨card, hcard, rfl, hmentions, -⟩
    have hrow : (card.id, (extractCardLinks card.content card.id).filter fun id => id ∈ cards.map Card.id) ∈
        outgoingLinks cards := by
      rw [outgoingLinks_eq hnodup]
      exact List.mem_map.mpr ⟨card, hcard, rfl⟩
    refine ⟨_, (Keyed.lookup_eq_some_iff hkeys).mpr ⟨hrow, rfl⟩, decide_eq_true ?_⟩
    exact List.mem_filter.mpr ⟨mem_extractCardLinks_iff_mentions.mpr hmentions, decide_eq_true hown⟩

end

/-- The other ends of the links of an id, in the order in which the three counts count them. -/
def linkedIds (cards : List Card) (id : Uuid) : List Uuid :=
  let outgoing := outgoingLinks cards
  ((linkPairs cards).filter fun (own, target) => own = id ∧ linksBack outgoing own target = false).map Prod.snd ++
    (((linkPairs cards).filter fun (own, target) => target = id ∧ linksBack outgoing own target = false).map
      Prod.fst ++
    ((linkPairs cards).filter fun (own, target) => own = id ∧ linksBack outgoing own target = true).map Prod.snd)

theorem direct_eq_length (cards : List Card) (id : Uuid) :
    ((computeAllLinkCounts cards).entry id).direct = (linkedIds cards id).length := by
  rw [computeAllLinkCounts_eq, entry_foldl_countLink, LinkCounts.direct, linkedIds]
  simp only [List.length_append, List.length_map, List.countP_eq_length_filter]
  simp [CountMap.entry, Nat.add_assoc]

section

variable {cards : List Card} (hnodup : (cards.map Card.id).Nodup)

include hnodup

theorem mem_cards_of_mem_linkPairs {own target : Uuid} (h : (own, target) ∈ linkPairs cards) :
    own ∈ cards.map Card.id ∧ target ∈ cards.map Card.id := by
  obtain ⟨card, hcard, rfl, -, htarget⟩ := (mem_linkPairs hnodup).mp h
  exact ⟨List.mem_map.mpr ⟨card, hcard, rfl⟩, htarget⟩

theorem linksBack_iff_of_mem {own target : Uuid} (h : (own, target) ∈ linkPairs cards) :
    linksBack (outgoingLinks cards) own target = true ↔ (target, own) ∈ linkPairs cards :=
  linksBack_iff hnodup (mem_cards_of_mem_linkPairs hnodup h).1

theorem mem_linkedIds {id other : Uuid} :
    other ∈ linkedIds cards id ↔ (id, other) ∈ linkPairs cards ∨ (other, id) ∈ linkPairs cards := by
  simp only [linkedIds, List.mem_append, List.mem_map, List.mem_filter, Prod.exists, decide_eq_true_eq]
  constructor
  · rintro (⟨own, target, ⟨hpair, rfl, -⟩, rfl⟩ | ⟨own, target, ⟨hpair, rfl, -⟩, rfl⟩ |
      ⟨own, target, ⟨hpair, rfl, -⟩, rfl⟩)
    · exact .inl hpair
    · exact .inr hpair
    · exact .inl hpair
  · intro h
    by_cases hforward : (id, other) ∈ linkPairs cards
    · cases hback : linksBack (outgoingLinks cards) id other with
      | false => exact .inl ⟨id, other, ⟨hforward, rfl, hback⟩, rfl⟩
      | true => exact .inr (.inr ⟨id, other, ⟨hforward, rfl, hback⟩, rfl⟩)
    · have hbackward := h.resolve_left hforward
      refine .inr (.inl ⟨other, id, ⟨hbackward, rfl, ?_⟩, rfl⟩)
      exact Bool.eq_false_iff.mpr (mt (linksBack_iff_of_mem hnodup hbackward).mp hforward)

/-- Each other end counts once. -/
theorem nodup_linkedIds (id : Uuid) : (linkedIds cards id).Nodup := by
  have hpairs := nodup_linkPairs hnodup
  have hsnd (p : Uuid × Uuid → Bool) (hp : ∀ pair, p pair = true → pair.1 = id) :
      (((linkPairs cards).filter p).map Prod.snd).Nodup := by
    refine (hpairs.filter p).map_on fun a ha b hb heq => ?_
    exact Prod.ext ((hp a (List.mem_filter.mp ha).2).trans (hp b (List.mem_filter.mp hb).2).symm) heq
  have hfst (p : Uuid × Uuid → Bool) (hp : ∀ pair, p pair = true → pair.2 = id) :
      (((linkPairs cards).filter p).map Prod.fst).Nodup := by
    refine (hpairs.filter p).map_on fun a ha b hb heq => ?_
    exact Prod.ext heq ((hp a (List.mem_filter.mp ha).2).trans (hp b (List.mem_filter.mp hb).2).symm)
  rw [linkedIds, List.nodup_append', List.nodup_append']
  refine ⟨hsnd _ fun pair hpair => (of_decide_eq_true hpair).1,
    ⟨hfst _ fun pair hpair => (of_decide_eq_true hpair).1,
      hsnd _ fun pair hpair => (of_decide_eq_true hpair).1, ?_⟩, ?_⟩
  · intro other hback hmutual
    simp only [List.mem_map, List.mem_filter, Prod.exists, decide_eq_true_eq] at hback hmutual
    obtain ⟨own, target, ⟨hpair, rfl, hfalse⟩, rfl⟩ := hback
    obtain ⟨own', target', ⟨hforward, rfl, -⟩, rfl⟩ := hmutual
    rw [(linksBack_iff_of_mem hnodup hpair).mpr hforward] at hfalse
    cases hfalse
  · intro other hforward hrest
    simp only [List.mem_append, List.mem_map, List.mem_filter, Prod.exists, decide_eq_true_eq] at hforward hrest
    obtain ⟨own, target, ⟨hpair, rfl, hfalse⟩, rfl⟩ := hforward
    rcases hrest with ⟨other, target', ⟨hback, rfl, -⟩, rfl⟩ | ⟨own', target', ⟨-, rfl, htrue⟩, rfl⟩
    · rw [(linksBack_iff_of_mem hnodup hpair).mpr hback] at hfalse
      cases hfalse
    · rw [htrue] at hfalse
      cases hfalse

end

/-! ### What can be reached -/

theorem entry_foldl_countTransitive {allCards cards : List Card} {counts : CountMap} {id : Uuid}
    (hid : id ∉ cards.map Card.id) :
    (cards.foldl (countTransitive allCards) counts) id = counts id := by
  induction cards generalizing counts with
  | nil => rfl
  | cons card cards ih =>
      rw [List.map_cons, List.mem_cons, not_or] at hid
      rw [List.foldl_cons, ih hid.2, countTransitive, CountMap.set, Function.update_of_ne hid.1]

/-- Each card is given its number once. -/
theorem foldl_countTransitive_of_mem (allCards : List Card) {cards : List Card}
    (hnodup : (cards.map Card.id).Nodup) (counts : CountMap) {card : Card} (hcard : card ∈ cards) :
    (cards.foldl (countTransitive allCards) counts) card.id =
      some { counts.entry card.id with
        transitive := (expandLinkedCards card.id allCards).length - (counts.entry card.id).direct } := by
  induction cards generalizing counts with
  | nil => exact absurd hcard List.not_mem_nil
  | cons first cards ih =>
      obtain ⟨hfirst, hrest⟩ := List.nodup_cons.mp hnodup
      rw [List.foldl_cons]
      rcases List.mem_cons.mp hcard with rfl | hmem
      · rw [entry_foldl_countTransitive hfirst, countTransitive, CountMap.set, Function.update_self]
      · have hne : card.id ≠ first.id := fun heq => hfirst (heq ▸ List.mem_map.mpr ⟨card, hmem, rfl⟩)
        rw [ih hrest _ hmem, countTransitive, CountMap.entry_set, if_neg hne]

def DirectlyLinked (a b : Card) : Prop := Mentions a b.id ∨ Mentions b a.id

def LinkStep (cards : List Card) (a b : Card) : Prop := b ∈ cards ∧ DirectlyLinked a b

def component (cards : List Card) (card : Card) : Set Card :=
  {other | Relation.ReflTransGen (LinkStep cards) card other}

/-- What the counts of a card say about the cards around it. -/
structure CountsConsistent (cards : List Card) (card : Card) (counts : LinkCounts) : Prop where
  direct : counts.forward + counts.back + counts.mutualLinks =
    {other | other ∈ cards ∧ other ≠ card ∧ DirectlyLinked card other}.ncard
  further : counts.transitive = {other | other ∈ component cards card ∧ other ≠ card ∧ ¬ DirectlyLinked card other}.ncard
  total : counts.forward + counts.back + counts.mutualLinks + counts.transitive + 1 = (component cards card).ncard

def SpelledInLowerCase (card : Card) : Prop :=
  ∀ text ∈ uuidMatches card.content.toList, text.map Char.toLower = text

theorem SpelledInLowerCase.alsoLowerCase {card : Card} (h : SpelledInLowerCase card) (id : Uuid) :
    AlsoLowerCase card id := by
  intro text htext _
  rw [h text htext]
  exact uuidMatches_infix htext

theorem mem_cards_of_mem_component {cards : List Card} {card other : Card} (hcard : card ∈ cards)
    (h : other ∈ component cards card) : other ∈ cards := by
  cases h with
  | refl => exact hcard
  | tail _ hstep => exact hstep.1

theorem component_finite {cards : List Card} {card : Card} (hcard : card ∈ cards) :
    (component cards card).Finite :=
  cards.finite_toSet.subset fun _ h => mem_cards_of_mem_component hcard h

section

variable {cards : List Card} (hnodup : (cards.map Card.id).Nodup)

include hnodup

/-- Cards are as many as their ids. -/
theorem ncard_eq_length {ids : List Uuid} (hids : ids.Nodup) {found : Set Card} (hfound : ∀ card ∈ found, card ∈ cards)
    (h : ∀ id, id ∈ ids ↔ ∃ card ∈ found, card.id = id) : found.ncard = ids.length := by
  have himage : Card.id '' found = ↑ids.toFinset := by
    ext id
    rw [Finset.mem_coe, List.mem_toFinset, h]
    rfl
  have hinj : Set.InjOn Card.id found := fun a ha b hb heq =>
    card_eq_of_id_eq hnodup (hfound a ha) (hfound b hb) heq
  rw [← hinj.ncard_image, himage, Set.ncard_coe_finset, List.toFinset_card_of_nodup hids]

theorem direct_eq_ncard {card : Card} (hcard : card ∈ cards) :
    ((computeAllLinkCounts cards).entry card.id).direct =
      {other | other ∈ cards ∧ other ≠ card ∧ DirectlyLinked card other}.ncard := by
  rw [direct_eq_length]
  refine (ncard_eq_length hnodup (nodup_linkedIds hnodup card.id) (fun other hother => hother.1) fun id => ?_).symm
  rw [mem_linkedIds hnodup, mem_linkPairs hnodup, mem_linkPairs hnodup]
  constructor
  · rintro (⟨own, hown, hid, hmentions, hexisting⟩ | ⟨own, hown, rfl, hmentions, -⟩)
    · obtain ⟨other, hother, rfl⟩ := List.mem_map.mp hexisting
      obtain rfl := card_eq_of_id_eq hnodup hown hcard hid
      exact ⟨other, ⟨hother, fun heq => hmentions.1 (congrArg Card.id heq), .inl hmentions⟩, rfl⟩
    · exact ⟨own, ⟨hown, fun heq => hmentions.1 (congrArg Card.id heq).symm, .inr hmentions⟩, rfl⟩
  · rintro ⟨other, ⟨hother, -, hforward | hback⟩, rfl⟩
    · exact .inl ⟨card, hcard, rfl, hforward, List.mem_map.mpr ⟨other, hother, rfl⟩⟩
    · exact .inr ⟨other, hother, rfl, hback, List.mem_map.mpr ⟨card, hcard, rfl⟩⟩

variable (hlower : ∀ card ∈ cards, SpelledInLowerCase card)

include hlower

/-- The rest of the component is expanded. -/
theorem mem_expandLinkedCards_of_mem_component {card other : Card} (hcard : card ∈ cards)
    (hother : other ∈ component cards card) (hne : other ≠ card) : other.id ∈ expandLinkedCards card.id cards := by
  have hmem := mem_cards_of_mem_component hcard hother
  refine (mem_expandLinkedCards_iff_connected hnodup (fun a ha b _ _ => (hlower a ha).alsoLowerCase b.id) hcard
    hmem).mpr ⟨fun heq => hne (card_eq_of_id_eq hnodup hmem hcard heq), ?_⟩
  refine Relation.ReflTransGen.mono (fun a b hstep => ?_) _ _ hother
  exact ⟨hstep.1, hstep.2.imp_right .inl⟩

omit hlower in
/-- Where every mention is of an existing card, the expansion stays inside the component. -/
theorem exists_of_reachable {card : Card} (hcard : card ∈ cards)
    (hexisting : ∀ other ∈ component cards card, ∀ id, Mentions other id → ∃ existing ∈ cards, existing.id = id)
    {id : Uuid} (h : Relation.ReflTransGen (Search.Edge (neighbors cards)) card.id id) :
    ∃ other ∈ component cards card, other.id = id := by
  induction h with
  | refl => exact ⟨card, Relation.ReflTransGen.refl, rfl⟩
  | tail _ hedge ih =>
      obtain ⟨other, hother, rfl⟩ := ih
      have hmem := mem_cards_of_mem_component hcard hother
      rcases (mem_neighbors_of_mem hnodup hmem).mp hedge with hforward | ⟨next, hnext, rfl, hback, -⟩
      · obtain ⟨next, hnext, rfl⟩ := hexisting other hother _ hforward
        exact ⟨next, hother.tail ⟨hnext, .inl hforward⟩, rfl⟩
      · exact ⟨next, hother.tail ⟨hnext, .inr hback⟩, rfl⟩

theorem image_component_subset {card : Card} (hcard : card ∈ cards) :
    Card.id '' (component cards card \ {card}) ⊆ ↑(expandLinkedCards card.id cards).toFinset := by
  rintro id ⟨other, ⟨hother, hne⟩, rfl⟩
  exact List.mem_toFinset.mpr (mem_expandLinkedCards_of_mem_component hnodup hlower hcard hother hne)

omit hlower in
theorem ncard_image_component {card : Card} (hcard : card ∈ cards) :
    (Card.id '' (component cards card \ {card})).ncard + 1 = (component cards card).ncard := by
  have hself : card ∈ component cards card := Relation.ReflTransGen.refl
  have hinj : Set.InjOn Card.id (component cards card \ {card}) := fun a ha b hb heq =>
    card_eq_of_id_eq hnodup (mem_cards_of_mem_component hcard ha.1) (mem_cards_of_mem_component hcard hb.1) heq
  rw [hinj.ncard_image]
  exact Set.ncard_sdiff_singleton_add_one hself (component_finite hcard)

omit hnodup hlower in
theorem ncard_expandLinkedCards (cardId : Uuid) :
    (↑(expandLinkedCards cardId cards).toFinset : Set Uuid).ncard = (expandLinkedCards cardId cards).length := by
  rw [Set.ncard_coe_finset, List.toFinset_card_of_nodup (expandLinkedCards_spec cardId cards).1]

theorem ncard_component_le {card : Card} (hcard : card ∈ cards) :
    (component cards card).ncard ≤ (expandLinkedCards card.id cards).length + 1 := by
  rw [← ncard_image_component hnodup hcard, ← ncard_expandLinkedCards]
  exact Nat.succ_le_succ (Set.ncard_le_ncard (image_component_subset hnodup hlower hcard) (Finset.finite_toSet _))

/-- The expansion finds the rest of the component and nothing else exactly if nothing in the component
mentions an id of no card. -/
theorem expandLinkedCards_eq_component_iff {card : Card} (hcard : card ∈ cards) :
    (expandLinkedCards card.id cards).length + 1 = (component cards card).ncard ↔
      ∀ other ∈ component cards card, ∀ id, Mentions other id → ∃ existing ∈ cards, existing.id = id := by
  obtain ⟨-, -, hmem, -⟩ := expandLinkedCards_spec card.id cards
  have hsub := image_component_subset hnodup hlower hcard
  rw [← ncard_image_component hnodup hcard, Nat.add_right_cancel_iff, ← ncard_expandLinkedCards]
  constructor
  · intro hcount other hother id hmentions
    have heq := Set.eq_of_subset_of_ncard_le hsub hcount.le (Finset.finite_toSet _)
    by_cases hid : id = card.id
    · exact ⟨card, hcard, hid.symm⟩
    · have hpath : Relation.ReflTransGen (Search.Edge (neighbors cards)) card.id id := by
        have hedge : Search.Edge (neighbors cards) other.id id :=
          (mem_neighbors_of_mem hnodup (mem_cards_of_mem_component hcard hother)).mpr (.inl hmentions)
        refine Relation.ReflTransGen.tail ?_ hedge
        by_cases hne : other = card
        · rw [hne]
        · exact ((hmem other.id).mp
            (mem_expandLinkedCards_of_mem_component hnodup hlower hcard hother hne)).2.to_reflTransGen
      have hexpanded : id ∈ expandLinkedCards card.id cards :=
        (hmem id).mpr ⟨hid, (Relation.reflTransGen_iff_eq_or_transGen.mp hpath).resolve_left hid⟩
      obtain ⟨existing, ⟨hexisting, -⟩, hexistingId⟩ :
          id ∈ Card.id '' (component cards card \ {card}) := heq ▸ List.mem_toFinset.mpr hexpanded
      exact ⟨existing, mem_cards_of_mem_component hcard hexisting, hexistingId⟩
  · intro hexisting
    have hsup : ↑(expandLinkedCards card.id cards).toFinset ⊆ Card.id '' (component cards card \ {card}) := by
      intro id hid
      obtain ⟨hne, hpath⟩ := (hmem id).mp (List.mem_toFinset.mp hid)
      obtain ⟨other, hother, rfl⟩ := exists_of_reachable hnodup hcard hexisting hpath.to_reflTransGen
      exact ⟨other, ⟨hother, fun heq => hne (congrArg Card.id heq)⟩, rfl⟩
    rw [hsup.antisymm hsub]

omit hnodup hlower in
/-- A component is the card, what is linked with it directly, and the rest. -/
theorem ncard_component_split {card : Card} (hcard : card ∈ cards) :
    {other | other ∈ cards ∧ other ≠ card ∧ DirectlyLinked card other}.ncard +
      {other | other ∈ component cards card ∧ other ≠ card ∧ ¬ DirectlyLinked card other}.ncard + 1 =
        (component cards card).ncard := by
  have hself : card ∈ component cards card := Relation.ReflTransGen.refl
  have hfinite := component_finite hcard
  have hunion : {other | other ∈ cards ∧ other ≠ card ∧ DirectlyLinked card other} ∪
      {other | other ∈ component cards card ∧ other ≠ card ∧ ¬ DirectlyLinked card other} =
        component cards card \ {card} := by
    ext other
    constructor
    · rintro (⟨hother, hne, hlinked⟩ | ⟨hother, hne, -⟩)
      · exact ⟨Relation.ReflTransGen.single ⟨hother, hlinked⟩, hne⟩
      · exact ⟨hother, hne⟩
    · rintro ⟨hother, hne⟩
      by_cases hlinked : DirectlyLinked card other
      · exact .inl ⟨mem_cards_of_mem_component hcard hother, hne, hlinked⟩
      · exact .inr ⟨hother, hne, hlinked⟩
  have hdisjoint : Disjoint {other | other ∈ cards ∧ other ≠ card ∧ DirectlyLinked card other}
      {other | other ∈ component cards card ∧ other ≠ card ∧ ¬ DirectlyLinked card other} :=
    Set.disjoint_left.mpr fun other hlinked hrest => hrest.2.2 hlinked.2.2
  have hleft : {other | other ∈ cards ∧ other ≠ card ∧ DirectlyLinked card other}.Finite :=
    cards.finite_toSet.subset fun other hother => hother.1
  have hright : {other | other ∈ component cards card ∧ other ≠ card ∧ ¬ DirectlyLinked card other}.Finite :=
    hfinite.subset fun other hother => hother.1
  rw [← Set.ncard_union_eq hdisjoint hleft hright, hunion]
  exact Set.ncard_sdiff_singleton_add_one hself hfinite

theorem countsConsistent_counted_iff {card : Card} (hcard : card ∈ cards) {counts : LinkCounts}
    (hcounts : computeAllLinkCountsRecursive cards card.id = some counts) :
    CountsConsistent cards card counts ↔
      ∀ other ∈ component cards card, ∀ id, Mentions other id → ∃ existing ∈ cards, existing.id = id := by
  rw [← expandLinkedCards_eq_component_iff hnodup hlower hcard]
  obtain rfl := Option.some.inj ((foldl_countTransitive_of_mem cards hnodup _ hcard).symm.trans hcounts)
  have hdirect := direct_eq_ncard hnodup hcard
  have hsplit := ncard_component_split hcard
  have hle := ncard_component_le hnodup hlower hcard
  rw [LinkCounts.direct] at hdirect ⊢
  constructor
  · intro h
    have htotal := h.total
    dsimp only at htotal
    omega
  · intro h
    refine ⟨hdirect, ?_, ?_⟩
    · dsimp only
      omega
    · dsimp only
      omega

/-- Every card has counts, and they are right exactly if nothing in its component mentions an id of no card:
such an id is counted as one more card that can be reached. -/
theorem countsConsistent_iff {card : Card} (hcard : card ∈ cards) :
    ∃ counts, computeAllLinkCountsRecursive cards card.id = some counts ∧
      (CountsConsistent cards card counts ↔
        ∀ other ∈ component cards card, ∀ id, Mentions other id → ∃ existing ∈ cards, existing.id = id) := by
  have hcounts := foldl_countTransitive_of_mem cards hnodup (computeAllLinkCounts cards) hcard
  exact ⟨_, hcounts, countsConsistent_counted_iff hnodup hlower hcard hcounts⟩

end

def lowerCaseLink : List Char := upperCaseLink.map Char.toLower

theorem isSpelling_lowerCaseLink : IsSpelling lowerCaseLink := by
  unfold IsSpelling
  decide

theorem spelledInLowerCase_noteCard (id : Uuid) : SpelledInLowerCase (noteCard id lowerCaseLink) := by
  intro text htext
  have hcontent : (noteCard id lowerCaseLink).content.toList = lowerCaseLink := String.toList_ofList
  rw [hcontent, uuidMatches_spelling isSpelling_lowerCaseLink, List.mem_singleton] at htext
  rw [htext]
  decide

theorem spelledInLowerCase_empty (id : Uuid) : SpelledInLowerCase (noteCard id []) := by
  intro text htext
  have hcontent : (noteCard id []).content.toList = [] := String.toList_ofList
  rw [hcontent, uuidMatches, captures_nil] at htext
  exact absurd htext List.not_mem_nil

theorem mentions_lowerCaseLink : Mentions (noteCard 1 lowerCaseLink) 0xAAAAAAAABBBBCCCCDDDDEEEEEEEEEEEE := by
  have hcontent : (noteCard 1 lowerCaseLink).content.toList = lowerCaseLink := String.toList_ofList
  refine ⟨by decide, lowerCaseLink, ?_, by decide +kernel⟩
  rw [hcontent, uuidMatches_spelling isSpelling_lowerCaseLink]
  exact List.mem_singleton_self _

theorem countsConsistent_linkedCards :
    ∃ counts, computeAllLinkCountsRecursive (linkedCards lowerCaseLink) 1 = some counts ∧
      (CountsConsistent (linkedCards lowerCaseLink) (noteCard 1 lowerCaseLink) counts ↔
        ∀ other ∈ component (linkedCards lowerCaseLink) (noteCard 1 lowerCaseLink), ∀ id, Mentions other id →
          ∃ existing ∈ linkedCards lowerCaseLink, existing.id = id) := by
  have hcard : noteCard 1 lowerCaseLink ∈ linkedCards lowerCaseLink :=
    List.mem_cons_of_mem _ (List.mem_singleton_self _)
  refine countsConsistent_iff (by decide) (fun card hmem => ?_) hcard
  rcases List.mem_cons.mp hmem with rfl | hlast
  · exact spelledInLowerCase_empty _
  · rw [List.mem_singleton.mp hlast]
    exact spelledInLowerCase_noteCard 1

/-- A single card that links to no existing card is said to reach another one. -/
theorem not_countsConsistent_dangling :
    ([noteCard 1 lowerCaseLink].map Card.id).Nodup ∧
      (∀ card ∈ [noteCard 1 lowerCaseLink], SpelledInLowerCase card) ∧
      ∀ counts, computeAllLinkCountsRecursive [noteCard 1 lowerCaseLink] 1 = some counts →
        ¬ CountsConsistent [noteCard 1 lowerCaseLink] (noteCard 1 lowerCaseLink) counts := by
  have hnodup : ([noteCard 1 lowerCaseLink].map Card.id).Nodup := List.nodup_singleton _
  have hlower : ∀ card ∈ [noteCard 1 lowerCaseLink], SpelledInLowerCase card := by
    intro card hmem
    rw [List.mem_singleton.mp hmem]
    exact spelledInLowerCase_noteCard 1
  refine ⟨hnodup, hlower, fun counts hcounts hconsistent => ?_⟩
  have hexisting := (countsConsistent_counted_iff hnodup hlower (List.mem_singleton_self _) hcounts).mp hconsistent
  obtain ⟨existing, hmem, hid⟩ := hexisting _ Relation.ReflTransGen.refl _ mentions_lowerCaseLink
  rw [List.mem_singleton.mp hmem] at hid
  exact absurd hid (by decide)

end BlazeList
