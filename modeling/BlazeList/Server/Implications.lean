import BlazeList.Protocol.TagGraph
import BlazeList.Server.Effects

/-!
# The tag-implication validator

A snapshot of the live rows is overlaid with the items that were just written to them, and the result
is checked as a whole. The overlay repeats writes the snapshot already shows, so what is checked is the
content of the tables.
-/

namespace BlazeList

structure ImplicationSnapshot where
  tagImplies : Std.TreeMap Uuid (List Uuid)
  cardTags : Std.TreeMap Uuid (List Uuid)

def implicationSnapshot (store : Store) : ImplicationSnapshot where
  tagImplies := store.tags.live.rows.foldl
    (fun tagImplies row => tagImplies.insert row.entity.id row.entity.implies) ∅
  cardTags := store.cards.live.rows.foldl
    (fun cardTags row => cardTags.insert row.entity.id row.entity.tags) ∅

/-- For each item the last version is taken as the state after the batch. -/
def ImplicationSnapshot.overlay (snapshot : ImplicationSnapshot) : PushItem → ImplicationSnapshot
  | .tags versions =>
      match versions.getLast? with
      | some latest =>
          { snapshot with tagImplies := snapshot.tagImplies.insert latest.id latest.implies }
      | none => snapshot
  | .cards versions =>
      match versions.getLast? with
      | some latest => { snapshot with cardTags := snapshot.cardTags.insert latest.id latest.tags }
      | none => snapshot
  | .deleteTag id => { snapshot with tagImplies := snapshot.tagImplies.erase id }
  | .deleteCard id => { snapshot with cardTags := snapshot.cardTags.erase id }

def danglingReference (tagImplies : Std.TreeMap Uuid (List Uuid)) : Option PushError :=
  tagImplies.toList.findSome? fun (tagId, implies) =>
    let missing := implies.filter (· ∉ tagImplies)
    if missing.isEmpty then
      none
    else
      some (.tagImpliesUnknown tagId (missing.insertionSort (· ≤ ·)).dedup)

def closureViolation (graph : TagGraph) (cardTags : Std.TreeMap Uuid (List Uuid)) :
    Option PushError :=
  cardTags.toList.findSome? fun (cardId, tags) =>
    let missing := graph.missingForCard tags
    if missing.isEmpty then none else some (.tagImplicationViolation cardId missing)

def validateBatchImplications (store : Store) (items : List PushItem) : Except PushOpError Unit :=
  let snapshot := items.foldl ImplicationSnapshot.overlay (implicationSnapshot store)
  match danglingReference snapshot.tagImplies with
  | some error => .error (.domain error)
  | none =>
      let graph := TagGraph.fromPairs snapshot.tagImplies.toList
      match graph.detectCycle with
      | some cycle => .error (.domain (.tagImplicationCycle cycle.cycle))
      | none =>
          match closureViolation graph snapshot.cardTags with
          | some error => .error (.domain error)
          | none => .ok ()

/-! ### What is checked -/

def ImpliesEdge (store : Store) (tag parent : Uuid) : Prop :=
  ∃ row ∈ store.tags.live, row.entity.id = tag ∧ parent ∈ row.entity.implies

structure ImplicationInvariant (store : Store) : Prop where
  parent_live : ∀ row ∈ store.tags.live, ∀ parent ∈ row.entity.implies,
    ∃ target ∈ store.tags.live, target.entity.id = parent
  acyclic : ∀ tag, ¬ Relation.TransGen (ImpliesEdge store) tag tag
  card_closed : ∀ row ∈ store.cards.live, ∀ tag ∈ row.entity.tags, ∀ parent,
    Relation.ReflTransGen (ImpliesEdge store) tag parent → parent ∈ row.entity.tags

theorem getElem?_foldl_insert {α : Type} (key : α → Uuid) (value : α → List Uuid) (rows : List α)
    (map : Std.TreeMap Uuid (List Uuid)) (id : Uuid)
    (hrows : rows.Pairwise fun a b => key a ≠ key b) :
    (rows.foldl (fun map row => map.insert (key row) (value row)) map)[id]? =
      ((rows.find? fun row => key row = id).map value).or map[id]? := by
  induction rows generalizing map with
  | nil => simp
  | cons row rows ih =>
      obtain ⟨hfresh, hrows⟩ := List.pairwise_cons.mp hrows
      rw [List.foldl_cons, ih _ hrows, Std.TreeMap.getElem?_insert, List.find?_cons]
      simp only [Std.LawfulEqCmp.compare_eq_iff_eq]
      by_cases hid : key row = id
      · have hnone : (rows.find? fun row => key row = id) = none := by
          refine List.find?_eq_none.mpr fun other hother => ?_
          simpa [← hid] using (hfresh other hother).symm
        simp [hid, hnone]
      · simp [hid]

theorem pairwise_id {E : Type} [Stored E] (tables : EntityTables E) :
    tables.live.rows.Pairwise fun a b => Entity.id a.entity ≠ Entity.id b.entity :=
  tables.live.unique.imp fun hab hid => hab (.inl hid)

theorem implicationSnapshot_tagImplies (store : Store) (id : Uuid) :
    (implicationSnapshot store).tagImplies[id]? = (store.tags.current id).map Tag.implies := by
  refine (getElem?_foldl_insert (fun row : EntityRow Tag => row.entity.id)
    (fun row => row.entity.implies) _ ∅ id (pairwise_id store.tags)).trans ?_
  simp [EntityTables.current, EntityTables.row?, Table.find?, Function.comp_def]

theorem implicationSnapshot_cardTags (store : Store) (id : Uuid) :
    (implicationSnapshot store).cardTags[id]? = (store.cards.current id).map Card.tags := by
  refine (getElem?_foldl_insert (fun row : EntityRow Card => row.entity.id)
    (fun row => row.entity.tags) _ ∅ id (pairwise_id store.cards)).trans ?_
  simp [EntityTables.current, EntityTables.row?, Table.find?, Function.comp_def]

def readWrites {E : Type} (read : E → List Uuid) (writes : List (Uuid × Option E)) :
    List (Uuid × Option (List Uuid)) :=
  writes.map fun write => (write.1, write.2.map read)

theorem getElem?_insert_eq_apply (map : Std.TreeMap Uuid (List Uuid)) (key : Uuid)
    (value : List Uuid) :
    (fun id => (map.insert key value)[id]?) = Overlay.apply (fun id => map[id]?) (key, some value) := by
  funext id
  simp only [Std.TreeMap.getElem?_insert, Std.LawfulEqCmp.compare_eq_iff_eq, Overlay.apply,
    Function.update_apply, eq_comm (a := key)]

theorem getElem?_erase_eq_apply (map : Std.TreeMap Uuid (List Uuid)) (key : Uuid) :
    (fun id => (map.erase key)[id]?) = Overlay.apply (fun id => map[id]?) (key, none) := by
  funext id
  simp only [Std.TreeMap.getElem?_erase, Std.LawfulEqCmp.compare_eq_iff_eq, Overlay.apply,
    Function.update_apply, eq_comm (a := key)]

theorem overlay_tagImplies (snapshot : ImplicationSnapshot) (item : PushItem) :
    (fun id => (snapshot.overlay item).tagImplies[id]?) =
      Overlay.applyAll (fun id => snapshot.tagImplies[id]?) 
        (readWrites Tag.implies item.tagWrites) := by
  cases item with
  | cards versions =>
      simp only [ImplicationSnapshot.overlay]
      split <;> rfl
  | tags versions =>
      simp only [ImplicationSnapshot.overlay, readWrites, PushItem.tagWrites, chainWrites]
      split
      · rename_i latest hlast
        rw [hlast]
        exact getElem?_insert_eq_apply _ _ _
      · rename_i hlast
        rw [hlast]
        rfl
  | deleteCard deleted => rfl
  | deleteTag deleted => exact getElem?_erase_eq_apply _ _

theorem overlay_cardTags (snapshot : ImplicationSnapshot) (item : PushItem) :
    (fun id => (snapshot.overlay item).cardTags[id]?) =
      Overlay.applyAll (fun id => snapshot.cardTags[id]?) 
        (readWrites Card.tags item.cardWrites) := by
  cases item with
  | tags versions =>
      simp only [ImplicationSnapshot.overlay]
      split <;> rfl
  | cards versions =>
      simp only [ImplicationSnapshot.overlay, readWrites, PushItem.cardWrites, chainWrites]
      split
      · rename_i latest hlast
        rw [hlast]
        exact getElem?_insert_eq_apply _ _ _
      · rename_i hlast
        rw [hlast]
        rfl
  | deleteTag deleted => rfl
  | deleteCard deleted => exact getElem?_erase_eq_apply _ _

/-- Overlaying the items on a store that they were written to shows the store as it is. -/
theorem view_overlaid {E : Type} [Stored E] {read : E → List Uuid}
    (view : ImplicationSnapshot → Uuid → Option (List Uuid))
    {writes : PushItem → List (Uuid × Option E)} {snapshot : ImplicationSnapshot}
    {before after : EntityTables E} {items : List PushItem}
    (hstep : ∀ snapshot item, view (snapshot.overlay item) =
      Overlay.applyAll (view snapshot) (readWrites read (writes item)))
    (hsnapshot : view snapshot = fun id => (after.current id).map read)
    (hwritten : after.current = Overlay.applyAll before.current (items.flatMap writes)) :
    view (items.foldl ImplicationSnapshot.overlay snapshot) =
      fun id => (after.current id).map read := by
  have hwrites : (items.flatMap fun item => readWrites read (writes item)) =
      readWrites read (items.flatMap writes) :=
    List.map_flatMap.symm
  have hcontent : (fun id => (after.current id).map read) =
      Overlay.applyAll (fun id => (before.current id).map read)
        (readWrites read (items.flatMap writes)) := by
    rw [hwritten]
    exact Overlay.map_applyAll read before.current _
  rw [Overlay.view_foldl hstep, hsnapshot, hwrites, hcontent, Overlay.applyAll_applyAll]

/-! ### The three checks -/

theorem danglingReference_eq_none_iff {tagImplies : Std.TreeMap Uuid (List Uuid)} :
    danglingReference tagImplies = none ↔
      ∀ (id : Uuid) (implies : List Uuid), tagImplies[id]? = some implies → ∀ parent ∈ implies,
        parent ∈ tagImplies := by
  simp [danglingReference, List.findSome?_eq_none_iff, Std.TreeMap.mem_toList_iff_getElem?_eq_some]

theorem closureViolation_eq_none_iff {graph : TagGraph} {cardTags : Std.TreeMap Uuid (List Uuid)} :
    closureViolation graph cardTags = none ↔
      ∀ (id : Uuid) (tags : List Uuid), cardTags[id]? = some tags →
        Search.Closed graph.impliesOf {tag | tag ∈ tags} := by
  simp [closureViolation, List.findSome?_eq_none_iff, Std.TreeMap.mem_toList_iff_getElem?_eq_some,
    TagGraph.missingForCard_eq_nil_iff]

theorem impliesOf_fromPairs_toList (tagImplies : Std.TreeMap Uuid (List Uuid)) (id : Uuid) :
    (TagGraph.fromPairs tagImplies.toList).impliesOf id = (tagImplies[id]?).getD [] := by
  rw [TagGraph.impliesOf_eq, TagGraph.fromPairs]
  cases hget : tagImplies[id]? with
  | some implies =>
      rw [Std.TreeMap.getElem?_ofList_of_mem (Std.LawfulEqCmp.compare_eq_iff_eq.mpr rfl)
        Std.TreeMap.distinct_keys_toList
        (Std.TreeMap.mem_toList_iff_getElem?_eq_some.mpr hget)]
  | none =>
      have hnotMem : id ∉ tagImplies := by
        rw [Std.TreeMap.mem_iff_isSome_getElem?, hget]
        simp
      rw [Std.TreeMap.getElem?_ofList_of_contains_eq_false]
      rw [Std.TreeMap.map_fst_toList_eq_keys]
      simpa using hnotMem

section Content

variable {store : Store} {graph : TagGraph} {tagImplies cardTags : Std.TreeMap Uuid (List Uuid)}

theorem edge_iff_impliesEdge
    (hgraph : ∀ id, graph.impliesOf id = ((store.tags.current id).map Tag.implies).getD [])
    {tag parent : Uuid} :
    Search.Edge graph.impliesOf tag parent ↔ ImpliesEdge store tag parent := by
  rw [Search.Edge, hgraph, ImpliesEdge]
  cases hcurrent : store.tags.current tag with
  | none =>
      simp only [Option.map_none, Option.getD_none, List.not_mem_nil, false_iff, not_exists, not_and]
      exact fun row hrow hid => absurd hid (EntityTables.current_eq_none_iff.mp hcurrent row hrow)
  | some current =>
      obtain ⟨row, hrow, rfl, hid⟩ := EntityTables.current_eq_some_iff.mp hcurrent
      simp only [Option.map_some, Option.getD_some]
      constructor
      · exact fun hparent => ⟨row, hrow, hid, hparent⟩
      · rintro ⟨other, hother, hotherId, hparent⟩
        rwa [EntityTables.eq_of_id_eq hrow hother (hid.trans hotherId.symm)]

theorem parent_live_iff
    (htags : ∀ id, tagImplies[id]? = (store.tags.current id).map Tag.implies) :
    danglingReference tagImplies = none ↔
      ∀ row ∈ store.tags.live, ∀ parent ∈ row.entity.implies,
        ∃ target ∈ store.tags.live, target.entity.id = parent := by
  rw [danglingReference_eq_none_iff]
  have hlive : ∀ parent, parent ∈ tagImplies ↔
      ∃ target ∈ store.tags.live, target.entity.id = parent := by
    intro parent
    rw [Std.TreeMap.mem_iff_isSome_getElem?, htags, Option.isSome_map, Option.isSome_iff_exists]
    simp [EntityTables.current_eq_some_iff]
  simp only [hlive, htags, Option.map_eq_some_iff]
  constructor
  · intro h row hrow
    exact h _ _ ⟨_, EntityTables.current_of_mem hrow, rfl⟩
  · rintro h id _ ⟨tag, htag, rfl⟩
    obtain ⟨row, hrow, rfl, -⟩ := EntityTables.current_eq_some_iff.mp htag
    exact h row hrow

theorem card_closed_iff
    (hgraph : ∀ id, graph.impliesOf id = ((store.tags.current id).map Tag.implies).getD [])
    (hcards : ∀ id, cardTags[id]? = (store.cards.current id).map Card.tags) :
    closureViolation graph cardTags = none ↔
      ∀ row ∈ store.cards.live, ∀ tag ∈ row.entity.tags, ∀ parent,
        Relation.ReflTransGen (ImpliesEdge store) tag parent → parent ∈ row.entity.tags := by
  rw [closureViolation_eq_none_iff]
  have hedge : Search.Edge graph.impliesOf = ImpliesEdge store := by
    funext tag parent
    exact propext (edge_iff_impliesEdge hgraph)
  simp only [hcards, Option.map_eq_some_iff]
  constructor
  · intro h row hrow tag htag parent hpath
    rw [← hedge] at hpath
    exact (h _ _ ⟨_, EntityTables.current_of_mem hrow, rfl⟩).mem_of_reflTransGen htag hpath
  · rintro h id _ ⟨card, hcard, rfl⟩
    obtain ⟨row, hrow, rfl, -⟩ := EntityTables.current_eq_some_iff.mp hcard
    intro tag htag parent hparent
    apply h row hrow tag htag parent
    rw [← hedge]
    exact .single hparent

end Content

/-- Run on a store that the items were just written to, the validator accepts exactly when the
invariant holds there. -/
theorem validateBatchImplications_eq_ok_iff {before after : Store} {items : List PushItem}
    (htags : after.tags.current =
      Overlay.applyAll before.tags.current (items.flatMap PushItem.tagWrites))
    (hcards : after.cards.current =
      Overlay.applyAll before.cards.current (items.flatMap PushItem.cardWrites)) :
    validateBatchImplications after items = .ok () ↔ ImplicationInvariant after := by
  obtain ⟨snapshot, hsnapshot⟩ : ∃ snapshot, snapshot =
      items.foldl ImplicationSnapshot.overlay (implicationSnapshot after) := ⟨_, rfl⟩
  have hviewTags : ∀ id, snapshot.tagImplies[id]? = (after.tags.current id).map Tag.implies := by
    rw [hsnapshot]
    exact congrFun (view_overlaid (fun snapshot id => snapshot.tagImplies[id]?) overlay_tagImplies
      (funext (implicationSnapshot_tagImplies after)) htags)
  have hviewCards : ∀ id, snapshot.cardTags[id]? = (after.cards.current id).map Card.tags := by
    rw [hsnapshot]
    exact congrFun (view_overlaid (fun snapshot id => snapshot.cardTags[id]?) overlay_cardTags
      (funext (implicationSnapshot_cardTags after)) hcards)
  have hgraph : ∀ id, (TagGraph.fromPairs snapshot.tagImplies.toList).impliesOf id =
      ((after.tags.current id).map Tag.implies).getD [] := by
    intro id
    rw [impliesOf_fromPairs_toList, hviewTags]
  have hacyclic : (TagGraph.fromPairs snapshot.tagImplies.toList).detectCycle = none ↔
      ∀ tag, ¬ Relation.TransGen (ImpliesEdge after) tag tag := by
    rw [TagGraph.detectCycle_eq_none_iff, Search.Acyclic]
    have hedge : Search.Edge (TagGraph.fromPairs snapshot.tagImplies.toList).impliesOf =
        ImpliesEdge after := by
      funext tag parent
      exact propext (edge_iff_impliesEdge hgraph)
    rw [hedge]
  have hparent := parent_live_iff hviewTags
  have hclosed := card_closed_iff hgraph hviewCards
  unfold validateBatchImplications
  rw [← hsnapshot]
  dsimp only
  constructor
  · intro hok
    split at hok
    · simp at hok
    · rename_i hdangling
      split at hok
      · simp at hok
      · rename_i hcycle
        split at hok
        · simp at hok
        · rename_i hviolation
          exact ⟨hparent.mp hdangling, hacyclic.mp hcycle, hclosed.mp hviolation⟩
  · intro hinv
    rw [hparent.mpr hinv.parent_live, hacyclic.mpr hinv.acyclic, hclosed.mpr hinv.card_closed]

end BlazeList
