import BlazeList.Lib.Words
import BlazeList.Client.ChangeSet
import BlazeList.Server.Replacements

/-!
# Editing and deleting tags

The tag editor sends an edit or a deletion as one batch: new versions of the cards that have to change
with the tag, and the tag itself as the last item. It works out which cards those are from what the
client shows, while the server judges the batch by what it has stored.
-/

namespace BlazeList

/-! ### What the editor sends -/

def isBlank (title : String) : Bool := title.toList.all Words.isWhitespace

def pushMissing (tags missing : List Uuid) : List Uuid :=
  missing.foldl (fun newTags tag => if tag ∈ newTags then newTags else newTags ++ [tag]) tags

section

variable [Blake3]

def Card.retag (card : Card) (tags : List Uuid) (modifiedAt : DateTime) : Option Card :=
  card.next card.content card.priority tags card.blazed modifiedAt card.dueDate

def updatedCards (clock : Uuid → DateTime) (currentCards : List Card)
    (affected : List (Uuid × List Uuid)) : Option (List Card) :=
  (affected.filterMap fun (cardId, missing) =>
    (currentCards.find? fun card => card.id = cardId).map fun card => (card, missing)).mapM
      fun (card, missing) => card.retag (pushMissing card.tags missing) (clock card.id)

def commitTagUpdate (clock : Uuid → DateTime) (cards : List Card) (tags : List Tag) (tagId : Uuid)
    (title : String) (color : Option Rgb8) (implies : List Uuid)
    (affected : List (Uuid × List Uuid)) : Option (List PushItem) := do
  let tag ← tags.find? fun tag => tag.id = tagId
  let newTag ← tag.nextWithImplies title color implies (clock tagId)
  let updated ← updatedCards clock cards affected
  return singles updated ++ [.tags [newTag]]

def nextGraph (tags : List Tag) (tagId : Uuid) (implies : List Uuid) : TagGraph :=
  (TagGraph.fromTags tags).upsert tagId (normalizeImplies implies)

/-- The batch of an edit. Nothing is sent without a title, or when the graph would get a cycle. -/
def saveChanges (clock : Uuid → DateTime) (cards : List Card) (tags : List Tag) (tagId : Uuid)
    (title : String) (color : Option Rgb8) (implies : List Uuid) : Option (List PushItem) :=
  if isBlank title then none
  else if (nextGraph tags tagId implies).detectCycle.isSome then none
  else
    commitTagUpdate clock cards tags tagId title color (normalizeImplies implies)
      ((nextGraph tags tagId implies).affectedCardsForChange cards)

/-- The batch of a deletion: the cards that hold the tag go on without it. -/
def doDelete (clock : Uuid → DateTime) (cards : List Card) (tagId : Uuid) :
    Option (List PushItem) := do
  let affected ← (cards.filter fun card => tagId ∈ card.tags).mapM fun card =>
    card.retag (card.tags.filter (· ≠ tagId)) (clock card.id)
  return singles affected ++ [.deleteTag tagId]

end

/-! ### Views of the tables -/

section Views

variable {E : Type} [Stored E] {tables : EntityTables E} {entities : List E}

theorem mem_view_iff (hview : entities.Perm tables.entities) {entity : E} :
    entity ∈ entities ↔ tables.current (Entity.id entity) = some entity := by
  rw [hview.mem_iff, EntityTables.mem_entities, EntityTables.current_eq_some_iff]
  constructor
  · rintro ⟨row, hrow, rfl⟩
    exact ⟨row, hrow, rfl, rfl⟩
  · rintro ⟨row, hrow, heq, -⟩
    exact ⟨row, hrow, heq⟩

theorem nodup_view (hview : entities.Perm tables.entities) : (entities.map Entity.id).Nodup :=
  (hview.map Entity.id).nodup_iff.mpr EntityTables.nodup_map_id

/-- Looking an id up in the view is looking it up in the tables. -/
theorem find?_view (hview : entities.Perm tables.entities) (id : Uuid) :
    (entities.find? fun entity => Entity.id entity = id) = tables.current id := by
  cases hfind : entities.find? fun entity => Entity.id entity = id with
  | some entity =>
      have hholds := List.find?_some hfind
      have hid : Entity.id entity = id := of_decide_eq_true hholds
      rw [← hid]
      exact ((mem_view_iff hview).mp (List.mem_of_find?_eq_some hfind)).symm
  | none =>
      cases hcurrent : tables.current id with
      | none => rfl
      | some entity =>
          obtain ⟨row, hrow, rfl, hid⟩ := EntityTables.current_eq_some_iff.mp hcurrent
          have hmem : row.entity ∈ entities :=
            hview.mem_iff.mpr (EntityTables.mem_entities.mpr ⟨row, hrow, rfl⟩)
          exact absurd (decide_eq_true hid) (List.find?_eq_none.mp hfind _ hmem)

end Views

/-- The client's graph of the live tags is the server's. -/
theorem impliesOf_fromTags_view {store : Store} {tags : List Tag}
    (htags : tags.Perm store.tags.entities) (id : Uuid) :
    (TagGraph.fromTags tags).impliesOf id =
      ((store.tags.current id).map Tag.implies).getD [] := by
  have hreverse := find?_view (tags.reverse_perm.trans htags) id
  rw [TagGraph.impliesOf_fromTags, ← hreverse]
  rfl

theorem mem_pushMissing {tags missing : List Uuid} {tag : Uuid} :
    tag ∈ pushMissing tags missing ↔ tag ∈ tags ∨ tag ∈ missing := by
  unfold pushMissing
  induction missing generalizing tags with
  | nil => simp
  | cons first rest ih =>
      rw [List.foldl_cons, ih]
      split
      next hmem =>
        rw [List.mem_cons]
        constructor
        · rintro (htag | htag)
          · exact .inl htag
          · exact .inr (.inr htag)
        · rintro (htag | rfl | htag)
          · exact .inl htag
          · exact .inl hmem
          · exact .inr htag
      next => rw [List.mem_append, List.mem_singleton, List.mem_cons, or_assoc]

/-- Tags that are all missing are appended. -/
theorem pushMissing_eq {tags missing : List Uuid} (hnodup : missing.Nodup)
    (hmissing : ∀ tag ∈ missing, tag ∉ tags) : pushMissing tags missing = tags ++ missing := by
  unfold pushMissing
  induction missing generalizing tags with
  | nil => simp
  | cons first rest ih =>
      obtain ⟨hfresh, hrest⟩ := List.nodup_cons.mp hnodup
      rw [List.foldl_cons, if_neg (hmissing first List.mem_cons_self), ih hrest, List.append_assoc,
        List.singleton_append]
      intro tag htag hmem
      rcases List.mem_append.mp hmem with hold | hnew
      · exact hmissing tag (List.mem_cons_of_mem first htag) hold
      · exact hfresh (List.mem_singleton.mp hnew ▸ htag)

/-! ### Cards with other tags -/

section Retag

variable [Blake3] {store written : Store} {cards updated : List Card} {clock : Uuid → DateTime}
  {affected : Card → Prop} [DecidablePred affected] {tagsOf : Card → List Uuid}

def retagAll (clock : Uuid → DateTime) (affected : Card → Prop) [DecidablePred affected]
    (tagsOf : Card → List Uuid) (cards : List Card) : Option (List Card) :=
  (cards.filter fun card => affected card).mapM fun card => card.retag (tagsOf card) (clock card.id)

omit [Blake3] in
theorem Card.retag_id [Blake3] {card next : Card} {tags : List Uuid} {modifiedAt : DateTime}
    (h : card.retag tags modifiedAt = some next) : next.id = card.id :=
  (Card.next_eq_some_iff.mp h).2.1

omit [Blake3] in
theorem Card.retag_tags [Blake3] {card next : Card} {tags : List Uuid} {modifiedAt : DateTime}
    (h : card.retag tags modifiedAt = some next) : next.tags.Perm tags := by
  obtain ⟨-, -, -, -, htags, -⟩ := Card.next_eq_some_iff.mp h
  rw [htags]
  exact List.perm_insertionSort _ _

theorem mem_retagAll (h : retagAll clock affected tagsOf cards = some updated) {next : Card} :
    next ∈ updated ↔
      ∃ card ∈ cards, affected card ∧ card.retag (tagsOf card) (clock card.id) = some next := by
  constructor
  · intro hnext
    obtain ⟨card, hcard, hretag⟩ := Option.exists_of_mem_mapM h hnext
    obtain ⟨hmem, haffected⟩ := List.mem_filter.mp hcard
    exact ⟨card, hmem, of_decide_eq_true haffected, hretag⟩
  · rintro ⟨card, hcard, haffected, hretag⟩
    obtain ⟨other, hother, hotherRetag⟩ := Option.exists_mem_of_mapM h
      (List.mem_filter.mpr ⟨hcard, decide_eq_true haffected⟩)
    rwa [← Option.some.inj (hotherRetag.symm.trans hretag)]

theorem exists_retagAll_iff :
    (∃ updated, retagAll clock affected tagsOf cards = some updated) ↔
      ∀ card ∈ cards, affected card → card.count.val < 9223372036854775807 := by
  simp only [retagAll, Option.exists_mapM_iff, List.mem_filter, decide_eq_true_eq,
    Card.retag, Card.exists_next_iff, and_imp]

theorem map_id_retagAll (h : retagAll clock affected tagsOf cards = some updated) :
    updated.map Card.id = (cards.filter fun card => affected card).map Card.id := by
  have hall := Option.forall₂_of_mapM h
  clear h
  generalize (cards.filter fun card => affected card) = kept at hall ⊢
  induction hall with
  | nil => rfl
  | cons hretag _ ih => rw [List.map_cons, List.map_cons, ih, Card.retag_id hretag]

variable (hcards : cards.Perm store.cards.entities)
  (h : retagAll clock affected tagsOf cards = some updated)
include hcards h

theorem nodup_retagAll : (updated.map Card.id).Nodup := by
  rw [map_id_retagAll h]
  exact (nodup_view hcards).sublist (List.filter_sublist.map _)

theorem Editable.replaces_retagAll (heditable : Editable store) :
    ∀ next ∈ updated, Replaces store.cards next := by
  intro next hnext
  obtain ⟨card, hcard, -, hretag⟩ := (mem_retagAll h).mp hnext
  exact heditable.replaces_card ((mem_view_iff hcards).mp hcard) hretag

/-- The new versions are written unless one of the cards is buried. -/
theorem Editable.exists_writes_retagAll (heditable : Editable store) :
    (∃ written, Writes store (singles updated) written) ↔
      ∀ card ∈ cards, affected card → store.isDeleted card.id = false := by
  rw [exists_writes_iff_notDeleted (heditable.replaces_retagAll hcards h) (nodup_retagAll hcards h)]
  have hids : ∀ id, id ∈ updated.map Card.id ↔ ∃ card ∈ cards, affected card ∧ card.id = id := by
    intro id
    rw [map_id_retagAll h]
    simp [and_assoc]
  constructor
  · intro halive card hcard haffected
    obtain ⟨next, hnext, hid⟩ := List.mem_map.mp ((hids card.id).mpr ⟨card, hcard, haffected, rfl⟩)
    rw [← hid]
    exact halive next hnext
  · intro halive next hnext
    obtain ⟨card, hcard, haffected, hid⟩ := (hids next.id).mp (List.mem_map_of_mem hnext)
    rw [← hid]
    exact halive card hcard haffected

/-- Once they are, each affected card has its new tags and each other one is as it was. -/
theorem current_retagAll (hwrites : Writes store (singles updated) written) (id : Uuid) :
    written.cards.current id = (store.cards.current id).bind fun card =>
      if affected card then card.retag (tagsOf card) (clock card.id) else some card := by
  rw [hwrites.current_singles]
  by_cases hid : id ∈ updated.map Card.id
  · obtain ⟨write, hwrite, hkey, hvalue⟩ := Overlay.exists_write store.cards.current
      (map_fst_versionWrite updated ▸ hid)
    obtain ⟨next, hnext, rfl⟩ := List.mem_map.mp hwrite
    obtain ⟨card, hcard, haffected, hretag⟩ := (mem_retagAll h).mp hnext
    have hcardId : card.id = id := (Card.retag_id hretag).symm.trans hkey
    have hcurrent : store.cards.current id = some card := hcardId ▸ (mem_view_iff hcards).mp hcard
    rw [hvalue, hcurrent, Option.bind_some, if_pos haffected, hretag]
    rfl
  · rw [Overlay.applyAll_of_untouched (map_fst_versionWrite updated ▸ hid)]
    cases hcurrent : store.cards.current id with
    | none => rfl
    | some card =>
        rw [Option.bind_some, if_neg]
        intro haffected
        obtain ⟨row, hrow, rfl, hrowId⟩ := EntityTables.current_eq_some_iff.mp hcurrent
        have hcard : row.entity ∈ cards :=
          hcards.mem_iff.mpr (EntityTables.mem_entities.mpr ⟨row, hrow, rfl⟩)
        apply hid
        rw [map_id_retagAll h]
        exact List.mem_map.mpr
          ⟨row.entity, List.mem_filter.mpr ⟨hcard, decide_eq_true haffected⟩, hrowId⟩

theorem row_retagAll (hwrites : Writes store (singles updated) written) {row : EntityRow Card}
    (hrow : row ∈ written.cards.live) :
    ∃ card, store.cards.current row.entity.id = some card ∧
      if affected card then card.retag (tagsOf card) (clock card.id) = some row.entity
      else card = row.entity := by
  have hcurrent := EntityTables.current_of_mem hrow
  rw [current_retagAll hcards h hwrites] at hcurrent
  obtain ⟨card, hcard, hbecomes⟩ := Option.bind_eq_some_iff.mp hcurrent
  refine ⟨card, hcard, ?_⟩
  split
  next haffected => rwa [if_pos haffected] at hbecomes
  next haffected =>
    rw [if_neg haffected] at hbecomes
    exact Option.some.inj hbecomes

end Retag

/-! ### Deleting a tag -/

def Unreferenced (store : Store) (tagId : Uuid) : Prop :=
  ∀ row ∈ store.tags.live, row.entity.id ≠ tagId → tagId ∉ row.entity.implies

/-- The tag is gone and buried, no card holds it, and the cards are closed. -/
structure TagDeleted (after : Store) (tagId : Uuid) : Prop where
  gone : after.tags.current tagId = none
  buried : after.isDeleted tagId = true
  dropped : ∀ row ∈ after.cards.live, tagId ∉ row.entity.tags
  implications : ImplicationInvariant after

/-- Nothing that the deletion touches is buried, and the root takes another sequence. -/
structure Deletable (store : Store) (cards : List Card) (tagId : Uuid) : Prop where
  room : store.rootState.sequence.val ≠ 9223372036854775807
  tag : store.isDeleted tagId = false
  cards : ∀ card ∈ cards, tagId ∈ card.tags → store.isDeleted card.id = false

section Delete

variable [Blake3] {store : Store} {cards : List Card} {clock : Uuid → DateTime} {tagId : Uuid}

omit [Blake3] in
/-- Without the tag, cards stay closed when no other tag implies it. -/
theorem ImplicationInvariant.without {between : Store} (hinv : ImplicationInvariant store)
    (htags : between.tags = store.tags) (hunreferenced : Unreferenced store tagId)
    (hcards : ∀ row ∈ between.cards.live, ∃ old ∈ store.cards.live,
      ∀ tag, tag ∈ row.entity.tags ↔ tag ∈ old.entity.tags ∧ tag ≠ tagId)
    (deletedEntities : Table deletedConflict) :
    ImplicationInvariant { between with tags := between.tags.remove tagId, deletedEntities } := by
  obtain ⟨after, hafter⟩ : ∃ after, after =
      { between with tags := between.tags.remove tagId, deletedEntities } := ⟨_, rfl⟩
  have hlive : ∀ row, row ∈ after.tags.live ↔ row ∈ store.tags.live ∧ row.entity.id ≠ tagId := by
    rw [hafter, htags]
    exact fun row => EntityTables.mem_live_remove
  have hedge : ∀ tag parent, ImpliesEdge after tag parent →
      ImpliesEdge store tag parent ∧ parent ≠ tagId := by
    rintro tag parent ⟨row, hrow, hid, hparent⟩
    obtain ⟨hrow, hne⟩ := (hlive row).mp hrow
    refine ⟨⟨row, hrow, hid, hparent⟩, ?_⟩
    rintro rfl
    exact hunreferenced row hrow hne hparent
  rw [← hafter]
  refine ⟨fun row hrow parent hparent => ?_, fun tag hcycle => ?_, fun row hrow tag htag parent hpath => ?_⟩
  · obtain ⟨hrow, hne⟩ := (hlive row).mp hrow
    obtain ⟨target, htarget, rfl⟩ := hinv.parent_live row hrow parent hparent
    refine ⟨target, (hlive target).mpr ⟨htarget, fun hsame => ?_⟩, rfl⟩
    exact hunreferenced row hrow hne (hsame ▸ hparent)
  · exact hinv.acyclic tag (Relation.TransGen.mono (fun a b h => (hedge a b h).1) _ _ hcycle)
  · rw [hafter] at hrow
    obtain ⟨old, hold, htagsIff⟩ := hcards row hrow
    rw [htagsIff] at htag ⊢
    have hstorePath := Relation.ReflTransGen.mono (fun a b h => (hedge a b h).1) _ _ hpath
    refine ⟨hinv.card_closed old hold tag htag.1 parent hstorePath, ?_⟩
    rcases Relation.ReflTransGen.cases_tail hpath with rfl | ⟨before, -, hlast⟩
    · exact htag.2
    · exact (hedge before parent hlast).2

theorem pushItem_deleteTag_iff {after : Store} :
    pushItem store (.deleteTag tagId) = .ok after ↔
      store.isDeleted tagId = false ∧ (∃ row ∈ store.tags.live, row.entity.id = tagId) ∧
        (∀ row ∈ store.cards.live, tagId ∉ row.entity.tags) ∧ Unreferenced store tagId ∧
        after = { store with
          tags := store.tags.remove tagId
          deletedEntities := buryRow store.deletedEntities (DeletedEntity.new tagId) } := by
  refine Except.mapError_eq_ok_iff.trans (Except.map_eq_ok_iff.trans ?_)
  simp only [Prod.exists, deleteTagInner_eq_ok_iff]
  constructor
  · rintro ⟨deleted, written, ⟨hdeleted, hlive, hcards, htags, -, rfl⟩, rfl⟩
    exact ⟨hdeleted, hlive, hcards, htags, rfl⟩
  · rintro ⟨hdeleted, hlive, hcards, htags, rfl⟩
    exact ⟨_, _, ⟨hdeleted, hlive, hcards, htags, rfl, rfl⟩, rfl⟩

theorem doDelete_eq_some_iff {items : List PushItem} :
    doDelete clock cards tagId = some items ↔ ∃ updated,
      retagAll clock (fun card => tagId ∈ card.tags) (fun card => card.tags.filter (· ≠ tagId)) cards =
        some updated ∧ singles updated ++ [.deleteTag tagId] = items := by
  simp only [doDelete, retagAll, Option.bind_eq_bind, Option.bind_eq_some_iff, pure,
    Option.some.injEq]

/-- The batch can be built. -/
theorem exists_doDelete_iff : (∃ items, doDelete clock cards tagId = some items) ↔
    ∀ card ∈ cards, tagId ∈ card.tags → card.count.val < 9223372036854775807 := by
  simp only [doDelete_eq_some_iff]
  rw [exists_comm]
  simp only [exists_and_left, exists_eq', and_true, exists_retagAll_iff]

variable {updated : List Card} {between : Store}

/-- The cards as they are when the tag is deleted. -/
theorem row_without (hcards : cards.Perm store.cards.entities)
    (hupdated : retagAll clock (fun card => tagId ∈ card.tags)
      (fun card => card.tags.filter (· ≠ tagId)) cards = some updated)
    (hwrites : Writes store (singles updated) between) :
    ∀ row ∈ between.cards.live, ∃ old ∈ store.cards.live,
      ∀ tag, tag ∈ row.entity.tags ↔ tag ∈ old.entity.tags ∧ tag ≠ tagId := by
  intro row hrow
  obtain ⟨card, hcard, hbecomes⟩ := row_retagAll hcards hupdated hwrites hrow
  obtain ⟨old, hold, rfl, -⟩ := EntityTables.current_eq_some_iff.mp hcard
  refine ⟨old, hold, fun tag => ?_⟩
  split at hbecomes
  next =>
    rw [(Card.retag_tags hbecomes).mem_iff, List.mem_filter, decide_eq_true_eq]
  next hfree =>
    rw [← hbecomes]
    refine ⟨fun htag => ⟨htag, ?_⟩, And.left⟩
    rintro rfl
    exact hfree htag

theorem Editable.exists_written_delete_iff (heditable : Editable store)
    (hcards : cards.Perm store.cards.entities)
    (hlive : ∃ row ∈ store.tags.live, row.entity.id = tagId)
    (hupdated : retagAll clock (fun card => tagId ∈ card.tags)
      (fun card => card.tags.filter (· ≠ tagId)) cards = some updated) :
    (∃ written, Writes store (singles updated ++ [.deleteTag tagId]) written ∧
        ImplicationInvariant written) ↔
      Unreferenced store tagId ∧ store.isDeleted tagId = false ∧
        ∀ card ∈ cards, tagId ∈ card.tags → store.isDeleted card.id = false := by
  rw [← heditable.exists_writes_retagAll hcards hupdated]
  simp only [writes_append, writes_singleton]
  constructor
  · rintro ⟨written, ⟨between, hwrites, hdelete⟩, -⟩
    obtain ⟨hdeleted, -, -, hunreferenced, -⟩ := pushItem_deleteTag_iff.mp hdelete
    unfold Unreferenced at hunreferenced
    rw [hwrites.tags_singles] at hunreferenced
    rw [hwrites.isDeleted_singles] at hdeleted
    exact ⟨hunreferenced, hdeleted, between, hwrites⟩
  · rintro ⟨hunreferenced, hdeleted, between, hwrites⟩
    have hrows := row_without hcards hupdated hwrites
    refine ⟨_, ⟨between, hwrites, pushItem_deleteTag_iff.mpr ⟨?_, ?_, ?_, ?_, rfl⟩⟩,
      heditable.implications.without hwrites.tags_singles hunreferenced hrows _⟩
    · rwa [hwrites.isDeleted_singles]
    · rwa [hwrites.tags_singles]
    · intro row hrow hheld
      obtain ⟨old, -, htags⟩ := hrows row hrow
      exact ((htags tagId).mp hheld).2 rfl
    · unfold Unreferenced
      rwa [hwrites.tags_singles]

/-- What a deletion that is accepted leaves. -/
theorem tagDeleted_of_committed {items : List PushItem} {written after : Store} {now : Int}
    (hinv : ImplicationInvariant written) (hcommitted : Committed store items now written after)
    (hdelete : pushItem between (.deleteTag tagId) = .ok written) : TagDeleted after tagId := by
  obtain ⟨-, -, hheld, -, rfl⟩ := pushItem_deleteTag_iff.mp hdelete
  refine ⟨?_, ?_, ?_, hcommitted.implicationInvariant hinv⟩
  · rw [hcommitted.tags_eq, EntityTables.current_stampAll, EntityTables.current_remove,
      Function.update_self]
  · obtain ⟨row, hrow, hid⟩ : ∃ row ∈ after.deletedEntities, row.entity.id = tagId := by
      rw [hcommitted.deleted_eq]
      refine ⟨_, mem_stampDeletedAll.mpr ⟨_, mem_buryRow.mpr (.inr rfl), rfl⟩, ?_⟩
      split <;> rfl
    exact Store.isDeleted_iff.mpr ⟨row, hrow, hid⟩
  · intro row hrow
    rw [hcommitted.cards_eq] at hrow
    obtain ⟨old, hold, rfl⟩ := EntityTables.mem_live_stampAll.mp hrow
    split <;> exact hheld old hold

theorem Editable.doDelete_iff (heditable : Editable store) (hcards : cards.Perm store.cards.entities)
    (hlive : ∃ row ∈ store.tags.live, row.entity.id = tagId) {items : List PushItem}
    (hitems : doDelete clock cards tagId = some items) (now : Int) :
    ((∃ after, perform store ⟨.pushBatch items, now⟩ = some after) ↔
        Unreferenced store tagId ∧ Deletable store cards tagId) ∧
      ∀ after, perform store ⟨.pushBatch items, now⟩ = some after → TagDeleted after tagId := by
  obtain ⟨updated, hupdated, rfl⟩ := doDelete_eq_some_iff.mp hitems
  have hne : singles updated ++ [.deleteTag tagId] ≠ [] := by simp
  constructor
  · rw [exists_perform_batch_iff hne, heditable.rootHistory.exhausted_iff,
      heditable.exists_written_delete_iff hcards hlive hupdated]
    constructor
    · rintro ⟨hroom, hunreferenced, htag, halive⟩
      exact ⟨hunreferenced, hroom, htag, halive⟩
    · rintro ⟨hunreferenced, hroom, htag, halive⟩
      exact ⟨hroom, hunreferenced, htag, halive⟩
  · intro after hafter
    obtain ⟨written, hinv, hcommitted⟩ := (perform_batch_eq_some_iff hne).mp hafter
    obtain ⟨between, -, hdelete⟩ := writes_append.mp hcommitted.writes
    exact tagDeleted_of_committed hinv hcommitted (writes_singleton.mp hdelete)

/-- In a store of built chains whose counts run on, and for a client that shows its cards, the batch of a
deletion is accepted exactly when no other live tag implies the tag, and does what it should, if and only
if nothing that it touches is buried when no other tag implies it. -/
theorem doDelete_run {calls : List Call} (hbuilt : ∀ call ∈ calls, call.Built)
    (hcounted : Run.Meets execute CountedCall initSchema calls)
    (hcards : cards.Perm (Run.after execute initSchema calls).cards.entities)
    (hlive : ∃ row ∈ (Run.after execute initSchema calls).tags.live, row.entity.id = tagId)
    {items : List PushItem} (hitems : doDelete clock cards tagId = some items) (now : Int) :
    let store := Run.after execute initSchema calls
    (((∃ after, perform store ⟨.pushBatch items, now⟩ = some after) ↔ Unreferenced store tagId) ∧
        ∀ after, perform store ⟨.pushBatch items, now⟩ = some after → TagDeleted after tagId) ↔
      (Unreferenced store tagId → Deletable store cards tagId) := by
  intro store
  have heditable : Editable store :=
    editable_run (fun call hcall item hitem => (hbuilt call hcall item hitem).singleId) hcounted
  obtain ⟨haccepted, hdoes⟩ := heditable.doDelete_iff hcards hlive hitems now
  rw [haccepted]
  constructor
  · rintro ⟨hiff, -⟩ hunreferenced
    exact (hiff.mpr hunreferenced).2
  · intro hdeletable
    exact ⟨⟨And.left, fun hunreferenced => ⟨hunreferenced, hdeletable hunreferenced⟩⟩, hdoes⟩

end Delete

/-! ### Samples -/

def heldCard (id : Uuid) (tags : List Uuid) : Card :=
  @Card.first polynomialBlake3 id "" ⟨0, zero_mem_i64⟩ tags false .epoch none

def taggedCalls : List Call :=
  [⟨.pushBatch [.tags [sampleTag 2 []], .tags [sampleTag 3 []], .cards [heldCard 1 [2]]], 0⟩]

def sharedCalls : List Call :=
  taggedCalls ++ [⟨.pushTagVersions [sampleTag 1 []], 1⟩, ⟨.deleteTag 1, 2⟩]

def taggedStore (calls : List Call) : Store :=
  @Run.after Store Call (@execute polynomialBlake3) initSchema calls

theorem taggedCalls_built : ∀ call ∈ taggedCalls, @Call.Built polynomialBlake3 call := by
  let _ := polynomialBlake3
  intro call hcall item hitem
  rw [List.mem_singleton.mp hcall] at hitem
  simp only [Mutation.items, List.mem_cons, List.not_mem_nil, or_false] at hitem
  rcases hitem with rfl | rfl | rfl
  · exact sampleTag_built 2 []
  · exact sampleTag_built 3 []
  · exact ⟨by rintro _ ⟨⟩; exact .inl ⟨1, "", _, [2], false, .epoch, none, rfl⟩, .singleton _⟩

theorem sharedCalls_built : ∀ call ∈ sharedCalls, @Call.Built polynomialBlake3 call := by
  intro call hcall
  rcases List.mem_append.mp hcall with hfirst | hlater
  · exact taggedCalls_built call hfirst
  · intro item hitem
    simp only [List.mem_cons, List.not_mem_nil, or_false] at hlater
    rcases hlater with rfl | rfl
    · rw [List.mem_singleton.mp hitem]
      exact sampleTag_built 1 []
    · rw [List.mem_singleton.mp hitem]
      trivial

theorem taggedCalls_counted : Run.Meets (@execute polynomialBlake3) (@CountedCall polynomialBlake3)
    initSchema taggedCalls := by
  decide +kernel

theorem sharedCalls_counted : Run.Meets (@execute polynomialBlake3) (@CountedCall polynomialBlake3)
    initSchema sharedCalls := by
  decide +kernel

theorem unreferenced_of_entities {store : Store}
    (hentities : store.tags.entities = [sampleTag 2 [], sampleTag 3 []]) : Unreferenced store 2 := by
  intro row hrow _ hparent
  have hmem : row.entity ∈ store.tags.entities :=
    EntityTables.mem_entities.mpr ⟨row, hrow, rfl⟩
  simp only [hentities, List.mem_cons, List.not_mem_nil, or_false] at hmem
  rcases hmem with heq | heq <;> rw [heq] at hparent <;> cases hparent

/-- The tag is deleted from the card and then itself. -/
theorem doDelete_run_tagged :
    let _ := polynomialBlake3
    ∃ items, doDelete (fun _ => .epoch) [heldCard 1 [2]] 2 = some items ∧
      ((((∃ after, perform (taggedStore taggedCalls) ⟨.pushBatch items, 1⟩ = some after) ↔
          Unreferenced (taggedStore taggedCalls) 2) ∧
        ∀ after, perform (taggedStore taggedCalls) ⟨.pushBatch items, 1⟩ = some after →
          TagDeleted after 2)) := by
  intro _
  obtain ⟨items, hitems⟩ : ∃ items, doDelete (fun _ => .epoch) [heldCard 1 [2]] 2 = some items :=
    Option.isSome_iff_exists.mp (by decide +kernel)
  have hcards : (taggedStore taggedCalls).cards.entities = [heldCard 1 [2]] := by decide +kernel
  have htags : (taggedStore taggedCalls).tags.entities = [sampleTag 2 [], sampleTag 3 []] := by
    decide +kernel
  have hlive : ∃ row ∈ (taggedStore taggedCalls).tags.live, row.entity.id = 2 := by
    have hmem : sampleTag 2 [] ∈ (taggedStore taggedCalls).tags.entities := by simp [htags]
    obtain ⟨row, hrow, heq⟩ := EntityTables.mem_entities.mp hmem
    exact ⟨row, hrow, by rw [heq]; rfl⟩
  have hdeletable : Deletable (taggedStore taggedCalls) [heldCard 1 [2]] 2 := by
    refine ⟨by decide +kernel, by decide +kernel, fun card hcard _ => ?_⟩
    rw [List.mem_singleton.mp hcard]
    decide +kernel
  exact ⟨items, hitems, (@doDelete_run polynomialBlake3 _ _ _ _ taggedCalls_built taggedCalls_counted
    (List.Perm.of_eq hcards.symm) hlive _ hitems 1).mpr fun _ => hdeletable⟩

/-- No other tag implies the tag, and its deletion is refused all the same: the card's id is that of a
deleted tag. -/
theorem not_doDelete_sharedId :
    let _ := polynomialBlake3
    let store := taggedStore sharedCalls
    (∀ call ∈ sharedCalls, call.Built) ∧ Run.Meets execute CountedCall initSchema sharedCalls ∧
      store.cards.entities = [heldCard 1 [2]] ∧
      store.tags.entities = [sampleTag 2 [], sampleTag 3 []] ∧ Unreferenced store 2 ∧
      (doDelete (fun _ => .epoch) [heldCard 1 [2]] 2).map
          (fun items => (pushBatch store items 3).map fun _ => ()) =
        some (.error ⟨0, .domain .alreadyDeleted⟩) := by
  intro _ store
  have htags : store.tags.entities = [sampleTag 2 [], sampleTag 3 []] := by decide +kernel
  refine ⟨sharedCalls_built, sharedCalls_counted, by decide +kernel, htags, ?_, by decide +kernel⟩
  exact unreferenced_of_entities htags

/-! ### Editing a tag -/

/-- A tag that the card comes to need when the tags of `store` imply each other as they do. -/
def NewlyImplied (store : Store) (card : Card) (tag : Uuid) : Prop :=
  tag ∉ card.tags ∧ ∃ held ∈ card.tags, Relation.ReflTransGen (ImpliesEdge store) held tag

structure Card.SameBesidesTags (card other : Card) : Prop where
  content : other.content = card.content
  priority : other.priority = card.priority
  blazed : other.blazed = card.blazed
  createdAt : other.createdAt = card.createdAt
  dueDate : other.dueDate = card.dueDate

theorem Card.sameBesidesTags_retag [Blake3] {card next : Card} {tags : List Uuid}
    {modifiedAt : DateTime} (h : card.retag tags modifiedAt = some next) :
    card.SameBesidesTags next := by
  obtain ⟨-, -, hcontent, hpriority, -, hblazed, hcreated, -, hdue, -⟩ := Card.next_eq_some_iff.mp h
  exact ⟨hcontent, hpriority, hblazed, hcreated, hdue⟩

/-- The tag has its new version, every card has got the tags that it now needs and no other, and cards
that need none are as they were. -/
structure TagEdited (store after : Store) (tagId : Uuid) (title : String) (color : Option Rgb8)
    (implies : List Uuid) : Prop where
  tag : ∃ newTag, newTag.title = title ∧ newTag.color = color ∧
    newTag.implies = normalizeImplies implies ∧
    after.tags.current = Function.update store.tags.current tagId (some newTag)
  absent : ∀ id, store.cards.current id = none → after.cards.current id = none
  kept : ∀ id card, store.cards.current id = some card → (∀ tag, ¬ NewlyImplied after card tag) →
    after.cards.current id = some card
  added : ∀ id card, store.cards.current id = some card → (∃ tag, NewlyImplied after card tag) →
    ∃ next missing, after.cards.current id = some next ∧ card.SameBesidesTags next ∧
      next.tags.Perm (card.tags ++ missing) ∧ missing.Nodup ∧
      ∀ tag, tag ∈ missing ↔ NewlyImplied after card tag

section Edit

variable [Blake3] {store between written : Store} {cards updated : List Card} {tags : List Tag}
  {clock : Uuid → DateTime} {tagId : Uuid} {title : String} {color : Option Rgb8}
  {implies : List Uuid} {graph : TagGraph}

abbrev complete (clock : Uuid → DateTime) (graph : TagGraph) (cards : List Card) :
    Option (List Card) :=
  retagAll clock (fun card => graph.missingForCard card.tags ≠ [])
    (fun card => pushMissing card.tags (graph.missingForCard card.tags)) cards

theorem updatedCards_affected (hnodup : (cards.map Card.id).Nodup) :
    updatedCards clock cards (graph.affectedCardsForChange cards) = complete clock graph cards := by
  have hfind : ∀ card ∈ cards, (cards.find? fun other => other.id = card.id) = some card := by
    intro card hcard
    cases hfound : cards.find? fun other => other.id = card.id with
    | none => exact absurd (decide_eq_true rfl) (List.find?_eq_none.mp hfound card hcard)
    | some other =>
        have hholds := List.find?_some hfound
        rw [List.inj_on_of_nodup_map hnodup (List.mem_of_find?_eq_some hfound) hcard
          (of_decide_eq_true hholds)]
  rw [updatedCards, TagGraph.affectedCardsForChange, List.filterMap_map,
    List.filterMap_congr (g := fun card => some (card, graph.missingForCard card.tags)),
    List.filterMap_eq_map', List.mapM_map]
  · rfl
  · intro card hcard
    simp only [Function.comp_apply, hfind card (List.mem_of_mem_filter hcard), Option.map_some]

theorem saveChanges_eq_some_iff (hnodup : (cards.map Card.id).Nodup) {items : List PushItem} :
    saveChanges clock cards tags tagId title color implies = some items ↔
      isBlank title = false ∧ (nextGraph tags tagId implies).detectCycle = none ∧
        ∃ tag newTag updated, (tags.find? fun tag => tag.id = tagId) = some tag ∧
          tag.nextWithImplies title color (normalizeImplies implies) (clock tagId) = some newTag ∧
          complete clock (nextGraph tags tagId implies) cards = some updated ∧
          singles updated ++ [.tags [newTag]] = items := by
  unfold saveChanges
  cases hblank : isBlank title with
  | true => simp
  | false =>
      cases hcycle : (nextGraph tags tagId implies).detectCycle with
      | some cycle => simp
      | none =>
          simp only [Bool.false_eq_true, if_false, Option.isSome_none, true_and, commitTagUpdate,
            updatedCards_affected hnodup, Option.bind_eq_bind, Option.bind_eq_some_iff, pure,
            Option.some.injEq]
          simp only [exists_and_left]

theorem Tag.exists_next_iff {tag : Tag} {modifiedAt : DateTime} :
    (∃ newTag, tag.nextWithImplies title color implies modifiedAt = some newTag) ↔
      tag.count.val < 9223372036854775807 := by
  simp only [Tag.nextWithImplies, Option.bind_eq_bind, Option.bind_eq_some_iff,
    NonNegativeI64.tryFrom_eq_some_iff, pure, Option.some.injEq]
  constructor
  · rintro ⟨-, count, hcount, -⟩
    have hle := count.le_max
    omega
  · intro hcount
    exact ⟨_, ⟨tag.count.val + 1, hcount⟩, rfl, rfl⟩

/-- The batch can be built for a title that is not blank and a graph without cycles. -/
theorem exists_saveChanges_iff (hnodup : (cards.map Card.id).Nodup) :
    (∃ items, saveChanges clock cards tags tagId title color implies = some items) ↔
      isBlank title = false ∧ Search.Acyclic (nextGraph tags tagId implies).impliesOf ∧
        (∃ tag, (tags.find? fun tag => tag.id = tagId) = some tag ∧
          tag.count.val < 9223372036854775807) ∧
        ∀ card ∈ cards, (nextGraph tags tagId implies).missingForCard card.tags ≠ [] →
          card.count.val < 9223372036854775807 := by
  rw [← exists_retagAll_iff, ← TagGraph.detectCycle_eq_none_iff]
  simp only [saveChanges_eq_some_iff hnodup]
  constructor
  · rintro ⟨items, hblank, hacyclic, tag, newTag, updated, htag, hnext, hupdated, -⟩
    exact ⟨hblank, hacyclic, ⟨tag, htag, Tag.exists_next_iff.mp ⟨newTag, hnext⟩⟩, updated, hupdated⟩
  · rintro ⟨hblank, hacyclic, ⟨tag, htag, hcount⟩, updated, hupdated⟩
    obtain ⟨newTag, hnext⟩ := Tag.exists_next_iff.mpr hcount
    exact ⟨_, hblank, hacyclic, tag, newTag, updated, htag, hnext, hupdated, rfl⟩

theorem pushSingleTag_eq_ok_iff {tag : Tag} :
    pushItem between (.tags [tag]) = .ok written ↔
      ∃ tags, Pushed between between.tags [tag] tag tag tags ∧ written = { between with tags } := by
  refine pushTagVersionsInner_eq_ok_iff.trans ⟨?_, ?_⟩
  · rintro ⟨tags, first, latest, hpushed, rfl⟩
    obtain rfl : tag = first := Option.some.inj hpushed.head
    obtain rfl : tag = latest := Option.some.inj hpushed.last
    exact ⟨tags, hpushed, rfl⟩
  · rintro ⟨tags, hpushed, rfl⟩
    exact ⟨tags, tag, tag, hpushed, rfl⟩

/-- What a completed card holds is what was reachable from what it held. -/
theorem row_complete (hcards : cards.Perm store.cards.entities)
    (hupdated : complete clock graph cards = some updated)
    (hwrites : Writes store (singles updated) between) :
    ∀ row ∈ between.cards.live, ∃ old ∈ store.cards.live, ∀ tag,
      tag ∈ row.entity.tags ↔ Search.ReachableFrom graph.impliesOf old.entity.tags tag := by
  intro row hrow
  obtain ⟨card, hcard, hbecomes⟩ := row_retagAll hcards hupdated hwrites hrow
  obtain ⟨old, hold, rfl, -⟩ := EntityTables.current_eq_some_iff.mp hcard
  refine ⟨old, hold, fun tag => ?_⟩
  have hreachable : Search.ReachableFrom graph.impliesOf old.entity.tags tag ↔
      tag ∈ old.entity.tags ∨ tag ∈ graph.missingForCard old.entity.tags := by
    rw [TagGraph.mem_missingForCard]
    constructor
    · intro h
      by_cases hheld : tag ∈ old.entity.tags
      · exact .inl hheld
      · exact .inr ⟨h, hheld⟩
    · rintro (hheld | ⟨h, -⟩)
      · exact .of_mem hheld
      · exact h
  rw [hreachable]
  split at hbecomes
  next =>
    rw [(Card.retag_tags hbecomes).mem_iff, mem_pushMissing]
  next hclosed =>
    rw [← hbecomes, not_not.mp hclosed]
    simp

omit [Blake3] in
/-- The edges after the tag's new version are those of the client's graph. -/
theorem impliesOf_nextGraph (htags : tags.Perm store.tags.entities) {newTag : Tag}
    (himplies : newTag.implies = normalizeImplies implies)
    (hcurrent : written.tags.current =
      Function.update store.tags.current tagId (some newTag)) (id : Uuid) :
    (nextGraph tags tagId implies).impliesOf id =
      ((written.tags.current id).map Tag.implies).getD [] := by
  rw [nextGraph, TagGraph.impliesOf_upsert, hcurrent]
  by_cases hid : id = tagId
  · rw [hid, Function.update_self, Function.update_self, Option.map_some, Option.getD_some, himplies]
  · rw [Function.update_of_ne hid, Function.update_of_ne hid, impliesOf_fromTags_view htags]

theorem current_pushSingleTag {newTag : Tag} (hnewId : newTag.id = tagId)
    (hwrites : Writes store (singles updated) between)
    (hpush : pushItem between (.tags [newTag]) = .ok written) :
    written.tags.current = Function.update store.tags.current tagId (some newTag) ∧
      written.cards = between.cards := by
  obtain ⟨tables, hpushed, rfl⟩ := pushSingleTag_eq_ok_iff.mp hpush
  refine ⟨?_, rfl⟩
  dsimp only
  rw [hpushed.current, Tag.entity_id, hnewId, hwrites.tags_singles]

omit [Blake3] in
theorem edge_nextGraph (htags : tags.Perm store.tags.entities) {newTag : Tag}
    (himplies : newTag.implies = normalizeImplies implies)
    (hcurrent : written.tags.current =
      Function.update store.tags.current tagId (some newTag)) :
    Search.Edge (nextGraph tags tagId implies).impliesOf = ImpliesEdge written := by
  funext tag parent
  exact propext (edge_iff_impliesEdge (impliesOf_nextGraph htags himplies hcurrent))

theorem perm_tags_complete {card next : Card} {modifiedAt : DateTime}
    (hretag : card.retag (pushMissing card.tags (graph.missingForCard card.tags)) modifiedAt =
      some next) : next.tags.Perm (card.tags ++ graph.missingForCard card.tags) := by
  have happended : pushMissing card.tags (graph.missingForCard card.tags) =
      card.tags ++ graph.missingForCard card.tags :=
    pushMissing_eq (TagGraph.nodup_missingForCard card.tags) fun tag htag =>
      (TagGraph.mem_missingForCard.mp htag).2
  rw [← happended]
  exact Card.retag_tags hretag

/-- The validator agrees with the client. -/
theorem implicationInvariant_edited (hinv : ImplicationInvariant store)
    (hcards : cards.Perm store.cards.entities) (htags : tags.Perm store.tags.entities)
    (hlive : ∀ parent ∈ implies, parent ∈ tags.map Tag.id)
    (hacyclic : (nextGraph tags tagId implies).detectCycle = none) {newTag : Tag}
    (hnewId : newTag.id = tagId) (himplies : newTag.implies = normalizeImplies implies)
    (hupdated : complete clock (nextGraph tags tagId implies) cards = some updated)
    (hwrites : Writes store (singles updated) between)
    (hpush : pushItem between (.tags [newTag]) = .ok written) : ImplicationInvariant written := by
  obtain ⟨hcurrent, hcardTables⟩ := current_pushSingleTag hnewId hwrites hpush
  have hedge := edge_nextGraph htags himplies hcurrent
  have hstays : ∀ id, (store.tags.current id).isSome → (written.tags.current id).isSome := by
    intro id hsome
    rw [hcurrent]
    by_cases hid : id = tagId
    · rw [hid, Function.update_self]
      rfl
    · rwa [Function.update_of_ne hid]
  refine ⟨fun row hrow parent hparent => ?_, ?_, fun row hrow tag htag parent hpath => ?_⟩
  · apply exists_live_iff_current.mpr
    have hrowCurrent := EntityTables.current_of_mem hrow
    rw [hcurrent] at hrowCurrent
    apply hstays
    by_cases hid : Entity.id row.entity = tagId
    · rw [hid, Function.update_self] at hrowCurrent
      rw [← Option.some.inj hrowCurrent, himplies] at hparent
      obtain ⟨tag, htag, rfl⟩ := List.mem_map.mp
        (hlive parent ((List.mem_insertionSort _).mp (List.mem_dedup.mp hparent)))
      rw [← Tag.entity_id, (mem_view_iff htags).mp htag]
      rfl
    · rw [Function.update_of_ne hid] at hrowCurrent
      obtain ⟨old, hold, hsame, -⟩ := EntityTables.current_eq_some_iff.mp hrowCurrent
      exact exists_live_iff_current.mp
        (hinv.parent_live old hold parent (hsame ▸ hparent))
  · rw [← hedge]
    exact TagGraph.detectCycle_eq_none_iff.mp hacyclic
  · rw [hcardTables] at hrow
    obtain ⟨old, -, hholds⟩ := row_complete hcards hupdated hwrites row hrow
    rw [hholds] at htag ⊢
    obtain ⟨root, hroot, hrootPath⟩ := htag
    rw [← hedge] at hpath
    exact ⟨root, hroot, hrootPath.trans hpath⟩

omit [Blake3] in
theorem Tag.id_of_current {tag : Tag} (htag : store.tags.current tagId = some tag) :
    tag.id = tagId := by
  obtain ⟨row, -, rfl, hid⟩ := EntityTables.current_eq_some_iff.mp htag
  exact hid

theorem Tag.fields_of_next {tag newTag : Tag} (htag : store.tags.current tagId = some tag)
    {now : DateTime}
    (hnext : tag.nextWithImplies title color (normalizeImplies implies) now = some newTag) :
    newTag.id = tagId ∧ newTag.title = title ∧ newTag.color = color ∧
      newTag.implies = normalizeImplies implies := by
  obtain ⟨count, -, hmk⟩ := Option.bind_eq_some_iff.mp hnext
  obtain rfl := Option.some.inj hmk
  have hid := Tag.id_of_current htag
  exact ⟨hid, rfl, rfl, normalizeImplies_idem implies⟩

/-- The new version of the tag is the last item. -/
theorem Editable.exists_written_edit_iff (heditable : Editable store)
    (hcards : cards.Perm store.cards.entities) (htags : tags.Perm store.tags.entities)
    (hlive : ∀ parent ∈ implies, parent ∈ tags.map Tag.id)
    (hacyclic : (nextGraph tags tagId implies).detectCycle = none) {tag newTag : Tag}
    (htag : store.tags.current tagId = some tag)
    (hnext : tag.nextWithImplies title color (normalizeImplies implies) (clock tagId) = some newTag)
    (hupdated : complete clock (nextGraph tags tagId implies) cards = some updated) :
    (∃ written, Writes store (singles updated ++ [.tags [newTag]]) written ∧
        ImplicationInvariant written) ↔
      store.isDeleted tagId = false ∧ ∀ card ∈ cards,
        (nextGraph tags tagId implies).missingForCard card.tags ≠ [] →
          store.isDeleted card.id = false := by
  obtain ⟨hid, -, -, himplies⟩ := Tag.fields_of_next htag hnext
  have hreplaces : Replaces store.tags newTag :=
    heditable.replaces_tag (by rwa [Tag.id_of_current htag]) ⟨_, _, _, _, hnext⟩
  rw [← heditable.exists_writes_retagAll hcards hupdated]
  simp only [writes_append, writes_singleton]
  constructor
  · rintro ⟨written, ⟨between, hwrites, hpush⟩, -⟩
    obtain ⟨tables, hpushed, -⟩ := pushSingleTag_eq_ok_iff.mp hpush
    have hnotDeleted := hpushed.notDeleted
    rw [hwrites.isDeleted_singles, Tag.entity_id, hid] at hnotDeleted
    exact ⟨hnotDeleted, between, hwrites⟩
  · rintro ⟨hnotDeleted, between, hwrites⟩
    have hbetween : between.isDeleted (Entity.id newTag) = false := by
      rwa [hwrites.isDeleted_singles, Tag.entity_id, hid]
    rw [← hwrites.tags_singles] at hreplaces
    obtain ⟨tables, hpushed⟩ := hreplaces.exists_pushed_iff.mpr hbetween
    have hpush := pushSingleTag_eq_ok_iff.mpr ⟨tables, hpushed, rfl⟩
    exact ⟨_, ⟨between, hwrites, hpush⟩,
      implicationInvariant_edited heditable.implications hcards htags hlive hacyclic hid himplies
        hupdated hwrites hpush⟩

/-- What an edit that is accepted leaves. -/
theorem tagEdited_of_committed (hcards : cards.Perm store.cards.entities)
    (htags : tags.Perm store.tags.entities) {newTag : Tag} (hnewId : newTag.id = tagId)
    (htitle : newTag.title = title) (hcolor : newTag.color = color)
    (himplies : newTag.implies = normalizeImplies implies)
    (hupdated : complete clock (nextGraph tags tagId implies) cards = some updated)
    (hwrites : Writes store (singles updated) between)
    (hpush : pushItem between (.tags [newTag]) = .ok written) {items : List PushItem} {after : Store}
    {now : Int} (hcommitted : Committed store items now written after) :
    TagEdited store after tagId title color implies := by
  obtain ⟨hpushed, hcardTables⟩ := current_pushSingleTag hnewId hwrites hpush
  have hcurrent : after.tags.current =
      Function.update store.tags.current tagId (some newTag) := by
    rw [hcommitted.tags_eq, EntityTables.current_stampAll, hpushed]
  have hcontent : after.cards.current = between.cards.current := by
    rw [hcommitted.cards_eq, EntityTables.current_stampAll, hcardTables]
  have hbecomes := current_retagAll hcards hupdated hwrites
  have hedge := edge_nextGraph htags himplies hcurrent
  have hmissing : ∀ (card : Card) tag,
      tag ∈ (nextGraph tags tagId implies).missingForCard card.tags ↔
        NewlyImplied after card tag := by
    intro card tag
    rw [TagGraph.mem_missingForCard, NewlyImplied, ← hedge, and_comm]
    rfl
  refine ⟨⟨newTag, htitle, hcolor, himplies, hcurrent⟩, fun id hnone => ?_, fun id card hcard hno => ?_,
    fun id card hcard hsome => ?_⟩
  · rw [hcontent, hbecomes, hnone]
    rfl
  · have hnil : (nextGraph tags tagId implies).missingForCard card.tags = [] := by
      apply List.eq_nil_iff_forall_not_mem.mpr
      intro tag htag
      exact hno tag ((hmissing card tag).mp htag)
    rw [hcontent, hbecomes, hcard, Option.bind_some, if_neg (not_not.mpr hnil)]
  · obtain ⟨needed, hneeded⟩ := hsome
    have hne : (nextGraph tags tagId implies).missingForCard card.tags ≠ [] :=
      List.ne_nil_of_mem ((hmissing card needed).mpr hneeded)
    have hcardMem : card ∈ cards := by
      obtain ⟨row, hrow, rfl, -⟩ := EntityTables.current_eq_some_iff.mp hcard
      exact hcards.mem_iff.mpr (EntityTables.mem_entities.mpr ⟨row, hrow, rfl⟩)
    obtain ⟨next, -, hretag⟩ := Option.exists_mem_of_mapM hupdated
      (List.mem_filter.mpr ⟨hcardMem, decide_eq_true hne⟩)
    refine ⟨next, (nextGraph tags tagId implies).missingForCard card.tags, ?_,
      Card.sameBesidesTags_retag hretag, perm_tags_complete hretag,
      TagGraph.nodup_missingForCard _, hmissing card⟩
    rw [hcontent, hbecomes, hcard, Option.bind_some, if_pos hne]
    exact hretag

/-- Nothing that the edit touches is buried, and the root takes another sequence. -/
structure Savable (store : Store) (cards : List Card) (tags : List Tag) (tagId : Uuid)
    (implies : List Uuid) : Prop where
  room : store.rootState.sequence.val ≠ 9223372036854775807
  tag : store.isDeleted tagId = false
  cards : ∀ card ∈ cards, (nextGraph tags tagId implies).missingForCard card.tags ≠ [] →
    store.isDeleted card.id = false

theorem Editable.saveChanges_iff (heditable : Editable store)
    (hcards : cards.Perm store.cards.entities) (htags : tags.Perm store.tags.entities)
    (hlive : ∀ parent ∈ implies, parent ∈ tags.map Tag.id) {items : List PushItem}
    (hitems : saveChanges clock cards tags tagId title color implies = some items) (now : Int) :
    ((∃ after, perform store ⟨.pushBatch items, now⟩ = some after) ↔
        Savable store cards tags tagId implies) ∧
      ∀ after, perform store ⟨.pushBatch items, now⟩ = some after →
        TagEdited store after tagId title color implies := by
  obtain ⟨-, hacyclic, tag, newTag, updated, hfind, hnext, hupdated, rfl⟩ :=
    (saveChanges_eq_some_iff (nodup_view hcards)).mp hitems
  have htag : store.tags.current tagId = some tag := (find?_view htags tagId).symm.trans hfind
  have hne : singles updated ++ [.tags [newTag]] ≠ [] := by simp
  constructor
  · rw [exists_perform_batch_iff hne, heditable.rootHistory.exhausted_iff,
      heditable.exists_written_edit_iff hcards htags hlive hacyclic htag hnext hupdated]
    constructor
    · rintro ⟨hroom, hnotDeleted, halive⟩
      exact ⟨hroom, hnotDeleted, halive⟩
    · rintro ⟨hroom, hnotDeleted, halive⟩
      exact ⟨hroom, hnotDeleted, halive⟩
  · intro after hafter
    obtain ⟨written, -, hcommitted⟩ := (perform_batch_eq_some_iff hne).mp hafter
    obtain ⟨between, hwrites, hlast⟩ := writes_append.mp hcommitted.writes
    obtain ⟨hid, htitle, hcolor, himplies⟩ := Tag.fields_of_next htag hnext
    exact tagEdited_of_committed hcards htags hid htitle hcolor himplies hupdated hwrites
      (writes_singleton.mp hlast) hcommitted

/-- In a store of built chains whose counts run on, and for a client that shows its cards and tags, the
batch of an edit that names live parents is accepted and does what it should, if and only if nothing
that it touches is buried and the root takes another sequence. -/
theorem saveChanges_run {calls : List Call} (hbuilt : ∀ call ∈ calls, call.Built)
    (hcounted : Run.Meets execute CountedCall initSchema calls)
    (hcards : cards.Perm (Run.after execute initSchema calls).cards.entities)
    (htags : tags.Perm (Run.after execute initSchema calls).tags.entities)
    (hlive : ∀ parent ∈ implies, parent ∈ tags.map Tag.id) {items : List PushItem}
    (hitems : saveChanges clock cards tags tagId title color implies = some items) (now : Int) :
    let store := Run.after execute initSchema calls
    (∃ after, perform store ⟨.pushBatch items, now⟩ = some after ∧
        TagEdited store after tagId title color implies) ↔
      Savable store cards tags tagId implies := by
  intro store
  have heditable : Editable store :=
    editable_run (fun call hcall item hitem => (hbuilt call hcall item hitem).singleId) hcounted
  obtain ⟨haccepted, hdoes⟩ := heditable.saveChanges_iff hcards htags hlive hitems now
  rw [← haccepted]
  constructor
  · rintro ⟨after, hafter, -⟩
    exact ⟨after, hafter⟩
  · rintro ⟨after, hafter⟩
    exact ⟨after, hafter, hdoes after hafter⟩

end Edit

/-- The card gets the tag that its own now implies. -/
theorem saveChanges_run_tagged :
    let _ := polynomialBlake3
    ∃ items, saveChanges (fun _ => .epoch) [heldCard 1 [2]] [sampleTag 2 [], sampleTag 3 []] 2 "t" none
        [3] = some items ∧
      ∃ after, perform (taggedStore taggedCalls) ⟨.pushBatch items, 1⟩ = some after ∧
        TagEdited (taggedStore taggedCalls) after 2 "t" none [3] := by
  intro _
  obtain ⟨items, hitems⟩ : ∃ items, saveChanges (fun _ => .epoch) [heldCard 1 [2]]
      [sampleTag 2 [], sampleTag 3 []] 2 "t" none [3] = some items :=
    Option.isSome_iff_exists.mp (by decide +kernel)
  have hcards : (taggedStore taggedCalls).cards.entities = [heldCard 1 [2]] := by decide +kernel
  have htags : (taggedStore taggedCalls).tags.entities = [sampleTag 2 [], sampleTag 3 []] := by
    decide +kernel
  have hparents : ∀ parent ∈ [3], parent ∈ [sampleTag 2 [], sampleTag 3 []].map Tag.id := by
    intro parent hparent
    rw [List.mem_singleton.mp hparent]
    exact List.mem_cons_of_mem _ List.mem_cons_self
  have hsavable : Savable (taggedStore taggedCalls) [heldCard 1 [2]] [sampleTag 2 [], sampleTag 3 []] 2
      [3] := by
    refine ⟨by decide +kernel, by decide +kernel, fun card hcard _ => ?_⟩
    rw [List.mem_singleton.mp hcard]
    decide +kernel
  exact ⟨items, hitems, (@saveChanges_run polynomialBlake3 _ _ _ _ _ _ _ _ taggedCalls_built
    taggedCalls_counted (List.Perm.of_eq hcards.symm) (List.Perm.of_eq htags.symm) hparents _ hitems
    1).mpr hsavable⟩

/-- The card needs the tag that its own is to imply, and has the id of a deleted tag. -/
theorem not_saveChanges_sharedId :
    let _ := polynomialBlake3
    let store := taggedStore sharedCalls
    (∀ call ∈ sharedCalls, call.Built) ∧ Run.Meets execute CountedCall initSchema sharedCalls ∧
      store.cards.entities = [heldCard 1 [2]] ∧
      store.tags.entities = [sampleTag 2 [], sampleTag 3 []] ∧
      (saveChanges (fun _ => .epoch) [heldCard 1 [2]] [sampleTag 2 [], sampleTag 3 []] 2 "t" none
          [3]).map (fun items => (pushBatch store items 3).map fun _ => ()) =
        some (.error ⟨0, .domain .alreadyDeleted⟩) := by
  intro _ store
  exact ⟨sharedCalls_built, sharedCalls_counted, by decide +kernel, by decide +kernel,
    by decide +kernel⟩

end BlazeList
