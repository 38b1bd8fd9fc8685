import BlazeList.Server.Lineage

/-!
# Reads

A push verifies a version as it came off the wire, while a read rebuilds it and verifies the result. For
cards the two agree. For tags they agree when the implies list names no tag twice, since rebuilding drops
repetitions and the hash covers them.
-/

namespace BlazeList

/-! ### Decoding what was verified -/

section Decode

variable [Blake3]

def Readable {E : Type} [Stored E] (entity : E) : Prop :=
  ∃ decoded, Stored.fromRow entity = .ok decoded

theorem readable_card {card : Card} (hverify : Entity.verify card = true) : Readable card :=
  ⟨card, cardFromRow_eq_ok_iff.mpr ⟨hverify, rfl⟩⟩

def Tag.normalized (tag : Tag) : Tag := { tag with implies := normalizeImplies tag.implies }

omit [Blake3] in
theorem canonicalBytes_normalized {tag : Tag} (hnodup : tag.implies.Nodup) :
    Entity.canonicalBytes tag.normalized = Entity.canonicalBytes tag := by
  have hsorted : (tag.implies.insertionSort (· ≤ ·)).insertionSort (· ≤ ·) =
      tag.implies.insertionSort (· ≤ ·) :=
    (List.pairwise_insertionSort (· ≤ ·) tag.implies).insertionSort_eq
  have hdedup : normalizeImplies tag.implies = tag.implies.insertionSort (· ≤ ·) :=
    ((List.perm_insertionSort (· ≤ ·) tag.implies).nodup_iff.mpr hnodup).dedup
  have hempty : (tag.implies.insertionSort (· ≤ ·)).isEmpty = tag.implies.isEmpty := by
    rw [Bool.eq_iff_iff, List.isEmpty_iff_length_eq_zero, List.isEmpty_iff_length_eq_zero,
      List.length_insertionSort]
  simp only [Entity.canonicalBytes, Tag.canonicalBytes, Tag.normalized, canonicalTagBytes, hdedup,
    hsorted, hempty]

theorem readable_tag {tag : Tag} (hverify : Entity.verify tag = true)
    (hnodup : tag.implies.Nodup) : Readable tag := by
  refine ⟨tag.normalized, tagFromRow_eq_ok_iff.mpr ⟨?_, rfl⟩⟩
  rw [Entity.verify_iff, Entity.expectedHash, canonicalBytes_normalized hnodup]
  exact Entity.verify_iff.mp hverify

theorem readable_tag_iff {tag : Tag} : Readable tag ↔ Entity.verify tag.normalized = true := by
  constructor
  · rintro ⟨decoded, hdecoded⟩
    obtain ⟨hverify, rfl⟩ := tagFromRow_eq_ok_iff.mp hdecoded
    exact hverify
  · exact fun hverify => ⟨tag.normalized, tagFromRow_eq_ok_iff.mpr ⟨hverify, rfl⟩⟩

end Decode

/-! ### A property of all stored entities -/

section StoredAll

variable {E : Type} [Stored E] {p : E → Prop} {tables before after : EntityTables E}

structure StoredAll (p : E → Prop) (tables : EntityTables E) : Prop where
  live : ∀ row ∈ tables.live, p row.entity
  versions : ∀ row ∈ tables.versions, p row.entity

theorem StoredAll.empty : StoredAll p (EntityTables.empty : EntityTables E) where
  live row hrow := absurd hrow (Table.not_mem_empty row)
  versions row hrow := absurd hrow (Table.not_mem_empty row)

theorem StoredAll.mono {q : E → Prop} (h : StoredAll p tables) (himp : ∀ entity, p entity → q entity) :
    StoredAll q tables where
  live row hrow := himp _ (h.live row hrow)
  versions row hrow := himp _ (h.versions row hrow)

theorem StoredAll.remove (h : StoredAll p tables) (id : Uuid) : StoredAll p (tables.remove id) where
  live row hrow := h.live row (EntityTables.mem_live_remove.mp hrow).1
  versions row hrow := h.versions row (EntityTables.mem_versions_remove.mp hrow).1

theorem StoredAll.stampAll (h : StoredAll p tables) (ids : List Uuid) (sequence : Nat) :
    StoredAll p (tables.stampAll ids sequence) := by
  induction ids generalizing tables with
  | nil => exact h
  | cons id rest ih =>
      refine ih ⟨fun row hrow => ?_, fun row hrow => ?_⟩
      · obtain ⟨old, hold, rfl⟩ := EntityTables.mem_live_stamp.mp hrow
        exact (old.stamp_entity id sequence).symm ▸ h.live old hold
      · obtain ⟨old, hold, rfl⟩ := EntityTables.mem_versions_stamp.mp hrow
        exact (old.stamp_entity id sequence).symm ▸ h.versions old hold

theorem Pushed.storedAll [Blake3] {store : Store} {versions : List E} {first latest : E}
    (h : Pushed store before versions first latest after) (hbefore : StoredAll p before)
    (hversions : ∀ v ∈ versions, p v) : StoredAll p after where
  live row hrow := by
    rcases h.mem_live.mp hrow with ⟨hrow, -⟩ | rfl
    · exact hbefore.live row hrow
    · exact hversions latest h.latest_mem
  versions row hrow := by
    rcases h.mem_versions.mp hrow with hrow | ⟨v, hv, rfl⟩
    · exact hbefore.versions row hrow
    · exact hversions v hv

end StoredAll

/-! ### Reads of readable rows -/

section ReadRows

variable [Blake3] {E : Type} [Stored E] {tables : EntityTables E}

theorem exists_fromRows {rows : List E} (h : ∀ row ∈ rows, Readable row) :
    ∃ entities, fromRows rows = .ok entities := by
  refine Except.exists_mapM_eq_ok fun row hrow => ?_
  obtain ⟨decoded, hdecoded⟩ := h row hrow
  exact ⟨decoded, Except.mapError_eq_ok_iff.mpr hdecoded⟩

/-- What is the same for every row and its decoded entity is the same for all of them. -/
theorem map_eq_of_fromRows {β : Type} {f g : E → β}
    (hf : ∀ {row entity : E}, Stored.fromRow row = .ok entity → f entity = g row)
    {rows decoded : List E} (h : fromRows rows = .ok decoded) : decoded.map f = rows.map g := by
  have hdecoded := Except.mapM_eq_ok_iff.mp h
  clear h
  induction hdecoded with
  | nil => rfl
  | cons hrow _ ih =>
      rw [List.map_cons, List.map_cons, hf (Except.mapError_eq_ok_iff.mp hrow), ih]

theorem eq_of_fromRows_cards {rows decoded : List Card} (h : fromRows rows = .ok decoded) :
    decoded = rows := by
  have hmap := map_eq_of_fromRows (f := id) (g := id)
    (fun hrow => (cardFromRow_eq_ok_iff.mp hrow).2) h
  rwa [List.map_id, List.map_id] at hmap

omit [Blake3] in
theorem mem_limited {α : Type} {limit : Option Nat} {rows : List α} {row : α}
    (h : row ∈ limited limit rows) : row ∈ rows := by
  cases limit with
  | none => exact h
  | some n => exact List.mem_of_mem_take h

theorem get_of_mem {row : EntityRow E} {entity : E} (hrow : row ∈ tables.live)
    (hread : Stored.fromRow row.entity = .ok entity) :
    tables.get (Entity.id row.entity) = .ok (some entity) := by
  unfold EntityTables.get
  rw [EntityTables.row?_eq_some_iff.mpr ⟨hrow, rfl⟩]
  dsimp only
  rw [hread]
  rfl

theorem exists_get (h : StoredAll Readable tables) (id : Uuid) :
    ∃ entity, tables.get id = .ok entity := by
  unfold EntityTables.get
  cases hrow : tables.row? id with
  | none => exact ⟨none, rfl⟩
  | some row =>
      obtain ⟨decoded, hdecoded⟩ := h.live row (EntityTables.row?_eq_some_iff.mp hrow).1
      exact ⟨some decoded, by simp [hdecoded, Except.map, Except.mapError]⟩

theorem exists_history (h : StoredAll Readable tables) (id : Uuid) (limit : Option Nat) :
    ∃ history, tables.history id limit = .ok history := by
  refine exists_fromRows fun version hversion => ?_
  obtain ⟨row, hrow, rfl, -⟩ :=
    EntityTables.mem_lineage.mp (List.mem_orderBy.mp (mem_limited hversion))
  exact h.versions row hrow

theorem allHistories_of_bindable {limitPer : Option Nat} {ids : Option (List Uuid)} (hids : Bindable ids) :
    tables.allHistories limitPer ids =
      (fromRows (tables.versionsOf ids)).map fun rows => rows.foldl (groupVersion limitPer) ∅ := by
  rw [EntityTables.allHistories, EntityTables.selectVersions, if_pos hids]
  rfl

theorem exists_allHistories (h : StoredAll Readable tables) (limitPer : Option Nat)
    {ids : Option (List Uuid)} (hids : Bindable ids) :
    ∃ histories, tables.allHistories limitPer ids = .ok histories := by
  have hreadable : ∀ version ∈ tables.versionsOf ids, Readable version := by
    intro version hversion
    have hmem := (List.mem_filter.mp (List.mem_orderBy.mp (List.mem_orderBy.mp hversion))).1
    obtain ⟨row, hrow, rfl⟩ := List.mem_map.mp hmem
    exact h.versions row hrow
  obtain ⟨rows, hrows⟩ := exists_fromRows hreadable
  exact ⟨_, by rw [allHistories_of_bindable hids, hrows]; rfl⟩

theorem exists_changedSince (h : StoredAll Readable tables) (since : Nat) :
    ∃ entities, fromRows (tables.changedSince since) = .ok entities := by
  refine exists_fromRows fun entity hentity => ?_
  obtain ⟨row, hrow, rfl⟩ := List.mem_map.mp hentity
  exact h.live row (List.mem_filter.mp hrow).1

end ReadRows

/-! ### The last accepted versions -/

def PushItem.NodupImplies : PushItem → Prop
  | .tags versions => ∀ v ∈ versions, v.implies.Nodup
  | .cards _ | .deleteCard _ | .deleteTag _ => True

instance : (item : PushItem) → Decidable item.NodupImplies
  | .tags versions => inferInstanceAs (Decidable (∀ v ∈ versions, v.implies.Nodup))
  | .cards _ | .deleteCard _ | .deleteTag _ => isTrue trivial

def versionWrites {E : Type} [Entity E] (versions : List E) : List (Uuid × Option E) :=
  versions.map fun v => (Entity.id v, some v)

def PushItem.acceptedCards : PushItem → List (Uuid × Option Card)
  | .cards versions => versionWrites versions
  | .deleteCard id => [(id, none)]
  | .tags _ | .deleteTag _ => []

def PushItem.acceptedTags : PushItem → List (Uuid × Option Tag)
  | .tags versions => versionWrites versions
  | .deleteTag id => [(id, none)]
  | .cards _ | .deleteCard _ => []

/-- On a chain of one entity only the last write shows. -/
theorem applyAll_versionWrites {E : Type} [Stored E] {versions : List E}
    (hsingle : SingleId versions) (content : Uuid → Option E) :
    Overlay.applyAll content (versionWrites versions) =
      Overlay.applyAll content (chainWrites versions) := by
  induction versions generalizing content with
  | nil => rfl
  | cons v rest ih =>
      have hrest : SingleId rest := fun a ha b hb =>
        hsingle a (List.mem_cons_of_mem v ha) b (List.mem_cons_of_mem v hb)
      rw [versionWrites, List.map_cons, Overlay.applyAll_cons]
      apply (ih hrest _).trans
      cases rest with
      | nil => rfl
      | cons w tail =>
          obtain ⟨latest, hlast⟩ : ∃ latest, (w :: tail).getLast? = some latest :=
            ⟨_, List.getLast?_eq_some_getLast (List.cons_ne_nil w tail)⟩
          have hid : Entity.id v = Entity.id latest :=
            hsingle v List.mem_cons_self latest
              (List.mem_cons_of_mem v (List.mem_of_getLast? hlast))
          simp only [chainWrites, List.getLast?_cons_cons, hlast, Option.toList_some, List.map_cons,
            List.map_nil, Overlay.applyAll_cons, Overlay.applyAll_nil, Overlay.apply, hid,
            Function.update_idem]

theorem acceptedCards_eq {item : PushItem} (hsingle : item.SingleId) (content : Uuid → Option Card) :
    Overlay.applyAll content item.acceptedCards = Overlay.applyAll content item.cardWrites := by
  cases item with
  | cards versions => exact applyAll_versionWrites hsingle content
  | tags versions => rfl
  | deleteCard id => rfl
  | deleteTag id => rfl

theorem acceptedTags_eq {item : PushItem} (hsingle : item.SingleId) (content : Uuid → Option Tag) :
    Overlay.applyAll content item.acceptedTags = Overlay.applyAll content item.tagWrites := by
  cases item with
  | cards versions => rfl
  | tags versions => exact applyAll_versionWrites hsingle content
  | deleteCard id => rfl
  | deleteTag id => rfl

section Accepted

variable [Blake3]

def acceptedItems : Store → List Call → List PushItem
  | _, [] => []
  | store, call :: rest =>
      (if (perform store call).isSome then call.mutation.items else []) ++
        acceptedItems (execute store call) rest

/-- The last version of the card that was accepted, unless the card was deleted since. -/
def lastAcceptedCard (calls : List Call) (id : Uuid) : Option Card :=
  Overlay.applyAll (fun _ => none) ((acceptedItems initSchema calls).flatMap PushItem.acceptedCards) id

def lastAcceptedTag (calls : List Call) (id : Uuid) : Option Tag :=
  Overlay.applyAll (fun _ => none) ((acceptedItems initSchema calls).flatMap PushItem.acceptedTags) id

theorem execute_cards_current (store : Store) (call : Call) :
    (execute store call).cards.current = Overlay.applyAll store.cards.current
      ((if (perform store call).isSome then call.mutation.items else []).flatMap
        PushItem.cardWrites) := by
  unfold execute
  cases hperform : perform store call with
  | none => rfl
  | some after =>
      rcases perform_eq_some_iff.mp hperform with ⟨hempty, rfl⟩ | ⟨-, written, -, hcommitted⟩
      · simp [hempty]
      · simp [hcommitted.cards_eq, EntityTables.current_stampAll, hcommitted.writes.cards_current]

theorem execute_tags_current (store : Store) (call : Call) :
    (execute store call).tags.current = Overlay.applyAll store.tags.current
      ((if (perform store call).isSome then call.mutation.items else []).flatMap
        PushItem.tagWrites) := by
  unfold execute
  cases hperform : perform store call with
  | none => rfl
  | some after =>
      rcases perform_eq_some_iff.mp hperform with ⟨hempty, rfl⟩ | ⟨-, written, -, hcommitted⟩
      · simp [hempty]
      · simp [hcommitted.tags_eq, EntityTables.current_stampAll, hcommitted.writes.tags_current]

/-- If the call is accepted, its chains carry one id each and no implies list repeats a tag. -/
def SoundCall (store : Store) (call : Call) : Prop :=
  (perform store call).isSome → ∀ item ∈ call.mutation.items, item.SingleId ∧ item.NodupImplies

instance (store : Store) (call : Call) : Decidable (SoundCall store call) :=
  inferInstanceAs (Decidable (_ → _))

theorem SoundCall.singleId {store : Store} {call : Call} (h : SoundCall store call) :
    ∀ item ∈ (if (perform store call).isSome then call.mutation.items else []), item.SingleId := by
  intro item hitem
  split at hitem
  · rename_i hsome
    exact (h hsome item hitem).1
  · simp at hitem

theorem cards_current_run {store : Store} {calls : List Call}
    (hmeets : Run.Meets execute SoundCall store calls) :
    (Run.after execute store calls).cards.current =
      Overlay.applyAll store.cards.current
        ((acceptedItems store calls).flatMap PushItem.acceptedCards) := by
  induction calls generalizing store with
  | nil => rfl
  | cons call rest ih =>
      obtain ⟨hsound, hrest⟩ := hmeets
      rw [Run.after_cons, ih hrest, execute_cards_current, acceptedItems, List.flatMap_append,
        Overlay.applyAll_append, Overlay.applyAll_flatMap_congr fun item hitem content =>
          acceptedCards_eq (hsound.singleId item hitem) content]

theorem tags_current_run {store : Store} {calls : List Call}
    (hmeets : Run.Meets execute SoundCall store calls) :
    (Run.after execute store calls).tags.current =
      Overlay.applyAll store.tags.current
        ((acceptedItems store calls).flatMap PushItem.acceptedTags) := by
  induction calls generalizing store with
  | nil => rfl
  | cons call rest ih =>
      obtain ⟨hsound, hrest⟩ := hmeets
      rw [Run.after_cons, ih hrest, execute_tags_current, acceptedItems, List.flatMap_append,
        Overlay.applyAll_append, Overlay.applyAll_flatMap_congr fun item hitem content =>
          acceptedTags_eq (hsound.singleId item hitem) content]

/-! ### No write poisons a read -/

structure ReadableInvariant (store : Store) : Prop where
  cards : StoredAll Readable store.cards
  tags : StoredAll Readable store.tags

theorem readableInvariant_initSchema : ReadableInvariant initSchema := ⟨.empty, .empty⟩

theorem readable_cards_pushItem {store after : Store} {item : PushItem}
    (hinv : StoredAll Readable store.cards) (h : pushItem store item = .ok after) :
    StoredAll Readable after.cards := by
  rcases pushItem_cases h with ⟨_, _, _, _, rfl, hpushed, rfl⟩ | ⟨_, _, _, _, rfl, hpushed, rfl⟩ |
    ⟨_, rfl, -, -, rfl⟩ | ⟨_, rfl, -, -, -, -, rfl⟩
  · exact hpushed.storedAll hinv fun v hv => readable_card (hpushed.verified v hv)
  · exact hinv
  · exact hinv.remove _
  · exact hinv

theorem readable_tags_pushItem {store after : Store} {item : PushItem}
    (hinv : StoredAll Readable store.tags) (hnodup : item.NodupImplies)
    (h : pushItem store item = .ok after) : StoredAll Readable after.tags := by
  rcases pushItem_cases h with ⟨_, _, _, _, rfl, hpushed, rfl⟩ | ⟨_, _, _, _, rfl, hpushed, rfl⟩ |
    ⟨_, rfl, -, -, rfl⟩ | ⟨_, rfl, -, -, -, -, rfl⟩
  · exact hinv
  · exact hpushed.storedAll hinv fun v hv => readable_tag (hpushed.verified v hv) (hnodup v hv)
  · exact hinv
  · exact hinv.remove _

/-- Cards stay readable whatever is pushed. -/
theorem readable_cards_execute {store : Store} (hinv : StoredAll Readable store.cards)
    (call : Call) : StoredAll Readable (execute store call).cards := by
  refine execute_preserves (fun state => StoredAll Readable state.cards) hinv
    (fun _ _ _ _ => readable_cards_pushItem) fun written after hcommitted hwritten => ?_
  rw [hcommitted.cards_eq]
  exact hwritten.stampAll _ _

theorem ReadableInvariant.execute {store : Store} {call : Call} (hinv : ReadableInvariant store)
    (hsound : SoundCall store call) : ReadableInvariant (execute store call) := by
  refine ⟨readable_cards_execute hinv.cards call, ?_⟩
  by_cases hsome : (perform store call).isSome
  · refine execute_preserves (fun state => StoredAll Readable state.tags) hinv.tags
      (fun _ item _ hitem hbefore => readable_tags_pushItem hbefore (hsound hsome item hitem).2)
      fun written after hcommitted hwritten => ?_
    rw [hcommitted.tags_eq]
    exact hwritten.stampAll _ _
  · rw [BlazeList.execute, Option.not_isSome_iff_eq_none.mp hsome]
    exact hinv.tags

/-- Every read of the store succeeds. A bulk read lists no more ids than one statement can bind. A sync
request is one whose root, if it is in the history, is the one recorded there. -/
structure ReadsSucceed (store : Store) : Prop where
  getCard : ∀ id, ∃ card, getCard store id = .ok card
  getTag : ∀ id, ∃ tag, getTag store id = .ok tag
  listCards : ∀ filter limit, ∃ cards, listCards store filter limit = .ok cards
  listTags : ∃ tags, listTags store = .ok tags
  getCardHistory : ∀ id limit, ∃ history, getCardHistory store id limit = .ok history
  getTagHistory : ∀ id limit, ∃ history, getTagHistory store id limit = .ok history
  getAllCardHistories : ∀ limitPerCard cardIds, Bindable cardIds → ∃ histories,
    getAllCardHistories store limitPerCard cardIds = .ok histories
  getAllTagHistories : ∀ limitPerTag tagIds, Bindable tagIds → ∃ histories,
    getAllTagHistories store limitPerTag tagIds = .ok histories
  getChangesSince : ∀ sequence hash,
    (∀ row ∈ store.rootHistory, row.sequence = sequence → row.hash = hash) →
      ∃ changes, getChangesSince store sequence hash = .ok changes

theorem ReadableInvariant.exists_changesSince {store : Store} (hinv : ReadableInvariant store)
    (since : Nat) : ∃ changes, changesSince store since = .ok changes := by
  obtain ⟨cards, hcards⟩ := exists_changedSince hinv.cards since
  obtain ⟨tags, htags⟩ := exists_changedSince hinv.tags since
  exact ⟨_, by simp only [changesSince, hcards, htags]; rfl⟩

theorem ReadableInvariant.readsSucceed {store : Store} (hinv : ReadableInvariant store) :
    ReadsSucceed store where
  getCard := exists_get hinv.cards
  getTag := exists_get hinv.tags
  listCards filter limit := by
    refine exists_fromRows fun card hcard => ?_
    have hmem := (List.mem_filter.mp (List.mem_orderBy.mp (mem_limited hcard))).1
    obtain ⟨row, hrow, rfl⟩ := List.mem_map.mp hmem
    exact hinv.cards.live row hrow
  listTags := by
    refine exists_fromRows fun tag htag => ?_
    obtain ⟨row, hrow, rfl⟩ := List.mem_map.mp (List.mem_orderBy.mp htag)
    exact hinv.tags.live row hrow
  getCardHistory := exists_history hinv.cards
  getTagHistory := exists_history hinv.tags
  getAllCardHistories limitPerCard _ := exists_allHistories hinv.cards limitPerCard
  getAllTagHistories limitPerTag _ := exists_allHistories hinv.tags limitPerTag
  getChangesSince sequence hash hmatch := by
    unfold BlazeList.getChangesSince
    split
    · rename_i row hfind
      have hrow : row ∈ store.rootHistory := List.mem_of_find?_eq_some hfind
      have hsequence : row.sequence = sequence := by simpa using List.find?_some hfind
      rw [if_pos (hmatch row hrow hsequence)]
      exact hinv.exists_changesSince _
    · exact hinv.exists_changesSince _

theorem getCard_eq {store : Store} (hinv : ReadableInvariant store) (id : Uuid) :
    getCard store id = .ok (store.cards.current id) := by
  unfold getCard EntityTables.get EntityTables.current
  cases hrow : store.cards.row? id with
  | none => rfl
  | some row =>
      obtain ⟨decoded, hdecoded⟩ := hinv.cards.live row (EntityTables.row?_eq_some_iff.mp hrow).1
      obtain ⟨-, rfl⟩ := cardFromRow_eq_ok_iff.mp hdecoded
      simp only [hdecoded, Except.map, Except.mapError, Option.map_some]

theorem getTag_eq {store : Store} (hinv : ReadableInvariant store) (id : Uuid) :
    getTag store id = .ok ((store.tags.current id).map Tag.normalized) := by
  unfold getTag EntityTables.get EntityTables.current
  cases hrow : store.tags.row? id with
  | none => rfl
  | some row =>
      obtain ⟨decoded, hdecoded⟩ := hinv.tags.live row (EntityTables.row?_eq_some_iff.mp hrow).1
      obtain ⟨-, rfl⟩ := tagFromRow_eq_ok_iff.mp hdecoded
      simp only [hdecoded, Except.map, Except.mapError, Option.map_some]
      rfl

/-- In a run whose accepted chains carry one id each and repeat no parent tag, every read succeeds,
and `get_card` and `get_tag` return what was accepted last. -/
theorem readsSucceed_run (calls : List Call)
    (hmeets : Run.Meets execute SoundCall initSchema calls) :
    ReadsSucceed (Run.after execute initSchema calls) ∧
      ∀ id,
        getCard (Run.after execute initSchema calls) id = .ok (lastAcceptedCard calls id) ∧
        getTag (Run.after execute initSchema calls) id =
          .ok ((lastAcceptedTag calls id).map Tag.normalized) := by
  have hinv : ReadableInvariant (Run.after execute initSchema calls) :=
    hmeets.invariant _ readableInvariant_initSchema fun _ _ hinv => hinv.execute
  have hempty : ∀ {E : Type} [Stored E], (EntityTables.empty : EntityTables E).current =
      fun _ => none :=
    fun {E} _ => funext fun id => EntityTables.current_empty
  refine ⟨hinv.readsSucceed, fun id => ⟨?_, ?_⟩⟩
  · rw [getCard_eq hinv, cards_current_run hmeets, lastAcceptedCard, initSchema, hempty]
  · rw [getTag_eq hinv, tags_current_run hmeets, lastAcceptedTag, initSchema, hempty]

end Accepted

/-- A tag and a tag that implies it. -/
theorem readsSucceed_sample :
    let _ := polynomialBlake3
    ReadsSucceed (Run.after execute initSchema
      [⟨.pushTagVersions [sampleTag 2 []], 0⟩, ⟨.pushTagVersions [sampleTag 1 [2]], 1⟩]) :=
  (@readsSucceed_run polynomialBlake3 _ (by decide +kernel)).1

def doubledTag : Tag :=
  let tag : Tag := { sampleTag 1 [] with implies := [2, 2] }
  { tag with hash := @Entity.expectedHash _ _ polynomialBlake3 tag }

/-- The push of the doubled tag is accepted, and the tag cannot be read afterwards. -/
theorem not_readsSucceed_doubledTag :
    let _ := polynomialBlake3
    ¬ ReadsSucceed (Run.after execute initSchema
      [⟨.pushTagVersions [sampleTag 2 []], 0⟩, ⟨.pushTagVersions [doubledTag], 1⟩]) := by
  intro _ hreads
  obtain ⟨tag, htag⟩ := hreads.getTag 1
  have hnone : (getTag (Run.after execute initSchema
      [⟨.pushTagVersions [sampleTag 2 []], 0⟩, ⟨.pushTagVersions [doubledTag], 1⟩]) 1).toOption =
        none := by
    decide +kernel
  rw [htag] at hnone
  cases hnone

end BlazeList
