import BlazeList.Server.Handler
import BlazeList.Server.Reprioritize

/-!
# Pushes of single versions

A client only ever sends single versions of cards, one or several in a request. Such a request leaves
the store as it was, or each of its versions in turn becomes the current one of its card.
-/

namespace BlazeList

/-! ### Requests that send versions -/

def Request.Sends (request : Request) (versions : List Card) : Prop :=
  ∃ mutation, request.mutation? = some mutation ∧ mutation.items = singles versions

theorem sends_single (version : Card) : (Request.pushCardVersions [version]).Sends [version] :=
  ⟨_, rfl, rfl⟩

theorem sends_batch (versions : List Card) : (Request.pushBatch (singles versions)).Sends versions :=
  ⟨_, rfl, rfl⟩

def versionWrite (version : Card) : Uuid × Option Card := (version.id, some version)

theorem map_fst_versionWrite (versions : List Card) :
    (versions.map versionWrite).map Prod.fst = versions.map Card.id := by
  rw [List.map_map]
  rfl

theorem flatMap_cardWrites_singles (versions : List Card) :
    (singles versions).flatMap PushItem.cardWrites = versions.map versionWrite := by
  induction versions with
  | nil => rfl
  | cons version rest ih =>
      rw [List.map_cons, ← ih]
      rfl

theorem mem_cardIds_singles {versions : List Card} {id : Uuid} :
    id ∈ (affectedOf (singles versions)).cardIds ↔ id ∈ versions.map Card.id := by
  simp [affectedOf_eq, singles, Affected.add, Affected.empty, List.flatMap_map, eq_comm]

theorem deletedIds_singles (versions : List Card) :
    (affectedOf (singles versions)).deletedIds = [] := by
  simp [affectedOf_eq, singles, Affected.add, Affected.empty, List.flatMap_map]

theorem singleId_singles (versions : List Card) : ∀ item ∈ singles versions, item.SingleId := by
  intro item hitem
  obtain ⟨version, -, rfl⟩ := List.mem_map.mp hitem
  intro v hv w hw
  rw [List.mem_singleton.mp hv, List.mem_singleton.mp hw]

/-! ### What an accepted push does -/

variable [Blake3]

/-- The versions were written one after the other and committed. -/
def Accepts (store : Store) (versions : List Card) (after : Store) : Prop :=
  ∃ now written, Committed store (singles versions) now written after

theorem Writes.deletedEntities_singles {store written : Store} {versions : List Card}
    (h : Writes store (singles versions) written) :
    written.deletedEntities = store.deletedEntities := by
  refine h.preserves (fun state => state.deletedEntities = store.deletedEntities) rfl
    fun before item after hitem hbefore hpush => ?_
  obtain ⟨version, -, rfl⟩ := List.mem_map.mp hitem
  obtain ⟨cards, -, rfl⟩ := pushSingle_eq_ok_iff.mp hpush
  exact hbefore

section

variable {store after : Store} {versions : List Card}

theorem Accepts.current (h : Accepts store versions after) :
    after.cards.current = Overlay.applyAll store.cards.current (versions.map versionWrite) := by
  obtain ⟨now, written, hcommitted⟩ := h
  rw [hcommitted.cards_eq, EntityTables.current_stampAll, hcommitted.writes.cards_current,
    flatMap_cardWrites_singles]

theorem Accepts.deletedEntities (h : Accepts store versions after) :
    after.deletedEntities = store.deletedEntities := by
  obtain ⟨now, written, hcommitted⟩ := h
  rw [hcommitted.deleted_eq, deletedIds_singles]
  exact hcommitted.writes.deletedEntities_singles

theorem Accepts.sequence (h : Accepts store versions after) :
    after.rootState.sequence.val = store.rootState.sequence.val + 1 := by
  obtain ⟨now, written, hcommitted⟩ := h
  exact hcommitted.sequence

/-- One of the versions sent for a card is its current one. -/
theorem Accepts.exists_current (h : Accepts store versions after) {version : Card}
    (hversion : version ∈ versions) :
    ∃ latest ∈ versions, latest.id = version.id ∧ after.cards.current version.id = some latest := by
  rw [h.current]
  have hkey : version.id ∈ (versions.map versionWrite).map Prod.fst :=
    map_fst_versionWrite versions ▸ List.mem_map_of_mem hversion
  obtain ⟨write, hwrite, hid, hvalue⟩ := Overlay.exists_write store.cards.current hkey
  obtain ⟨latest, hlatest, rfl⟩ := List.mem_map.mp hwrite
  exact ⟨latest, hlatest, hid, hvalue⟩

theorem Accepts.current_of_not_mem (h : Accepts store versions after) {id : Uuid}
    (hid : id ∉ versions.map Card.id) : after.cards.current id = store.cards.current id := by
  rw [h.current, Overlay.applyAll_of_untouched (map_fst_versionWrite versions ▸ hid)]

/-- The cards that were sent carry a stamp of this commit. -/
theorem Accepts.stamped (h : Accepts store versions after) {version : Card}
    (hversion : version ∈ versions) :
    ∃ row ∈ after.cards.live, row.entity.id = version.id ∧
      row.rootSequenceAt = store.rootState.sequence.val + 1 := by
  obtain ⟨latest, -, hid, hcurrent⟩ := h.exists_current hversion
  obtain ⟨row, hrow, rfl, hrowId⟩ := EntityTables.current_eq_some_iff.mp hcurrent
  refine ⟨row, hrow, hid, ?_⟩
  rw [← h.sequence]
  obtain ⟨now, written, hcommitted⟩ := h
  rw [hcommitted.cards_eq] at hrow
  obtain ⟨old, hold, heq⟩ := EntityTables.mem_live_stampAll.mp hrow
  have hentity : old.entity = row.entity := by
    rw [← heq]
    split <;> rfl
  have haffected : Entity.id old.entity ∈ (affectedOf (singles versions)).cardIds := by
    rw [hentity, mem_cardIds_singles, Card.entity_id, hid]
    exact List.mem_map_of_mem hversion
  rw [if_pos haffected] at heq
  rw [← heq]

theorem Accepts.tracked (h : Accepts store versions after) :
    StoreTracked .empty store.rootState.sequence.val store after := by
  obtain ⟨now, written, hcommitted⟩ := h
  exact StoreTracked.committed ⟨.refl _, .refl _⟩ le_rfl (singleId_singles versions) hcommitted

/-- The first version builds on the version it replaces. -/
theorem Accepts.ancestor {version : Card} (h : Accepts store (version :: versions) after) :
    version.ancestorHash = ((store.cards.current version.id).map Card.hash).getD zeroHash := by
  obtain ⟨now, written, hcommitted⟩ := h
  obtain ⟨next, hpush, -⟩ := writes_cons.mp hcommitted.writes
  obtain ⟨cards, hpushed, -⟩ := pushSingle_eq_ok_iff.mp hpush
  exact hpushed.ancestor

end

/-! ### The two outcomes -/

omit [Blake3] in
theorem eq_cards_of_singles {item : PushItem} {versions : List Card}
    (h : [item] = singles versions) : ∃ version, item = .cards [version] := by
  have hmem : item ∈ singles versions := h ▸ List.mem_cons_self
  obtain ⟨version, -, hversion⟩ := List.mem_map.mp hmem
  exact ⟨version, hversion.symm⟩

theorem handleRequest_sends {request : Request} {versions : List Card} (store : Store) (now : Int)
    (hsends : request.Sends versions) (hne : versions ≠ []) :
    (Accepts store versions (handleRequest store now request).1 ∧
        ∃ root, (handleRequest store now request).2 = .root root) ∨
      (handleRequest store now request).1 = store ∧
        ∃ error, (handleRequest store now request).2 = .error error := by
  obtain ⟨mutation, hmutation, hitems⟩ := hsends
  have hitemsNe : singles versions ≠ [] := fun hnil => hne (List.map_eq_nil_iff.mp hnil)
  cases request with
  | pushCardVersions chain =>
      obtain rfl := Option.some.inj hmutation
      unfold handleRequest answerMutation
      dsimp only
      split
      · rename_i after hpush
        obtain ⟨written, -, hcommitted⟩ := pushCardVersions_eq_ok_iff.mp hpush
        exact .inl ⟨⟨now, written, hitems ▸ hcommitted⟩, _, rfl⟩
      · exact .inr ⟨rfl, _, rfl⟩
  | pushBatch items =>
      obtain rfl := Option.some.inj hmutation
      obtain rfl : items = singles versions := hitems
      unfold handleRequest answerMutation
      dsimp only
      split
      · rename_i after hpush
        obtain ⟨hnil, -⟩ | ⟨-, written, -, hcommitted⟩ := pushBatch_eq_ok_iff.mp hpush
        · exact absurd hnil hitemsNe
        · exact .inl ⟨⟨now, written, hcommitted⟩, _, rfl⟩
      · exact .inr ⟨rfl, _, rfl⟩
  -- the items of the other mutations are no cards
  | deleteCard id =>
      obtain rfl := Option.some.inj hmutation
      obtain ⟨version, hversion⟩ := eq_cards_of_singles hitems
      cases hversion
  | pushTagVersions chain =>
      obtain rfl := Option.some.inj hmutation
      obtain ⟨version, hversion⟩ := eq_cards_of_singles hitems
      cases hversion
  | deleteTag id =>
      obtain rfl := Option.some.inj hmutation
      obtain ⟨version, hversion⟩ := eq_cards_of_singles hitems
      cases hversion
  | getCard id => cases hmutation
  | getRoot => cases hmutation
  | getChangesSince sequence rootHash => cases hmutation
  | subscribe => cases hmutation

/-- A request that reads leaves the store alone. -/
theorem handleRequest_read {store : Store} {now : Int} {request : Request}
    (hread : request.mutation? = none) : (handleRequest store now request).1 = store := by
  rw [handleRequest_store, hread]
  rfl

/-! ### What a refusal says -/

omit [Blake3] in
theorem validateBatchImplications_ne_mismatch {store : Store} {items : List PushItem} {latest : Card} :
    validateBatchImplications store items ≠ .error (.domain (.cardAncestorMismatch latest)) := by
  intro h
  unfold validateBatchImplications at h
  dsimp only at h
  split at h
  · rename_i error hdangling
    obtain ⟨-, ⟨tagId, implies⟩, -, -, herror, -⟩ := List.findSome?_eq_some_iff.mp hdangling
    dsimp only at herror
    split at herror
    · cases herror
    · rw [← Option.some.inj herror] at h
      cases h
  · split at h
    · cases h
    · split at h
      · rename_i error hclosure
        obtain ⟨-, ⟨cardId, tags⟩, -, -, herror, -⟩ := List.findSome?_eq_some_iff.mp hclosure
        dsimp only at herror
        split at herror
        · cases herror
        · rw [← Option.some.inj herror] at h
          cases h
      · cases h

theorem checkAncestor_mismatch {tables : EntityTables Card} {card latest : Card}
    (h : checkAncestor tables card = .error (.domain (.cardAncestorMismatch latest))) :
    tables.current card.id = some latest ∧ card.ancestorHash ≠ latest.hash := by
  unfold checkAncestor at h
  split at h
  · rename_i row hrow
    split at h
    · cases h
    · rename_i hne
      rcases Except.bind_eq_error_iff.mp h with herror | ⟨decoded, hdecoded, herror⟩
      · obtain ⟨error, -, heq⟩ := Except.mapError_eq_error_iff.mp herror
        cases heq
      · obtain ⟨-, rfl⟩ := cardFromRow_eq_ok_iff.mp (Except.mapError_eq_ok_iff.mp hdecoded)
        cases herror
        refine ⟨?_, hne⟩
        rw [EntityTables.current]
        exact congrArg (Option.map EntityRow.entity) hrow
  · obtain ⟨-, heq⟩ := Except.ensure_eq_error_iff.mp h
    cases heq

/-- The version that comes with an ancestor mismatch is the current one of the server. -/
theorem pushCardVersions_mismatch {store : Store} {card latest : Card} {now : Int}
    (h : pushCardVersions store [card] now = .error (.domain (.cardAncestorMismatch latest))) :
    store.cards.current card.id = some latest ∧ card.ancestorHash ≠ latest.hash := by
  rcases Except.bind_eq_error_iff.mp h with hinner | ⟨written, -, hlater⟩
  · rcases Except.bind_eq_error_iff.mp hinner with haccept | ⟨⟨last, table⟩, -, hpriority⟩
    · rcases Except.bind_eq_error_iff.mp haccept with hverify | ⟨-, -, haccept⟩
      · obtain ⟨-, heq⟩ := Except.ensure_eq_error_iff.mp hverify
        cases heq
      rcases Except.bind_eq_error_iff.mp haccept with hdeleted | ⟨-, -, haccept⟩
      · obtain ⟨-, heq⟩ := Except.ensure_eq_error_iff.mp hdeleted
        cases heq
      rcases Except.bind_eq_error_iff.mp haccept with hancestor | ⟨-, -, haccept⟩
      · exact checkAncestor_mismatch hancestor
      rcases Except.bind_eq_error_iff.mp haccept with hlinked | ⟨-, -, haccept⟩
      · obtain ⟨-, heq⟩ := Except.ensure_eq_error_iff.mp hlinked
        cases heq
      rcases Except.bind_eq_error_iff.mp haccept with hinsert | ⟨table, -, hreturn⟩
      · obtain ⟨error, -, heq⟩ := Except.mapError_eq_error_iff.mp hinsert
        cases heq
      · cases hreturn
    · dsimp only at hpriority
      split at hpriority <;> cases hpriority
  · rcases Except.bind_eq_error_iff.mp hlater with hvalid | ⟨-, -, hlater⟩
    · exact absurd hvalid validateBatchImplications_ne_mismatch
    rcases Except.bind_eq_error_iff.mp hlater with hroot | ⟨⟨rooted, sequence⟩, -, hreturn⟩
    · obtain ⟨error, -, heq⟩ := Except.mapError_eq_error_iff.mp hroot
      cases heq
    · cases hreturn

theorem handleRequest_mismatch {store : Store} {card latest : Card} {now : Int}
    (h : (handleRequest store now (.pushCardVersions [card])).2 =
      .error (.pushFailed (.cardAncestorMismatch latest))) :
    store.cards.current card.id = some latest ∧ card.ancestorHash ≠ latest.hash := by
  unfold handleRequest answerMutation at h
  dsimp only at h
  split at h
  · cases h
  · rename_i error herror
    cases error with
    | domain error =>
        cases h
        exact pushCardVersions_mismatch herror
    | internal message => cases h

theorem handleRequest_getCard {store : Store} {id : Uuid} {card : Card} {now : Int}
    (h : (handleRequest store now (.getCard id)).2 = .card card) :
    store.cards.current id = some card := by
  unfold handleRequest getCard EntityTables.get at h
  dsimp only at h
  split at h
  · rename_i found hfound
    cases h
    split at hfound
    · rename_i row hrow
      obtain ⟨decoded, hdecoded, heq⟩ := Except.map_eq_ok_iff.mp (Except.mapError_eq_ok_iff.mp hfound)
      obtain ⟨-, rfl⟩ := cardFromRow_eq_ok_iff.mp hdecoded
      rw [EntityTables.current, hrow]
      exact heq
    · cases hfound
  · cases h
  · cases h

end BlazeList
