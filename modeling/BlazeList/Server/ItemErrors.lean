import BlazeList.Server.Handler
import BlazeList.Server.SingleItem

/-!
# The errors of single requests and of batch items

An item that fails on its own fails in a batch, and with the error that corresponds, unless it is a
delete that finds nothing: the batch knows no such error.
-/

namespace BlazeList

def PushItem.request : PushItem → Request
  | .cards versions => .pushCardVersions versions
  | .tags versions => .pushTagVersions versions
  | .deleteCard id => .deleteCard id
  | .deleteTag id => .deleteTag id

/-- One error, told for a request and for an item of a batch. There are two ways to tell of an id that
is already deleted. -/
inductive Corresponds : ProtocolError → BatchItemError → Prop where
  | notFound : Corresponds .notFound .notFound
  | alreadyDeleted : Corresponds .alreadyDeleted .alreadyDeleted
  | alreadyDeletedPush : Corresponds .alreadyDeleted (.push .alreadyDeleted)
  | push (error : PushError) : Corresponds (.pushFailed error) (.push error)
  | internal : Corresponds .internal .internal

def PushItem.Missing (store : Store) : PushItem → Prop
  | .deleteCard id => store.isDeleted id = false ∧ ∀ row ∈ store.cards.live, row.entity.id ≠ id
  | .deleteTag id => store.isDeleted id = false ∧ ∀ row ∈ store.tags.live, row.entity.id ≠ id
  | .cards _ | .tags _ => False

def PushItem.Deletable (store : Store) : PushItem → Prop
  | .deleteCard id => store.isDeleted id = false ∧ ∃ row ∈ store.cards.live, row.entity.id = id
  | .deleteTag id =>
      store.isDeleted id = false ∧ (∃ row ∈ store.tags.live, row.entity.id = id) ∧
        (∀ row ∈ store.cards.live, id ∉ row.entity.tags) ∧
        ∀ row ∈ store.tags.live, row.entity.id ≠ id → id ∉ row.entity.implies
  | .cards _ | .tags _ => False

def Store.without (store : Store) : PushItem → Store
  | .deleteCard id => { store with cards := store.cards.remove id }
  | .deleteTag id => { store with tags := store.tags.remove id }
  | .cards _ | .tags _ => store

/-- When a failing item is told alike: it is no delete that finds nothing, and where the root cannot
move on, the validator, which only the batch runs, does not speak first. -/
structure ToldAlike (store : Store) (item : PushItem) : Prop where
  found : ¬item.Missing store
  quiet : item.Deletable store → store.Exhausted → ImplicationInvariant (store.without item)

section

variable [Blake3]

def FailsAlike (store : Store) (now : Int) (item : PushItem) : Prop :=
  ∀ error, (handleRequest store now item.request).2 = .error error →
    ∃ itemError, Corresponds error itemError ∧
      (handleRequest store now (.pushBatch [item])).2 = .error (.batchFailed 0 itemError)

def PushOpError.toItemError : PushOpError → BatchItemError
  | .domain error => .push error
  | .internal _ => .internal

omit [Blake3] in
theorem BatchError.toProtocol_mk (error : PushOpError) :
    (BatchError.mk 0 error).toProtocol = .batchFailed 0 error.toItemError := by
  cases error <;> rfl

/-! ### Pushes -/

theorem pushBatch_cards (store : Store) (versions : List Card) (now : Int) :
    pushBatch store [.cards versions] now =
      (pushCardVersions store versions now).mapError (BatchError.mk 0) := by
  cases versions with
  | nil => rfl
  | cons first rest =>
      have hpush : pushItem store (.cards (first :: rest)) =
          pushCardVersionsInner store (first :: rest) := rfl
      simp only [pushBatch, pushItems, pushCardVersions, hpush]
      cases pushCardVersionsInner store (first :: rest) with
      | error error => rfl
      | ok written =>
          cases hvalid : validateBatchImplications written [.cards (first :: rest)] with
          | error error => simp [bind, Except.bind, Except.mapError, hvalid]
          | ok _ =>
              have haffected : (Affected.empty.add (.cards (first :: rest))).all = [first.id] := rfl
              cases hroot : recomputeRootForIds written [first.id] now with
              | error error => simp [bind, Except.bind, Except.mapError, hvalid, haffected, hroot]
              | ok rooted =>
                  simp [bind, Except.bind, Except.mapError, hvalid, haffected, hroot]
                  rfl

theorem pushBatch_tags (store : Store) (versions : List Tag) (now : Int) :
    pushBatch store [.tags versions] now =
      (pushTagVersions store versions now).mapError (BatchError.mk 0) := by
  cases versions with
  | nil => rfl
  | cons first rest =>
      have hpush : pushItem store (.tags (first :: rest)) =
          pushTagVersionsInner store (first :: rest) := rfl
      simp only [pushBatch, pushItems, pushTagVersions, hpush]
      cases pushTagVersionsInner store (first :: rest) with
      | error error => rfl
      | ok written =>
          cases hvalid : validateBatchImplications written [.tags (first :: rest)] with
          | error error => simp [bind, Except.bind, Except.mapError, hvalid]
          | ok _ =>
              have haffected : (Affected.empty.add (.tags (first :: rest))).all = [first.id] := rfl
              cases hroot : recomputeRootForIds written [first.id] now with
              | error error => simp [bind, Except.bind, Except.mapError, hvalid, haffected, hroot]
              | ok rooted =>
                  simp [bind, Except.bind, Except.mapError, hvalid, haffected, hroot]
                  rfl

omit [Blake3] in
/-- A push error is the same on both ways. -/
theorem corresponds_push (error : PushOpError) :
    Corresponds error.toProtocol error.toItemError := by
  cases error with
  | domain error => exact .push error
  | internal message => exact .internal

theorem failsAlike_of_push {store : Store} {now : Int} {item : PushItem}
    {outcome : Except PushOpError Store}
    (hsingle : handleRequest store now item.request =
      answerMutation PushOpError.toProtocol store outcome)
    (hbatch : pushBatch store [item] now = outcome.mapError (BatchError.mk 0)) :
    FailsAlike store now item := by
  intro error herror
  rw [hsingle] at herror
  cases outcome with
  | ok after => cases herror
  | error failure =>
      cases herror
      refine ⟨failure.toItemError, corresponds_push failure, ?_⟩
      simp only [handleRequest, hbatch, Except.mapError, answerMutation, BatchError.toProtocol_mk]

/-! ### Deletes

Both deletes go on in the same way after their checks. -/

def finishDelete (id : Uuid) (now : Int) (written : DeletedEntity × Store) :
    Except StorageError (DeletedEntity × Store) := do
  let (rooted, sequence) ← (recomputeRootForIds written.2 [id] now).mapError .ofSql
  return (written.1, stampDeleteSequence rooted id sequence.val)

structure IsDelete (store : Store) (now : Int) (item : PushItem) (id : Uuid)
    (checked : Except StorageError (DeletedEntity × Store)) : Prop where
  single : handleRequest store now item.request =
    answerDelete store (checked >>= finishDelete id now)
  written : pushItem store item = (checked.map Prod.snd).mapError .ofStorage
  affected : (Affected.empty.add item).all = [id]
  missing : checked = .error .notFound ↔ item.Missing store
  deletable : (∃ result, checked = .ok result) ↔ item.Deletable store
  refused : ∀ error, checked = .error error → error ≠ .notFound →
    Corresponds error.toProtocol (PushOpError.ofStorage error).toItemError
  result : ∀ deleted after, checked = .ok (deleted, after) →
    ∃ deletedEntities, after = { store.without item with deletedEntities }

omit [Blake3] in
theorem checkExists_eq_notFound_iff {E : Type} [Stored E] {store : Store} {tables : EntityTables E}
    {id : Uuid} :
    checkExists store tables id = .error .notFound ↔
      store.isDeleted id = false ∧ ∀ row ∈ tables.live, Entity.id row.entity ≠ id := by
  simp [checkExists, Except.bind_eq_error_iff, Except.ensure_eq_error_iff, List.countP_eq_zero,
    Table.mem_def]

omit [Blake3] in
theorem checkExists_error {E : Type} [Stored E] {store : Store} {tables : EntityTables E} {id : Uuid}
    {error : StorageError} (h : checkExists store tables id = .error error) :
    error = .alreadyDeleted ∨ error = .notFound := by
  simp only [checkExists, Except.bind_eq_error_iff, Except.ensure_eq_error_iff] at h
  obtain ⟨-, rfl⟩ | ⟨-, -, -, rfl⟩ := h
  · exact .inl rfl
  · exact .inr rfl

theorem isDelete_card (store : Store) (now : Int) (id : Uuid) :
    IsDelete store now (.deleteCard id) id (deleteCardInner store id) where
  single := rfl
  written := rfl
  affected := rfl
  missing := by
    simp only [deleteCardInner, Except.bind_eq_error_iff, checkExists_eq_notFound_iff, pure,
      Except.pure, reduceCtorEq, and_false, exists_false, or_false]
    rfl
  deletable := by
    simp only [Prod.exists, deleteCardInner_eq_ok_iff]
    constructor
    · rintro ⟨-, -, hdeleted, hexists, -, -⟩
      exact ⟨hdeleted, hexists⟩
    · rintro ⟨hdeleted, hexists⟩
      exact ⟨_, _, hdeleted, hexists, rfl, rfl⟩
  refused error herror hfound := by
    simp only [deleteCardInner, Except.bind_eq_error_iff, pure, Except.pure, reduceCtorEq, and_false,
      exists_false, or_false] at herror
    obtain rfl | rfl := checkExists_error herror
    · exact .alreadyDeletedPush
    · exact absurd rfl hfound
  result deleted after hresult := by
    obtain ⟨-, -, -, rfl⟩ := deleteCardInner_eq_ok_iff.mp hresult
    exact ⟨_, rfl⟩

theorem isDelete_tag (store : Store) (now : Int) (id : Uuid) :
    IsDelete store now (.deleteTag id) id (deleteTagInner store id) where
  single := rfl
  written := rfl
  affected := rfl
  missing := by
    simp only [deleteTagInner, Except.bind_eq_error_iff, checkExists_eq_notFound_iff,
      Except.ensure_eq_error_iff, pure, Except.pure, reduceCtorEq, and_false, exists_false, or_false]
    rfl
  deletable := by
    simp only [Prod.exists, deleteTagInner_eq_ok_iff]
    constructor
    · rintro ⟨-, -, hdeleted, hexists, hcards, htags, -, -⟩
      exact ⟨hdeleted, hexists, hcards, htags⟩
    · rintro ⟨hdeleted, hexists, hcards, htags⟩
      exact ⟨_, _, hdeleted, hexists, hcards, htags, rfl, rfl⟩
  refused error herror hfound := by
    simp only [deleteTagInner, Except.bind_eq_error_iff, Except.ensure_eq_error_iff, pure,
      Except.pure, reduceCtorEq, and_false, exists_false, or_false] at herror
    obtain herror | ⟨-, -, ⟨-, rfl⟩ | ⟨-, -, -, rfl⟩⟩ := herror
    · obtain rfl | rfl := checkExists_error herror
      · exact .alreadyDeletedPush
      · exact absurd rfl hfound
    · exact .push _
    · exact .push _
  result deleted after hresult := by
    obtain ⟨-, -, -, -, -, rfl⟩ := deleteTagInner_eq_ok_iff.mp hresult
    exact ⟨_, rfl⟩

omit [Blake3] in
theorem validateBatchImplications_error {store : Store} {items : List PushItem} {error : PushOpError}
    (h : validateBatchImplications store items = .error error) : ∃ push, error = .domain push := by
  unfold validateBatchImplications at h
  dsimp only at h
  split at h
  · exact ⟨_, (Except.error.inj h).symm⟩
  · split at h
    · exact ⟨_, (Except.error.inj h).symm⟩
    · split at h
      · exact ⟨_, (Except.error.inj h).symm⟩
      · contradiction

namespace IsDelete

variable {store after : Store} {now : Int} {item : PushItem} {id : Uuid}
  {checked : Except StorageError (DeletedEntity × Store)} {deleted : DeletedEntity}

theorem pushItem_eq_ok (h : IsDelete store now item id checked)
    (hchecked : checked = .ok (deleted, after)) : pushItem store item = .ok after := by
  rw [h.written, hchecked]
  rfl

/-- The validator of the batch looks at the store without what was deleted. -/
theorem valid_iff (h : IsDelete store now item id checked)
    (hchecked : checked = .ok (deleted, after)) :
    validateBatchImplications after [item] = .ok () ↔
      ImplicationInvariant (store.without item) := by
  have hitem := h.pushItem_eq_ok hchecked
  have hwrites : Writes store [item] after :=
    writes_cons.mpr ⟨after, hitem, writes_nil.mpr rfl⟩
  rw [validateBatchImplications_eq_ok_iff hwrites.tags_current hwrites.cards_current]
  obtain ⟨deletedEntities, rfl⟩ := h.result deleted after hchecked
  exact ⟨fun hinv => hinv.congr rfl rfl, fun hinv => hinv.congr rfl rfl⟩

theorem exhausted_iff (h : IsDelete store now item id checked)
    (hchecked : checked = .ok (deleted, after)) : after.Exhausted ↔ store.Exhausted := by
  obtain ⟨deletedEntities, rfl⟩ := h.result deleted after hchecked
  cases item <;> exact Iff.rfl

/-- The batch after the checks: the validator first, then the root. -/
theorem pushBatch_eq (h : IsDelete store now item id checked)
    (hchecked : checked = .ok (deleted, after)) :
    pushBatch store [item] now = (do
      (validateBatchImplications after [item]).mapError (BatchError.mk 0)
      let (rooted, sequence) ← (recomputeRootForIds after [id] now).mapError fun error =>
        ⟨0, .ofSql error⟩
      return stampAffected rooted (Affected.empty.add item) sequence.val) := by
  simp only [pushBatch, List.isEmpty_cons, Bool.false_eq_true, if_false, pushItems,
    h.pushItem_eq_ok hchecked, Except.mapError, ← h.affected]
  rfl

/-- The checks refuse the delete. -/
theorem failsAlike_of_error (h : IsDelete store now item id checked) {failure : StorageError}
    (hchecked : checked = .error failure) :
    FailsAlike store now item ↔ failure ≠ .notFound := by
  have hsingle : (handleRequest store now item.request).2 = .error failure.toProtocol := by
    rw [h.single, hchecked]
    rfl
  have hbatch : (handleRequest store now (.pushBatch [item])).2 =
      .error (.batchFailed 0 (PushOpError.ofStorage failure).toItemError) := by
    simp only [handleRequest, pushBatch, List.isEmpty_cons, Bool.false_eq_true, if_false, pushItems,
      h.written, hchecked]
    exact congrArg Response.error (BatchError.toProtocol_mk _)
  constructor
  · rintro halike rfl
    obtain ⟨itemError, hcorresponds, hitemError⟩ := halike _ hsingle
    rw [hbatch] at hitemError
    cases hitemError
    cases hcorresponds
  · intro hfound error herror
    obtain rfl := Response.error.inj (hsingle.symm.trans herror)
    exact ⟨_, h.refused failure hchecked hfound, hbatch⟩

/-- The checks let the delete pass. -/
theorem failsAlike_of_ok (h : IsDelete store now item id checked)
    (hchecked : checked = .ok (deleted, after)) :
    FailsAlike store now item ↔
      (store.Exhausted → ImplicationInvariant (store.without item)) := by
  have hsingle : handleRequest store now item.request =
      answerDelete store (finishDelete id now (deleted, after)) := by
    rw [h.single, hchecked]
    rfl
  by_cases hexhausted : store.Exhausted
  · -- the root cannot move on
    obtain ⟨sqlError, hroot⟩ : ∃ e, recomputeRootForIds after [id] now = .error e := by
      cases hroot : recomputeRootForIds after [id] now with
      | error e => exact ⟨e, rfl⟩
      | ok result =>
          have hfree := exists_recomputeRootForIds_iff.mp ⟨result, hroot⟩
          exact absurd ((h.exhausted_iff hchecked).mpr hexhausted) hfree
    have hinternal : (handleRequest store now item.request).2 = .error .internal := by
      rw [hsingle, finishDelete, hroot]
      rfl
    cases hvalid : validateBatchImplications after [item] with
    | ok _ =>
        have hinv := (h.valid_iff hchecked).mp hvalid
        refine iff_of_true ?_ fun _ => hinv
        intro error herror
        obtain rfl := Response.error.inj (hinternal.symm.trans herror)
        refine ⟨.internal, .internal, ?_⟩
        simp only [handleRequest, h.pushBatch_eq hchecked, hvalid, hroot]
        rfl
    | error refusal =>
        have hbroken : ¬ImplicationInvariant (store.without item) := by
          rw [← h.valid_iff hchecked, hvalid]
          intro hok
          cases hok
        refine iff_of_false ?_ fun hinv => hbroken (hinv hexhausted)
        intro halike
        obtain ⟨itemError, hcorresponds, hitemError⟩ := halike _ hinternal
        obtain ⟨push, rfl⟩ := validateBatchImplications_error hvalid
        simp only [handleRequest, h.pushBatch_eq hchecked, hvalid] at hitemError
        cases hitemError
        cases hcorresponds
  · -- the single delete succeeds
    obtain ⟨result, hroot⟩ := exists_recomputeRootForIds_iff.mpr
      fun hafter => hexhausted ((h.exhausted_iff hchecked).mp hafter)
    refine iff_of_true ?_ fun hafter => absurd hafter hexhausted
    intro error herror
    rw [hsingle, finishDelete, hroot] at herror
    cases herror

theorem failsAlike_iff (h : IsDelete store now item id checked) :
    FailsAlike store now item ↔ ToldAlike store item := by
  cases hchecked : checked with
  | error failure =>
      have hnotDeletable : ¬item.Deletable store := by
        rw [← h.deletable, hchecked]
        exact nofun
      rw [h.failsAlike_of_error hchecked]
      constructor
      · intro hfound
        refine ⟨fun hmissing => hfound ?_, fun hdeletable => absurd hdeletable hnotDeletable⟩
        exact Except.error.inj (hchecked.symm.trans (h.missing.mpr hmissing))
      · rintro htold rfl
        exact htold.found (h.missing.mp hchecked)
  | ok result =>
      obtain ⟨deleted, after⟩ := result
      have hdeletable := h.deletable.mp ⟨_, hchecked⟩
      have hfound : ¬item.Missing store := by
        rw [← h.missing, hchecked]
        exact nofun
      rw [h.failsAlike_of_ok hchecked]
      exact ⟨fun hquiet => ⟨hfound, fun _ => hquiet⟩, fun htold => htold.quiet hdeletable⟩

end IsDelete

/-- In any store, a failing item is told alike on its own and in a batch exactly when it is no delete
that finds nothing, and no delete that the validator refuses before the root is found exhausted. -/
theorem failsAlike_iff_toldAlike (store : Store) (now : Int) (item : PushItem) :
    FailsAlike store now item ↔ ToldAlike store item := by
  cases item with
  | cards versions =>
      have halike : FailsAlike store now (.cards versions) :=
        failsAlike_of_push rfl (pushBatch_cards store versions now)
      exact iff_of_true halike ⟨id, fun h => h.elim⟩
  | tags versions =>
      have halike : FailsAlike store now (.tags versions) :=
        failsAlike_of_push rfl (pushBatch_tags store versions now)
      exact iff_of_true halike ⟨id, fun h => h.elim⟩
  | deleteCard id => exact (isDelete_card store now id).failsAlike_iff
  | deleteTag id => exact (isDelete_tag store now id).failsAlike_iff

omit [Blake3] in
/-- Where the invariant holds, only the missing id is told otherwise. -/
theorem toldAlike_iff_of_invariant {store : Store} (hinv : ImplicationInvariant store)
    (item : PushItem) : ToldAlike store item ↔ ¬item.Missing store := by
  refine ⟨ToldAlike.found, fun hfound => ⟨hfound, fun hdeletable _ => ?_⟩⟩
  cases item with
  | cards versions => exact hinv
  | tags versions => exact hinv
  | deleteCard id => exact hinv.removeCard id store.deletedEntities
  | deleteTag id =>
      obtain ⟨-, -, -, himplied⟩ := hdeletable
      exact hinv.removeTag store.deletedEntities himplied

theorem failsAlike_run (calls : List Call) (now : Int) (item : PushItem) :
    let store := Run.after execute initSchema calls
    FailsAlike store now item ↔ ¬item.Missing store := by
  intro store
  rw [failsAlike_iff_toldAlike, toldAlike_iff_of_invariant (implicationInvariant_run calls)]

end

theorem not_failsAlike_missing :
    let _ := polynomialBlake3
    ¬FailsAlike initSchema 0 (.deleteCard 1) := by
  intro _ halike
  obtain ⟨itemError, hcorresponds, hitemError⟩ := halike .notFound rfl
  cases hitemError
  cases hcorresponds

end BlazeList
