import BlazeList.Server.Schema
import Mathlib.Logic.Function.Basic

/-!
# Pushes and deletes inside a transaction

What one item of a request writes, before the root is recomputed. Cards and tags share every check of
a pushed chain but the one for a duplicate priority.
-/

namespace BlazeList

/-! ### Pushing a chain of versions -/

section Push

variable {E : Type} [Stored E] [Blake3]

def insertVersions (table : Table (versionConflict (E := E))) :
    List E → Except SqlError (Table (versionConflict (E := E)))
  | [] => .ok table
  | v :: rest =>
      match table.insert? ⟨v, 0⟩ with
      | some table => insertVersions table rest
      | none => .error (.sqliteFailure ("UNIQUE constraint failed: " ++ Stored.versionKey E))

/-- The first version must continue the current row, or start at the zero hash without one. -/
def checkAncestor (tables : EntityTables E) (first : E) : Except PushOpError Unit :=
  match tables.row? (Entity.id first) with
  | some row =>
      if Entity.ancestorHash first = Entity.hash row.entity then
        .ok ()
      else do
        let latest ← (Stored.fromRow row.entity).mapError .ofSql
        .error (.domain (Stored.ancestorMismatch latest))
  | none => .ensure (Entity.ancestorHash first = zeroHash) (.domain .hashVerificationFailed)

def Linked (a b : E) : Prop := Entity.ancestorHash b = Entity.hash a

instance : DecidableRel (Linked : E → E → Prop) := fun _ _ => inferInstanceAs (Decidable (_ = _))

/-- The checks on a chain and the inserts of its versions. Deletion and ancestor are looked up for the
first version's id alone. Returns the last version and the new version table. -/
def acceptVersions (store : Store) (tables : EntityTables E) (versions : List E) :
    Except PushOpError (E × Table (versionConflict (E := E))) :=
  match versions with
  | [] => .error (.domain .emptyChain)
  | first :: rest => do
      Except.ensure ((first :: rest).all Entity.verify = true) (.domain .hashVerificationFailed)
      Except.ensure (store.isDeleted (Entity.id first) = false) (.domain .alreadyDeleted)
      checkAncestor tables first
      Except.ensure ((first :: rest).IsChain Linked) (.domain .hashVerificationFailed)
      let table ← (insertVersions tables.versions (first :: rest)).mapError .ofSql
      return ((first :: rest).getLast (List.cons_ne_nil first rest), table)

def pushCardVersionsInner (store : Store) (versions : List Card) : Except PushOpError Store := do
  let (latest, cardVersions) ← acceptVersions store store.cards versions
  match store.cards.live.rows.find? fun row =>
      row.entity.priority = latest.priority ∧ row.entity.id ≠ latest.id with
  | some row => .error (.domain (.duplicatePriority row.entity.id row.entity.priority))
  | none =>
      .ok { store with
        cards :=
          { live := store.cards.live.replace ⟨latest, 0, bucketOf latest.id⟩
            versions := cardVersions } }

def pushTagVersionsInner (store : Store) (versions : List Tag) : Except PushOpError Store := do
  let (latest, tagVersions) ← acceptVersions store store.tags versions
  .ok { store with
    tags :=
      { live := store.tags.live.replace ⟨latest, 0, bucketOf latest.id⟩
        versions := tagVersions } }

/-- The chain `versions`, from `first` to `latest`, was pushed and took `before` to `after`. -/
structure Pushed (store : Store) (before : EntityTables E) (versions : List E)
    (first latest : E) (after : EntityTables E) : Prop where
  head : versions.head? = some first
  last : versions.getLast? = some latest
  verified : ∀ v ∈ versions, Entity.verify v = true
  notDeleted : store.isDeleted (Entity.id first) = false
  ancestor : Entity.ancestorHash first =
    ((before.current (Entity.id first)).map Entity.hash).getD zeroHash
  linked : versions.IsChain Linked
  unclashed : ∀ row ∈ before.live, Stored.clash row.entity latest →
    Entity.id row.entity = Entity.id latest
  versions_rows : after.versions.rows = before.versions.rows ++ versions.map fun v => ⟨v, 0⟩
  live_eq : after.live = before.live.replace ⟨latest, 0, bucketOf (Entity.id latest)⟩

omit [Blake3] in
theorem insertVersions_eq_ok_iff {table after : Table (versionConflict (E := E))}
    {versions : List E} :
    insertVersions table versions = .ok after ↔
      after.rows = table.rows ++ versions.map fun v => ⟨v, 0⟩ := by
  induction versions generalizing table with
  | nil =>
      simp only [insertVersions, Except.ok.injEq, List.map_nil, List.append_nil]
      exact ⟨fun h => h ▸ rfl, fun h => Table.ext h.symm⟩
  | cons v rest ih =>
      unfold insertVersions
      cases hinsert : table.insert? ⟨v, 0⟩ with
      | some inserted =>
          obtain ⟨-, hrows⟩ := Table.insert?_eq_some_iff.mp hinsert
          simp [ih, hrows]
      | none =>
          obtain ⟨other, hother, hconflict⟩ := Table.insert?_eq_none_iff.mp hinsert
          simp only [reduceCtorEq, List.map_cons, false_iff]
          intro hrows
          have hunique := after.unique
          rw [hrows, List.pairwise_append] at hunique
          exact hunique.2.2 other hother ⟨v, 0⟩ List.mem_cons_self hconflict

theorem checkAncestor_eq_ok_iff {tables : EntityTables E} {first : E} {u : Unit} :
    checkAncestor tables first = .ok u ↔
      Entity.ancestorHash first =
        ((tables.current (Entity.id first)).map Entity.hash).getD zeroHash := by
  unfold checkAncestor EntityTables.current
  cases tables.row? (Entity.id first) with
  | none => simp
  | some row =>
      by_cases heq : Entity.ancestorHash first = Entity.hash row.entity <;> simp [heq]

theorem acceptVersions_eq_ok_iff {store : Store} {tables : EntityTables E} {versions : List E}
    {latest : E} {table : Table (versionConflict (E := E))} :
    acceptVersions store tables versions = .ok (latest, table) ↔
      ∃ first, versions.head? = some first ∧ versions.getLast? = some latest ∧
        (∀ v ∈ versions, Entity.verify v = true) ∧ store.isDeleted (Entity.id first) = false ∧
        Entity.ancestorHash first =
          ((tables.current (Entity.id first)).map Entity.hash).getD zeroHash ∧
        versions.IsChain Linked ∧
        table.rows = tables.versions.rows ++ versions.map fun v => ⟨v, 0⟩ := by
  cases versions with
  | nil => simp [acceptVersions]
  | cons first rest =>
      simp only [acceptVersions, Except.bind_eq_ok_iff, Except.ensure_eq_ok_iff,
        checkAncestor_eq_ok_iff, Except.mapError_eq_ok_iff, insertVersions_eq_ok_iff, exists_const,
        pure, Except.pure, Except.ok.injEq, Prod.mk.injEq, List.all_eq_true, List.head?_cons,
        Option.some.injEq, exists_eq_left', List.getLast?_eq_some_getLast (List.cons_ne_nil first rest)]
      constructor
      · rintro ⟨hverified, hdeleted, hancestor, hlinked, table, hrows, hlast, rfl⟩
        exact ⟨hlast, hverified, hdeleted, hancestor, hlinked, hrows⟩
      · rintro ⟨hlast, hverified, hdeleted, hancestor, hlinked, hrows⟩
        exact ⟨hverified, hdeleted, hancestor, hlinked, table, hrows, hlast, rfl⟩

end Push

section

variable [Blake3]

theorem pushCardVersionsInner_eq_ok_iff {store after : Store} {versions : List Card} :
    pushCardVersionsInner store versions = .ok after ↔
      ∃ cards first latest, Pushed store store.cards versions first latest cards ∧
        after = { store with cards } := by
  simp only [pushCardVersionsInner, Except.bind_eq_ok_iff, Prod.exists, acceptVersions_eq_ok_iff]
  constructor
  · rintro ⟨latest, table, ⟨first, hhead, hlast, hverified, hdeleted, hancestor, hlinked, hrows⟩, h⟩
    split at h
    · simp at h
    · rename_i hfind
      refine ⟨_, first, latest, ⟨hhead, hlast, hverified, hdeleted, hancestor, hlinked, ?_, hrows, rfl⟩,
        (Except.ok.inj h).symm⟩
      intro row hrow hclash
      by_contra hid
      have hpriority : row.entity.priority = latest.priority := hclash
      exact List.find?_eq_none.mp hfind row hrow (decide_eq_true ⟨hpriority, hid⟩)
  · rintro ⟨cards, first, latest, hpushed, rfl⟩
    refine ⟨latest, cards.versions, ⟨first, hpushed.head, hpushed.last, hpushed.verified,
      hpushed.notDeleted, hpushed.ancestor, hpushed.linked, hpushed.versions_rows⟩, ?_⟩
    have hfind : store.cards.live.rows.find? (fun row =>
        row.entity.priority = latest.priority ∧ row.entity.id ≠ latest.id) = none := by
      refine List.find?_eq_none.mpr fun row hrow hboth => ?_
      obtain ⟨hpriority, hid⟩ := of_decide_eq_true hboth
      exact hid (hpushed.unclashed row hrow hpriority)
    rw [hfind]
    obtain ⟨live, table⟩ := cards
    have hlive : live = _ := hpushed.live_eq
    rw [hlive]
    rfl

theorem pushTagVersionsInner_eq_ok_iff {store after : Store} {versions : List Tag} :
    pushTagVersionsInner store versions = .ok after ↔
      ∃ tags first latest, Pushed store store.tags versions first latest tags ∧
        after = { store with tags } := by
  simp only [pushTagVersionsInner, Except.bind_eq_ok_iff, Prod.exists, acceptVersions_eq_ok_iff]
  constructor
  · rintro ⟨latest, table, ⟨first, hhead, hlast, hverified, hdeleted, hancestor, hlinked, hrows⟩, h⟩
    exact ⟨_, first, latest, ⟨hhead, hlast, hverified, hdeleted, hancestor, hlinked,
      fun row _ hclash => hclash.elim, hrows, rfl⟩, (Except.ok.inj h).symm⟩
  · rintro ⟨tags, first, latest, hpushed, rfl⟩
    refine ⟨latest, tags.versions, ⟨first, hpushed.head, hpushed.last, hpushed.verified,
      hpushed.notDeleted, hpushed.ancestor, hpushed.linked, hpushed.versions_rows⟩, ?_⟩
    obtain ⟨live, table⟩ := tags
    have hlive : live = _ := hpushed.live_eq
    rw [hlive]
    rfl

end

/-! ### Deleting -/

section Delete

variable {E : Type} [Stored E]

def checkExists (store : Store) (tables : EntityTables E) (id : Uuid) :
    Except StorageError Unit := do
  Except.ensure (store.isDeleted id = false) .alreadyDeleted
  Except.ensure (tables.live.rows.countP (fun row => Entity.id row.entity = id) ≠ 0) .notFound

def EntityTables.remove (tables : EntityTables E) (id : Uuid) : EntityTables E where
  live := tables.live.delete fun row => Entity.id row.entity = id
  versions := tables.versions.delete fun row => Entity.id row.entity = id

variable [Blake3]

def buryRow (deletedEntities : Table deletedConflict) (deleted : DeletedEntity) :
    Table deletedConflict :=
  deletedEntities.replace ⟨deleted, 0, bucketOf deleted.id⟩

def deleteCardInner (store : Store) (id : Uuid) : Except StorageError (DeletedEntity × Store) := do
  checkExists store store.cards id
  let deleted := DeletedEntity.new id
  return (deleted, { store with
    cards := store.cards.remove id
    deletedEntities := buryRow store.deletedEntities deleted })

def referencingCardIds (store : Store) (id : Uuid) : List Uuid :=
  (store.cards.live.rows.filter fun row => id ∈ row.entity.tags).map (·.entity.id)

def referencingTagIds (store : Store) (id : Uuid) : List Uuid :=
  (store.tags.live.rows.filter fun row => row.entity.id ≠ id ∧ id ∈ row.entity.implies).map
    (·.entity.id)

def deleteTagInner (store : Store) (id : Uuid) : Except StorageError (DeletedEntity × Store) := do
  checkExists store store.tags id
  Except.ensure (referencingCardIds store id = [])
    (.orphanedTagReference id (referencingCardIds store id))
  -- a card that holds an implying tag could never be compliant again
  Except.ensure (referencingTagIds store id = [])
    (.orphanedTagImpliesReference id (referencingTagIds store id))
  let deleted := DeletedEntity.new id
  return (deleted, { store with
    tags := store.tags.remove id
    deletedEntities := buryRow store.deletedEntities deleted })

omit [Blake3] in
theorem checkExists_eq_ok_iff {store : Store} {tables : EntityTables E} {id : Uuid} {u : Unit} :
    checkExists store tables id = .ok u ↔
      store.isDeleted id = false ∧ ∃ row ∈ tables.live, Entity.id row.entity = id := by
  simp [checkExists, List.countP_eq_zero, Table.mem_def]

theorem deleteCardInner_eq_ok_iff {store after : Store} {id : Uuid} {deleted : DeletedEntity} :
    deleteCardInner store id = .ok (deleted, after) ↔
      store.isDeleted id = false ∧ (∃ row ∈ store.cards.live, row.entity.id = id) ∧
        deleted = DeletedEntity.new id ∧
        after = { store with
          cards := store.cards.remove id
          deletedEntities := buryRow store.deletedEntities (DeletedEntity.new id) } := by
  simp only [deleteCardInner, Except.bind_eq_ok_iff, checkExists_eq_ok_iff, exists_const, pure,
    Except.pure, Except.ok.injEq, Prod.mk.injEq, and_assoc]
  constructor
  · rintro ⟨hdeleted, hexists, rfl, rfl⟩
    exact ⟨hdeleted, hexists, rfl, rfl⟩
  · rintro ⟨hdeleted, hexists, rfl, rfl⟩
    exact ⟨hdeleted, hexists, rfl, rfl⟩

theorem deleteTagInner_eq_ok_iff {store after : Store} {id : Uuid} {deleted : DeletedEntity} :
    deleteTagInner store id = .ok (deleted, after) ↔
      store.isDeleted id = false ∧ (∃ row ∈ store.tags.live, row.entity.id = id) ∧
        (∀ row ∈ store.cards.live, id ∉ row.entity.tags) ∧
        (∀ row ∈ store.tags.live, row.entity.id ≠ id → id ∉ row.entity.implies) ∧
        deleted = DeletedEntity.new id ∧
        after = { store with
          tags := store.tags.remove id
          deletedEntities := buryRow store.deletedEntities (DeletedEntity.new id) } := by
  have hcards : referencingCardIds store id = [] ↔ ∀ row ∈ store.cards.live, id ∉ row.entity.tags := by
    simp [referencingCardIds, Table.mem_def]
  have htags : referencingTagIds store id = [] ↔
      ∀ row ∈ store.tags.live, row.entity.id ≠ id → id ∉ row.entity.implies := by
    simp [referencingTagIds, Table.mem_def]
  simp only [deleteTagInner, Except.bind_eq_ok_iff, checkExists_eq_ok_iff, Except.ensure_eq_ok_iff,
    exists_const, pure, Except.pure, Except.ok.injEq, Prod.mk.injEq, and_assoc, hcards, htags]
  constructor
  · rintro ⟨hdeleted, hexists, hreferences, himplied, rfl, rfl⟩
    exact ⟨hdeleted, hexists, hreferences, himplied, rfl, rfl⟩
  · rintro ⟨hdeleted, hexists, hreferences, himplied, rfl, rfl⟩
    exact ⟨hdeleted, hexists, hreferences, himplied, rfl, rfl⟩

end Delete

/-! ### Stamping -/

section Stamp

variable {E : Type} [Stored E]

def EntityRow.stamp (id : Uuid) (sequence : Nat) (row : EntityRow E) : EntityRow E :=
  if Entity.id row.entity = id then { row with rootSequenceAt := sequence } else row

/-- A version that carries a stamp keeps it. -/
def VersionRow.stamp (id : Uuid) (sequence : Nat) (row : VersionRow E) : VersionRow E :=
  if Entity.id row.entity = id ∧ row.rootSequenceAt = 0 then
    { row with rootSequenceAt := sequence }
  else
    row

def DeletedRow.stamp (id : Uuid) (sequence : Nat) (row : DeletedRow) : DeletedRow :=
  if row.entity.id = id then { row with rootSequenceAt := sequence } else row

@[simp]
theorem EntityRow.stamp_entity (id : Uuid) (sequence : Nat) (row : EntityRow E) :
    (row.stamp id sequence).entity = row.entity := by
  unfold EntityRow.stamp
  split <;> rfl

@[simp]
theorem EntityRow.stamp_bucket (id : Uuid) (sequence : Nat) (row : EntityRow E) :
    (row.stamp id sequence).bucket = row.bucket := by
  unfold EntityRow.stamp
  split <;> rfl

@[simp]
theorem VersionRow.stamp_entity (id : Uuid) (sequence : Nat) (row : VersionRow E) :
    (row.stamp id sequence).entity = row.entity := by
  unfold VersionRow.stamp
  split <;> rfl

@[simp]
theorem DeletedRow.stamp_entity (id : Uuid) (sequence : Nat) (row : DeletedRow) :
    (row.stamp id sequence).entity = row.entity := by
  unfold DeletedRow.stamp
  split <;> rfl

@[simp]
theorem DeletedRow.stamp_bucket (id : Uuid) (sequence : Nat) (row : DeletedRow) :
    (row.stamp id sequence).bucket = row.bucket := by
  unfold DeletedRow.stamp
  split <;> rfl

def EntityTables.stamp (tables : EntityTables E) (id : Uuid) (sequence : Nat) : EntityTables E where
  live := tables.live.update (EntityRow.stamp id sequence) fun a b h => by
    simpa [liveConflict] using h
  versions := tables.versions.update (VersionRow.stamp id sequence) fun a b h => by
    simpa [versionConflict] using h

def stampDeleted (deletedEntities : Table deletedConflict) (id : Uuid) (sequence : Nat) :
    Table deletedConflict :=
  deletedEntities.update (DeletedRow.stamp id sequence) fun a b h => by
    simpa [deletedConflict] using h

def stampCardSequence (store : Store) (id : Uuid) (sequence : Nat) : Store :=
  { store with cards := store.cards.stamp id sequence }

def stampTagSequence (store : Store) (id : Uuid) (sequence : Nat) : Store :=
  { store with tags := store.tags.stamp id sequence }

def stampDeleteSequence (store : Store) (id : Uuid) (sequence : Nat) : Store :=
  { store with deletedEntities := stampDeleted store.deletedEntities id sequence }

end Stamp

end BlazeList
