import BlazeList.Server.Implications
import BlazeList.Server.Root
import Mathlib.Data.String.Basic

/-!
# The storage operations

Every mutator runs in a transaction: it returns the new store, or an error and with it the old one.
The reads decode each row they return.
-/

namespace BlazeList

/-! ### Mutations -/

section Mutators

variable [Blake3]

def pushCardVersions (store : Store) (versions : List Card) (now : Int) :
    Except PushOpError Store :=
  match versions with
  | [] => .error (.domain .emptyChain)
  | first :: rest => do
      let written ← pushCardVersionsInner store (first :: rest)
      validateBatchImplications written [.cards (first :: rest)]
      let (rooted, sequence) ← (recomputeRootForIds written [first.id] now).mapError .ofSql
      return stampCardSequence rooted first.id sequence.val

def pushTagVersions (store : Store) (versions : List Tag) (now : Int) :
    Except PushOpError Store :=
  match versions with
  | [] => .error (.domain .emptyChain)
  | first :: rest => do
      let written ← pushTagVersionsInner store (first :: rest)
      validateBatchImplications written [.tags (first :: rest)]
      let (rooted, sequence) ← (recomputeRootForIds written [first.id] now).mapError .ofSql
      return stampTagSequence rooted first.id sequence.val

def deleteCard (store : Store) (id : Uuid) (now : Int) :
    Except StorageError (DeletedEntity × Store) := do
  let (deleted, written) ← deleteCardInner store id
  let (rooted, sequence) ← (recomputeRootForIds written [id] now).mapError .ofSql
  return (deleted, stampDeleteSequence rooted id sequence.val)

def deleteTag (store : Store) (id : Uuid) (now : Int) :
    Except StorageError (DeletedEntity × Store) := do
  let (deleted, written) ← deleteTagInner store id
  let (rooted, sequence) ← (recomputeRootForIds written [id] now).mapError .ofSql
  return (deleted, stampDeleteSequence rooted id sequence.val)

structure Affected where
  cardIds : List Uuid
  tagIds : List Uuid
  deletedIds : List Uuid

def Affected.empty : Affected := ⟨[], [], []⟩

/-- A chain is recorded under its first id. -/
def Affected.add (affected : Affected) : PushItem → Affected
  | .cards versions =>
      { affected with cardIds := affected.cardIds ++ versions.head?.toList.map Card.id }
  | .tags versions =>
      { affected with tagIds := affected.tagIds ++ versions.head?.toList.map Tag.id }
  | .deleteCard id => { affected with deletedIds := affected.deletedIds ++ [id] }
  | .deleteTag id => { affected with deletedIds := affected.deletedIds ++ [id] }

def Affected.all (affected : Affected) : List Uuid :=
  affected.cardIds ++ affected.tagIds ++ affected.deletedIds

def pushItem (store : Store) : PushItem → Except PushOpError Store
  | .cards versions => pushCardVersionsInner store versions
  | .tags versions => pushTagVersionsInner store versions
  | .deleteCard id => ((deleteCardInner store id).map Prod.snd).mapError .ofStorage
  | .deleteTag id => ((deleteTagInner store id).map Prod.snd).mapError .ofStorage

/-- The items in order; the first that fails is reported with its index. -/
def pushItems (store : Store) (affected : Affected) (index : Nat) :
    List PushItem → Except BatchError (Store × Affected)
  | [] => .ok (store, affected)
  | item :: rest => do
      let store ← (pushItem store item).mapError (BatchError.mk index)
      pushItems store (affected.add item) (index + 1) rest

def stampAffected (store : Store) (affected : Affected) (sequence : Nat) : Store :=
  let store := affected.cardIds.foldl (fun store id => stampCardSequence store id sequence) store
  let store := affected.tagIds.foldl (fun store id => stampTagSequence store id sequence) store
  affected.deletedIds.foldl (fun store id => stampDeleteSequence store id sequence) store

def pushBatch (store : Store) (items : List PushItem) (now : Int) : Except BatchError Store :=
  if items.isEmpty then
    .ok store
  else do
    let (written, affected) ← pushItems store .empty 0 items
    (validateBatchImplications written items).mapError (BatchError.mk 0)
    let (rooted, sequence) ← (recomputeRootForIds written affected.all now).mapError fun error =>
      ⟨0, .ofSql error⟩
    return stampAffected rooted affected sequence.val

end Mutators

/-! ### Reads -/

section Reads

variable {E : Type} [Stored E] [Blake3]

def fromRows (rows : List E) : Except StorageError (List E) :=
  rows.mapM fun row => (Stored.fromRow row).mapError .ofSql

def EntityTables.get (tables : EntityTables E) (id : Uuid) : Except StorageError (Option E) :=
  match tables.row? id with
  | some row => ((Stored.fromRow row.entity).map some).mapError .ofSql
  | none => .ok none

def limited {α : Type} (limit : Option Nat) (rows : List α) : List α :=
  limit.elim rows rows.take

/-- `ORDER BY count`. -/
def EntityTables.history (tables : EntityTables E) (id : Uuid) (limit : Option Nat) :
    Except StorageError (List E) :=
  fromRows (limited limit ((tables.lineage id).orderBy fun version => (Entity.count version).val))

def getCard (store : Store) (id : Uuid) : Except StorageError (Option Card) := store.cards.get id

def getTag (store : Store) (id : Uuid) : Except StorageError (Option Tag) := store.tags.get id

def getCardHistory (store : Store) (id : Uuid) (limit : Option Nat) :
    Except StorageError (List Card) :=
  store.cards.history id limit

def getTagHistory (store : Store) (id : Uuid) (limit : Option Nat) :
    Except StorageError (List Tag) :=
  store.tags.history id limit

def CardFilter.admits (filter : CardFilter) (card : Card) : Bool :=
  match filter with
  | .all => true
  | .blazed => card.blazed
  | .extinguished => ! card.blazed

def EntityTables.entities (tables : EntityTables E) : List E :=
  tables.live.rows.map EntityRow.entity

def byPriority (cards : List Card) : List Card := cards.orderBy fun card => - card.priority.val

def listCards (store : Store) (filter : CardFilter) (limit : Option Nat) :
    Except StorageError (List Card) :=
  fromRows (limited limit (byPriority (store.cards.entities.filter filter.admits)))

def listTags (store : Store) : Except StorageError (List Tag) :=
  fromRows (store.tags.entities.orderBy Tag.title)

def getRoot (store : Store) : RootState := store.rootState

def EntityTables.changedSince (tables : EntityTables E) (since : Nat) : List E :=
  (tables.live.rows.filter fun row => row.rootSequenceAt > since).map EntityRow.entity

def changesSince (store : Store) (since : Nat) : Except StorageError ChangeSet := do
  let cards ← fromRows (store.cards.changedSince since)
  let tags ← fromRows (store.tags.changedSince since)
  let deleted := (store.deletedEntities.rows.filter fun row => row.rootSequenceAt > since).map
    DeletedRow.entity
  return { cards, tags, deleted, root := store.rootState }

/-- A sequence that is not in the history is let through: it may predate the history table, or be the
initial state. -/
def getChangesSince (store : Store) (sequence : NonNegativeI64) (expectedHash : Hash) :
    Except StorageError ChangeSet :=
  match store.rootHistory.find? fun row => row.sequence = sequence with
  | some row =>
      if row.hash = expectedHash then
        changesSince store sequence.val
      else
        .error (.rootHashMismatch sequence row.hash)
  | none => changesSince store sequence.val

/-- One version joins the group of its entity, unless the group is full. -/
def groupVersion (limitPer : Option Nat) (groups : Std.TreeMap Uuid (List E)) (version : E) :
    Std.TreeMap Uuid (List E) :=
  let entry := groups.getD (Entity.id version) []
  if limitPer.any fun limit => limit ≤ entry.length then
    groups.insert (Entity.id version) entry
  else
    groups.insert (Entity.id version) (entry ++ [version])

/-- SQLite's limit on the variables of one statement. -/
def maxVariableNumber : Nat := 32766

def Bindable (ids : Option (List Uuid)) : Prop := ∀ list ∈ ids, list.length ≤ maxVariableNumber

instance (ids : Option (List Uuid)) : Decidable (Bindable ids) :=
  match ids with
  | none => isTrue fun _ h => nomatch h
  | some list => decidable_of_iff (list.length ≤ maxVariableNumber) (by simp [Bindable])

/-- `ORDER BY id, count`, for all entities or for those in `ids`. -/
def EntityTables.versionsOf (tables : EntityTables E) (ids : Option (List Uuid)) : List E :=
  (((tables.versions.rows.map VersionRow.entity).filter fun version =>
    ids.all fun ids => Entity.id version ∈ ids).orderBy fun version =>
      (Entity.count version).val).orderBy Entity.id

/-- One statement binds all ids, an id that is listed twice to two variables. -/
def EntityTables.selectVersions (tables : EntityTables E) (ids : Option (List Uuid)) :
    Except StorageError (List E) :=
  if Bindable ids then
    .ok (tables.versionsOf ids)
  else
    .error (.ofSql (.sqliteFailure "variable number must be between ?1 and ?32766"))

def EntityTables.allHistories (tables : EntityTables E) (limitPer : Option Nat)
    (ids : Option (List Uuid)) : Except StorageError (Std.TreeMap Uuid (List E)) := do
  let versions ← tables.selectVersions ids
  let rows ← fromRows versions
  return rows.foldl (groupVersion limitPer) ∅

def getAllCardHistories (store : Store) (limitPerCard : Option Nat) (cardIds : Option (List Uuid)) :
    Except StorageError (Std.TreeMap Uuid (List Card)) :=
  store.cards.allHistories limitPerCard cardIds

def getAllTagHistories (store : Store) (limitPerTag : Option Nat) (tagIds : Option (List Uuid)) :
    Except StorageError (Std.TreeMap Uuid (List Tag)) :=
  store.tags.allHistories limitPerTag tagIds

end Reads

/-! ### Runs -/

inductive Mutation where
  | pushCardVersions (versions : List Card)
  | pushTagVersions (versions : List Tag)
  | deleteCard (id : Uuid)
  | deleteTag (id : Uuid)
  | pushBatch (items : List PushItem)

def Mutation.items : Mutation → List PushItem
  | .pushCardVersions versions => [.cards versions]
  | .pushTagVersions versions => [.tags versions]
  | .deleteCard id => [.deleteCard id]
  | .deleteTag id => [.deleteTag id]
  | .pushBatch items => items

/-- A single delete relies on its referential checks alone. -/
def Mutation.validated : Mutation → Bool
  | .deleteCard _ | .deleteTag _ => false
  | _ => true

structure Call where
  mutation : Mutation
  now : Int

variable [Blake3]

def perform (store : Store) (call : Call) : Option Store :=
  match call.mutation with
  | .pushCardVersions versions => (pushCardVersions store versions call.now).toOption
  | .pushTagVersions versions => (pushTagVersions store versions call.now).toOption
  | .deleteCard id => (deleteCard store id call.now).toOption.map Prod.snd
  | .deleteTag id => (deleteTag store id call.now).toOption.map Prod.snd
  | .pushBatch items => (pushBatch store items call.now).toOption

/-- A call that fails is rolled back. -/
def execute (store : Store) (call : Call) : Store := (perform store call).getD store

end BlazeList
