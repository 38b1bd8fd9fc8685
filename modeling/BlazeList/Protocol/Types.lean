import BlazeList.Protocol.Entity

/-!
# Requests, change sets and push errors
-/

namespace BlazeList

inductive PushItem where
  | cards (versions : List Card)
  | tags (versions : List Tag)
  | deleteCard (id : Uuid)
  | deleteTag (id : Uuid)
  deriving DecidableEq

inductive PushError where
  | cardAncestorMismatch (latest : Card)
  | tagAncestorMismatch (latest : Tag)
  | alreadyDeleted
  | orphanedTagReference (tagId : Uuid) (referencingCardIds : List Uuid)
  | hashVerificationFailed
  | emptyChain
  | duplicatePriority (conflictingId : Uuid) (priority : I64)
  | tagImplicationViolation (cardId : Uuid) (missing : List Uuid)
  | tagImplicationCycle (cycle : List Uuid)
  | orphanedTagImpliesReference (tagId : Uuid) (referencingTagIds : List Uuid)
  | tagImpliesUnknown (tagId : Uuid) (missing : List Uuid)
  deriving DecidableEq

structure RootState where
  hash : Hash
  sequence : NonNegativeI64
  deriving DecidableEq

def RootState.empty : RootState := ⟨zeroHash, .min⟩

inductive CardFilter where
  | all
  | blazed
  | extinguished
  deriving DecidableEq

structure ChangeSet where
  cards : List Card
  tags : List Tag
  deleted : List DeletedEntity
  root : RootState
  deriving DecidableEq

/-! ### Requests and responses -/

inductive BatchItemError where
  | push (error : PushError)
  | notFound
  | alreadyDeleted
  | internal

inductive ProtocolError where
  | notFound
  | alreadyDeleted
  | pushFailed (error : PushError)
  | batchFailed (index : Nat) (error : BatchItemError)
  | rootHashMismatch (sequence : NonNegativeI64) (expectedHash : Hash)
  | unsupportedRequest
  | internal

/-- The mutations, and the reads that syncs make. -/
inductive Request where
  | pushCardVersions (versions : List Card)
  | getCard (id : Uuid)
  | deleteCard (id : Uuid)
  | pushTagVersions (versions : List Tag)
  | deleteTag (id : Uuid)
  | getRoot
  | getChangesSince (sequence : NonNegativeI64) (rootHash : Hash)
  | pushBatch (items : List PushItem)
  | subscribe

inductive Response where
  | ok
  | card (card : Card)
  | root (root : RootState)
  | deleted (deleted : DeletedEntity)
  | changes (changes : ChangeSet)
  | notification (root : RootState)
  | error (error : ProtocolError)

end BlazeList
