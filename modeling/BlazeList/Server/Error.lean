import BlazeList.Protocol.Types

/-!
# Storage errors

The error types of the storage layer with their texts, and the conversions between them.
-/

namespace BlazeList

inductive SqlError where
  | sqliteFailure (message : String)
  | fromSqlConversionFailure (index : Nat) (type : String) (error : String)
  | invalidColumnType (index : Nat) (name : String) (type : String)
  deriving DecidableEq

def SqlError.toString : SqlError → String
  | .sqliteFailure message => message
  | .fromSqlConversionFailure index type error =>
      "Conversion error from type " ++ type ++ " at index: " ++ index.repr ++ ", " ++ error
  | .invalidColumnType index name type =>
      "Invalid column type " ++ type ++ " at index: " ++ index.repr ++ ", name: " ++ name

def HashVerificationError.toString : HashVerificationError → String
  | .mk => "hash verification failed: stored hash does not match computed hash"

inductive PushOpError where
  | domain (error : PushError)
  | internal (message : String)
  deriving DecidableEq

def PushOpError.ofSql (error : SqlError) : PushOpError := .internal error.toString

structure BatchError where
  index : Nat
  error : PushOpError
  deriving DecidableEq

inductive StorageError where
  | notFound
  | alreadyDeleted
  | orphanedTagReference (tagId : Uuid) (referencingCardIds : List Uuid)
  | orphanedTagImpliesReference (tagId : Uuid) (referencingTagIds : List Uuid)
  | rootHashMismatch (sequence : NonNegativeI64) (expectedHash : Hash)
  | internal (message : String)
  deriving DecidableEq

def StorageError.ofSql (error : SqlError) : StorageError := .internal error.toString

def hexDigits (width : Nat) (value : Nat) : List Char :=
  ((List.range width).map fun i => (value / 16 ^ (width - 1 - i) % 16).digitChar)

def Hash.toHex (hash : Hash) : String := String.ofList (hexDigits 64 hash.toNat)

def Uuid.toString (id : Uuid) : String :=
  let digits := hexDigits 32 id.toNat
  String.ofList (digits.take 8 ++ '-' :: (digits.drop 8).take 4 ++ '-' :: (digits.drop 12).take 4 ++
    '-' :: (digits.drop 16).take 4 ++ '-' :: digits.drop 20)

def StorageError.toString : StorageError → String
  | .notFound => "entity not found"
  | .alreadyDeleted => "entity already deleted"
  | .orphanedTagReference tagId referencingCardIds =>
      "tag " ++ Uuid.toString tagId ++ " cannot be deleted: still referenced by " ++
        referencingCardIds.length.repr ++ " card(s)"
  | .orphanedTagImpliesReference tagId referencingTagIds =>
      "tag " ++ Uuid.toString tagId ++ " cannot be deleted: still implied by " ++
        referencingTagIds.length.repr ++ " tag(s)"
  | .rootHashMismatch sequence expectedHash =>
      "root hash mismatch at sequence " ++ sequence.val.repr ++ ": expected " ++
        Hash.toHex expectedHash
  | .internal message => "storage error: " ++ message

def PushOpError.ofStorage : StorageError → PushOpError
  | .alreadyDeleted => .domain .alreadyDeleted
  | .orphanedTagReference tagId referencingCardIds =>
      .domain (.orphanedTagReference tagId referencingCardIds)
  | .orphanedTagImpliesReference tagId referencingTagIds =>
      .domain (.orphanedTagImpliesReference tagId referencingTagIds)
  | other => .internal other.toString

end BlazeList
