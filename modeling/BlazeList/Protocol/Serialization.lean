import BlazeList.Protocol.Types
import BlazeList.Protocol.Wire
import Mathlib.Algebra.BigOperators.Group.List.Basic

/-!
# The serialization of messages

A value is its fields in order, a list has its length in front, and an alternative its index. How the
digest library serializes a digest is a parameter.
-/

namespace BlazeList

class SerializeHash where
  bytes : Hash → List UInt8

namespace Postcard

variable {α : Type}

def vec (item : α → List UInt8) (items : List α) : List UInt8 :=
  varint items.length ++ items.flatMap item

def option (item : α → List UInt8) : Option α → List UInt8
  | none => [0]
  | some value => 1 :: item value

def string (text : String) : List UInt8 := varint text.utf8ByteSize ++ text.toUTF8.toList

def bool (value : Bool) : List UInt8 := [if value then 1 else 0]

def i64 (value : Int) : List UInt8 :=
  varint (if 0 ≤ value then 2 * value.toNat else 2 * (-value).toNat - 1)

def uuid (id : Uuid) : List UInt8 := varint 16 ++ id.asBytes

def dateTime (time : DateTime) : List UInt8 := i64 time.timestampMillis

/-! ### Lengths -/

/-- The bytes of a number, each with seven of its bits. -/
def groups (value : Nat) : Nat := value.log2 / 7 + 1

def signedGroups (value : Int) : Nat := groups (if 0 ≤ value then 2 * value.toNat else 2 * (-value).toNat - 1)

theorem groups_of_lt {value : Nat} (h : value < 128) : groups value = 1 := by
  have hlog : value.log2 ≤ 6 := by
    rcases Nat.eq_zero_or_pos value with rfl | hpos
    · decide
    · have hlt := (Nat.log2_lt hpos.ne').mpr (show value < 2 ^ 7 from h)
      omega
  unfold groups
  omega

theorem groups_of_le {value : Nat} (h : 128 ≤ value) : groups value = groups (value / 128) + 1 := by
  have hrest : value / 128 ≠ 0 := by omega
  obtain ⟨hlow, hhigh⟩ := (Nat.log2_eq_iff hrest).mp rfl
  have hlog : value.log2 = (value / 128).log2 + 7 := by
    refine (Nat.log2_eq_iff (by omega)).mpr ⟨?_, ?_⟩
    · rw [Nat.pow_add]
      omega
    · rw [Nat.add_right_comm, Nat.pow_add]
      omega
  unfold groups
  omega

@[simp]
theorem length_varint (value : Nat) : (varint value).length = groups value := by
  fun_induction varint value with
  | case1 value h => exact (groups_of_lt h).symm
  | case2 value h ih =>
      rw [List.length_cons, ih]
      exact (groups_of_le (Nat.le_of_not_lt h)).symm

theorem one_le_groups (value : Nat) : 1 ≤ groups value := Nat.le_add_left _ _

@[simp]
theorem length_i64 (value : Int) : (i64 value).length = signedGroups value := length_varint _

@[simp]
theorem length_uuid (id : Uuid) : (uuid id).length = 17 := by
  rw [uuid, List.length_append, length_varint, Uuid.asBytes, length_bytesBE]
  decide

@[simp]
theorem length_string (text : String) :
    (string text).length = groups text.utf8ByteSize + text.utf8ByteSize := by
  rw [string, List.length_append, length_varint, length_toUTF8_toList]

@[simp]
theorem length_vec (item : α → List UInt8) (items : List α) :
    (vec item items).length = groups items.length + (items.map fun value => (item value).length).sum := by
  rw [vec, List.length_append, List.length_flatMap, length_varint]

theorem length_vec_uuid (ids : List Uuid) : (vec uuid ids).length = groups ids.length + 17 * ids.length := by
  simp only [length_vec, length_uuid, List.map_const', List.sum_replicate_nat, Nat.mul_comm]

end Postcard

section

variable [SerializeHash]

open Postcard

def Card.serialize (card : Card) : List UInt8 :=
  uuid card.id ++ string card.content ++ i64 card.priority.val ++ vec uuid card.tags
    ++ bool card.blazed ++ dateTime card.createdAt ++ dateTime card.modifiedAt
    ++ option dateTime card.dueDate ++ i64 card.count.val ++ SerializeHash.bytes card.ancestorHash
    ++ SerializeHash.bytes card.hash

def Rgb8.serialize (rgb : Rgb8) : List UInt8 := [rgb.r, rgb.g, rgb.b]

def Tag.serialize (tag : Tag) : List UInt8 :=
  uuid tag.id ++ string tag.title ++ option Rgb8.serialize tag.color ++ dateTime tag.createdAt
    ++ dateTime tag.modifiedAt ++ i64 tag.count.val ++ SerializeHash.bytes tag.ancestorHash
    ++ SerializeHash.bytes tag.hash ++ vec uuid tag.implies

def DeletedEntity.serialize (deleted : DeletedEntity) : List UInt8 :=
  uuid deleted.id ++ SerializeHash.bytes deleted.hash

def RootState.serialize (root : RootState) : List UInt8 :=
  SerializeHash.bytes root.hash ++ i64 root.sequence.val

def ChangeSet.serialize (changes : ChangeSet) : List UInt8 :=
  vec Card.serialize changes.cards ++ vec Tag.serialize changes.tags
    ++ vec DeletedEntity.serialize changes.deleted ++ changes.root.serialize

def PushItem.serialize : PushItem → List UInt8
  | .cards versions => varint 0 ++ vec Card.serialize versions
  | .tags versions => varint 1 ++ vec Tag.serialize versions
  | .deleteCard id => varint 2 ++ uuid id
  | .deleteTag id => varint 3 ++ uuid id

def PushError.serialize : PushError → List UInt8
  | .cardAncestorMismatch latest => varint 0 ++ latest.serialize
  | .tagAncestorMismatch latest => varint 1 ++ latest.serialize
  | .alreadyDeleted => varint 2
  | .orphanedTagReference tagId referencingCardIds =>
      varint 3 ++ uuid tagId ++ vec uuid referencingCardIds
  | .hashVerificationFailed => varint 4
  | .emptyChain => varint 5
  | .duplicatePriority conflictingId priority => varint 6 ++ uuid conflictingId ++ i64 priority.val
  | .tagImplicationViolation cardId missing => varint 7 ++ uuid cardId ++ vec uuid missing
  | .tagImplicationCycle cycle => varint 8 ++ vec uuid cycle
  | .orphanedTagImpliesReference tagId referencingTagIds =>
      varint 9 ++ uuid tagId ++ vec uuid referencingTagIds
  | .tagImpliesUnknown tagId missing => varint 10 ++ uuid tagId ++ vec uuid missing

def BatchItemError.serialize : BatchItemError → List UInt8
  | .push error => varint 0 ++ error.serialize
  | .notFound => varint 1
  | .alreadyDeleted => varint 2
  | .internal => varint 3

def ProtocolError.serialize : ProtocolError → List UInt8
  | .notFound => varint 0
  | .alreadyDeleted => varint 1
  | .pushFailed error => varint 2 ++ error.serialize
  | .batchFailed index error => varint 3 ++ varint index ++ error.serialize
  | .rootHashMismatch sequence expectedHash =>
      varint 4 ++ i64 sequence.val ++ SerializeHash.bytes expectedHash
  | .unsupportedRequest => varint 5
  | .internal => varint 6

/-- The indices between are those of requests that are left out here. -/
def Request.serialize : Request → List UInt8
  | .pushCardVersions versions => varint 0 ++ vec Card.serialize versions
  | .getCard id => varint 1 ++ uuid id
  | .deleteCard id => varint 4 ++ uuid id
  | .pushTagVersions versions => varint 5 ++ vec Tag.serialize versions
  | .deleteTag id => varint 8 ++ uuid id
  | .getRoot => varint 9
  | .getChangesSince sequence rootHash =>
      varint 10 ++ i64 sequence.val ++ SerializeHash.bytes rootHash
  | .pushBatch items => varint 11 ++ vec PushItem.serialize items
  | .subscribe => varint 12

def Response.serialize : Response → List UInt8
  | .ok => varint 0
  | .card value => varint 1 ++ value.serialize
  | .root value => varint 5 ++ value.serialize
  | .deleted value => varint 6 ++ value.serialize
  | .changes value => varint 7 ++ value.serialize
  | .notification value => varint 8 ++ value.serialize
  | .error value => varint 9 ++ value.serialize

/-- Requests as they are serialized, and however they are read. -/
def Request.postcard (fromBytes : List UInt8 → Except String Request) : Postcard Request where
  toAllocvec request := .ok request.serialize
  fromBytes := fromBytes

def Response.postcard (fromBytes : List UInt8 → Except String Response) : Postcard Response where
  toAllocvec response := .ok response.serialize
  fromBytes := fromBytes

/-- The serialization of the request is within the maximum size. -/
def Request.Received (request : Request) : Prop := request.serialize.length ≤ maxMsgSize

/-- Such a request is read from a stream. -/
theorem Request.Received.readMessage {request : Request} (hreceived : request.Received)
    {fromBytes : List UInt8 → Except String Request}
    (hroundTrips : (Request.postcard fromBytes).RoundTrips) (rest : List UInt8) :
    Wire.readMessage (Request.postcard fromBytes)
        (u32Bytes request.serialize.length ++ request.serialize ++ rest) = .ok (request, rest) := by
  have hbytes : (Request.postcard fromBytes).toAllocvec request = .ok request.serialize := rfl
  exact Wire.readMessage_frame (hroundTrips hbytes) hreceived rest

end

end BlazeList
