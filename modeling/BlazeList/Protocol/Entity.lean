import BlazeList.Protocol.Basic
import Mathlib.Data.List.Dedup
import Mathlib.Data.List.Sort

/-!
# Cards, tags and tombstones

The versioned entities with their hash chain. A value of `Card` or `Tag` is what the wire
deserializer produces: nothing ties its `hash` to its fields until `verify` is asked.
-/

namespace BlazeList

/-- A versioned entity: one link of a hash chain. `canonicalBytes` is what its hash is taken of. -/
class Entity (E : Type) where
  id : E → Uuid
  count : E → NonNegativeI64
  ancestorHash : E → Hash
  hash : E → Hash
  canonicalBytes : E → List UInt8

namespace Entity

variable {E : Type} [Entity E] [Blake3]

def expectedHash (entity : E) : Hash := Blake3.digest (canonicalBytes entity)

def verify (entity : E) : Bool := hash entity == expectedHash entity

theorem verify_iff {entity : E} : verify entity = true ↔ hash entity = expectedHash entity := by
  simp [verify]

end Entity

inductive HashVerificationError where
  | mk
  deriving DecidableEq

/-! ### Cards -/

structure Card where
  id : Uuid
  content : String
  priority : I64
  tags : List Uuid
  blazed : Bool
  createdAt : DateTime
  modifiedAt : DateTime
  dueDate : Option DateTime
  count : NonNegativeI64
  ancestorHash : Hash
  hash : Hash
  deriving DecidableEq

def canonicalCardBytes (id : Uuid) (content : String) (priority : Int) (tags : List Uuid)
    (blazed : Bool) (createdAtMs modifiedAtMs count : Int) (ancestorHash : Hash)
    (dueDateMs : Option Int) : List UInt8 :=
  let sortedTags := tags.insertionSort (· ≤ ·)
  id.asBytes
    ++ u64Bytes content.utf8ByteSize ++ content.toUTF8.toList
    ++ i64Bytes priority
    ++ u64Bytes sortedTags.length ++ sortedTags.flatMap Uuid.asBytes
    ++ [if blazed then 1 else 0]
    ++ i64Bytes createdAtMs ++ i64Bytes modifiedAtMs
    ++ (match dueDateMs with
      | none => [0]
      | some ms => 1 :: i64Bytes ms)
    ++ i64Bytes count
    ++ ancestorHash.asBytes

def Card.canonicalBytes (card : Card) : List UInt8 :=
  canonicalCardBytes card.id card.content card.priority card.tags card.blazed
    card.createdAt.timestampMillis card.modifiedAt.timestampMillis card.count.val card.ancestorHash
    (card.dueDate.map DateTime.timestampMillis)

instance : Entity Card where
  id := Card.id
  count := Card.count
  ancestorHash := Card.ancestorHash
  hash := Card.hash
  canonicalBytes := Card.canonicalBytes

@[simp]
theorem Card.entity_id (card : Card) : Entity.id card = card.id := rfl

@[simp]
theorem Card.entity_count (card : Card) : Entity.count card = card.count := rfl

@[simp]
theorem Card.entity_ancestorHash (card : Card) : Entity.ancestorHash card = card.ancestorHash := rfl

@[simp]
theorem Card.entity_hash (card : Card) : Entity.hash card = card.hash := rfl

section

variable [Blake3]

def Card.fromParts (card : Card) : Except HashVerificationError Card :=
  if Entity.verify card then .ok card else .error .mk

def Card.first (id : Uuid) (content : String) (priority : I64) (tags : List Uuid) (blazed : Bool)
    (createdAt : DateTime) (dueDate : Option DateTime) : Card :=
  let card : Card :=
    { id, content, priority, tags := tags.insertionSort (· ≤ ·), blazed, createdAt
      modifiedAt := createdAt, dueDate, count := ⟨1, by omega⟩
      ancestorHash := zeroHash, hash := zeroHash }
  { card with hash := Entity.expectedHash card }

/-- The next version. There is none past the last count, where the source panics. -/
def Card.next (self : Card) (content : String) (priority : I64) (tags : List Uuid) (blazed : Bool)
    (modifiedAt : DateTime) (dueDate : Option DateTime) : Option Card := do
  let count ← NonNegativeI64.tryFrom (self.count.val + 1)
  let card : Card :=
    { id := self.id, content, priority, tags := tags.insertionSort (· ≤ ·), blazed
      createdAt := self.createdAt, modifiedAt, dueDate, count
      ancestorHash := self.hash, hash := zeroHash }
  return { card with hash := Entity.expectedHash card }

end

/-! ### Tags -/

structure Rgb8 where
  r : UInt8
  g : UInt8
  b : UInt8
  deriving DecidableEq

structure Tag where
  id : Uuid
  title : String
  color : Option Rgb8
  createdAt : DateTime
  modifiedAt : DateTime
  count : NonNegativeI64
  ancestorHash : Hash
  hash : Hash
  implies : List Uuid
  deriving DecidableEq

/-- The implies block is left out when it is empty, and is sorted but not deduplicated here. -/
def canonicalTagBytes (id : Uuid) (title : String) (createdAtMs modifiedAtMs count : Int)
    (ancestorHash : Hash) (color : Option Rgb8) (implies : List Uuid) : List UInt8 :=
  id.asBytes
    ++ u64Bytes title.utf8ByteSize ++ title.toUTF8.toList
    ++ i64Bytes createdAtMs ++ i64Bytes modifiedAtMs
    ++ (match color with
      | none => [0]
      | some rgb => [1, rgb.r, rgb.g, rgb.b])
    ++ i64Bytes count
    ++ ancestorHash.asBytes
    ++ (if implies.isEmpty then []
      else
        let sorted := implies.insertionSort (· ≤ ·)
        u64Bytes sorted.length ++ sorted.flatMap Uuid.asBytes)

def Tag.canonicalBytes (tag : Tag) : List UInt8 :=
  canonicalTagBytes tag.id tag.title tag.createdAt.timestampMillis tag.modifiedAt.timestampMillis
    tag.count.val tag.ancestorHash tag.color tag.implies

instance : Entity Tag where
  id := Tag.id
  count := Tag.count
  ancestorHash := Tag.ancestorHash
  hash := Tag.hash
  canonicalBytes := Tag.canonicalBytes

@[simp]
theorem Tag.entity_id (tag : Tag) : Entity.id tag = tag.id := rfl

@[simp]
theorem Tag.entity_count (tag : Tag) : Entity.count tag = tag.count := rfl

@[simp]
theorem Tag.entity_ancestorHash (tag : Tag) : Entity.ancestorHash tag = tag.ancestorHash := rfl

@[simp]
theorem Tag.entity_hash (tag : Tag) : Entity.hash tag = tag.hash := rfl

def normalizeImplies (implies : List Uuid) : List Uuid := (implies.insertionSort (· ≤ ·)).dedup

section

variable [Blake3]

def Tag.fromParts (tag : Tag) : Except HashVerificationError Tag :=
  let tag := { tag with implies := normalizeImplies tag.implies }
  if Entity.verify tag then .ok tag else .error .mk

def Tag.firstWithImplies (id : Uuid) (title : String) (color : Option Rgb8) (implies : List Uuid)
    (createdAt : DateTime) : Tag :=
  let tag : Tag :=
    { id, title, color, createdAt, modifiedAt := createdAt, count := ⟨1, by omega⟩
      ancestorHash := zeroHash, hash := zeroHash, implies := normalizeImplies implies }
  { tag with hash := Entity.expectedHash tag }

def Tag.nextWithImplies (self : Tag) (title : String) (color : Option Rgb8) (implies : List Uuid)
    (modifiedAt : DateTime) : Option Tag := do
  let count ← NonNegativeI64.tryFrom (self.count.val + 1)
  let tag : Tag :=
    { id := self.id, title, color, createdAt := self.createdAt, modifiedAt, count
      ancestorHash := self.hash, hash := zeroHash, implies := normalizeImplies implies }
  return { tag with hash := Entity.expectedHash tag }

end

/-! ### Tombstones -/

structure DeletedEntity where
  id : Uuid
  hash : Hash
  deriving DecidableEq

def DeletedEntity.new [Blake3] (id : Uuid) : DeletedEntity :=
  { id, hash := Blake3.digest id.asBytes }

/-! ### Samples -/

/-- A digest to run the definitions with: a polynomial in the first bytes. -/
@[reducible]
def polynomialBlake3 : Blake3 where
  digest bytes :=
    BitVec.ofNat 256 ((bytes.take 512).foldl (fun acc byte => 257 * acc + (byte.toNat + 1)) 0)

def sampleCard (id : Uuid) (priority : I64) : Card :=
  @Card.first polynomialBlake3 id "" priority [] false .epoch none

def sampleTag (id : Uuid) (implies : List Uuid) : Tag :=
  @Tag.firstWithImplies polynomialBlake3 id "" none implies .epoch

end BlazeList
