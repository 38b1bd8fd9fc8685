import Mathlib.Algebra.Ring.Nat
import Mathlib.Order.Defs.LinearOrder
import Mathlib.Order.Basic
import Mathlib.Tactic.Common

/-!
# Scalars

The fixed-width values every entity is made of. The BLAKE3 digest is a parameter: nothing below
looks inside it.
-/

namespace BlazeList

/-- The bytes of a fixed-width value, most significant first. -/
def bytesBE (n : Nat) (value : BitVec (8 * n)) : List UInt8 :=
  List.ofFn fun i : Fin n => UInt8.ofBitVec (value.extractLsb' (8 * (n - 1 - i.val)) 8)

abbrev Uuid := BitVec 128

/-- UUIDs compare as their bytes do. -/
instance : LinearOrder Uuid where
  le_refl := BitVec.le_refl
  le_trans _ _ _ := BitVec.le_trans
  le_antisymm _ _ := BitVec.le_antisymm
  le_total := BitVec.le_total
  lt_iff_le_not_ge a b := by
    simp only [BitVec.le_def, BitVec.lt_def]
    omega
  toDecidableLE := inferInstance
  toDecidableLT := inferInstance
  toDecidableEq := inferInstance
  toOrd := inferInstance
  compare_eq_compareOfLessAndEq _ _ := rfl

instance (priority := 1100) : LawfulBEq Uuid := inferInstance

def Uuid.asBytes (id : Uuid) : List UInt8 := bytesBE 16 id

instance (priority := 1100) neZeroBucketCount : NeZero (256 : Nat) := ⟨by decide⟩

def bucketOf (id : Uuid) : Fin 256 := ((Uuid.asBytes id).headD 0).toFin

abbrev Hash := BitVec 256

def Hash.asBytes (hash : Hash) : List UInt8 := bytesBE 32 hash

/-- The ancestor hash of a first version. -/
def zeroHash : Hash := 0

class Blake3 where
  digest : List UInt8 → Hash

/-! ### Integers -/

def i64Min : Int := -9223372036854775808

def i64Max : Int := 9223372036854775807

abbrev I64 := {value : Int // i64Min ≤ value ∧ value ≤ i64Max}

theorem zero_mem_i64 : i64Min ≤ 0 ∧ 0 ≤ i64Max := by decide

theorem one_mem_i64 : i64Min ≤ 1 ∧ 1 ≤ i64Max := by decide

theorem five_mem_i64 : i64Min ≤ 5 ∧ 5 ≤ i64Max := by decide

theorem seven_mem_i64 : i64Min ≤ 7 ∧ 7 ≤ i64Max := by decide

theorem nine_mem_i64 : i64Min ≤ 9 ∧ 9 ≤ i64Max := by decide

def u64Bytes (value : Nat) : List UInt8 := bytesBE 8 (BitVec.ofNat 64 value)

def i64Bytes (value : Int) : List UInt8 := bytesBE 8 (BitVec.ofInt 64 value)

structure NonNegativeI64 where
  val : Nat
  le_max : val ≤ 9223372036854775807
  deriving DecidableEq

namespace NonNegativeI64

theorem ext_iff {a b : NonNegativeI64} : a = b ↔ a.val = b.val := by
  cases a
  cases b
  simp

def tryFrom (value : Nat) : Option NonNegativeI64 :=
  if h : value ≤ 9223372036854775807 then some ⟨value, h⟩ else none

theorem tryFrom_eq_some_iff {value : Nat} {n : NonNegativeI64} :
    tryFrom value = some n ↔ n.val = value := by
  unfold tryFrom
  split
  · simp [ext_iff, eq_comm]
  · rename_i h
    simp only [reduceCtorEq, false_iff]
    exact fun heq => h (heq ▸ n.le_max)

def min : NonNegativeI64 := ⟨0, by omega⟩

end NonNegativeI64

/-- A point in time at millisecond precision, within the range the calendar library can hold. -/
structure DateTime where
  timestampMillis : Int
  inRange : -8334601228800000 ≤ timestampMillis ∧ timestampMillis ≤ 8210266876799999
  deriving DecidableEq

def DateTime.epoch : DateTime := ⟨0, by decide⟩

end BlazeList
