import BlazeList.Lib.PrefixCode
import BlazeList.Protocol.Entity

/-!
# The hashed encodings are unambiguous

Cards, tags and deleted ids are hashed without a mark of their kind. Each encoding determines what it
encodes, up to the order of a tag list, and no two kinds share a string: their lengths differ.
-/

namespace BlazeList

/-! ### Fixed widths -/

@[simp]
theorem length_bytesBE (n : Nat) (value : BitVec (8 * n)) : (bytesBE n value).length = n := by
  simp [bytesBE]

theorem bytesBE_injective (n : Nat) : Function.Injective (bytesBE n) := by
  intro x y heq
  have hbytes := List.ofFn_injective heq
  refine BitVec.eq_of_getLsbD_eq fun bit hbit => ?_
  -- the byte that holds the bit, counted from the most significant one
  have hindex : n - 1 - bit / 8 < n := by omega
  have hbyte := congrArg UInt8.toBitVec (congrFun hbytes ⟨n - 1 - bit / 8, hindex⟩)
  have hat := congrArg (BitVec.getLsbD · (bit % 8)) hbyte
  have hstart : 8 * (n - 1 - (n - 1 - bit / 8)) + bit % 8 = bit := by omega
  simpa [BitVec.getLsbD_extractLsb', Nat.mod_lt, hstart] using hat

theorem prefixFree_bytesBE (n : Nat) : PrefixFree Set.univ (bytesBE n) :=
  .of_length (fun value _ => length_bytesBE n value) (bytesBE_injective n).injOn

theorem prefixFree_asBytes : PrefixFree Set.univ Uuid.asBytes := prefixFree_bytesBE 16

theorem prefixFree_hashBytes : PrefixFree Set.univ Hash.asBytes := prefixFree_bytesBE 32

theorem prefixFree_u64Bytes : PrefixFree {value | value < 2 ^ 64} u64Bytes := by
  apply (prefixFree_bytesBE 8).comp (Set.mapsTo_univ _ _)
  intro a ha b hb heq
  have hnat := congrArg BitVec.toNat heq
  rwa [BitVec.toNat_ofNat, BitVec.toNat_ofNat, Nat.mod_eq_of_lt ha, Nat.mod_eq_of_lt hb] at hnat

/-- Without a bound, a size is determined up to the wrap. -/
theorem mod_eq_of_u64Bytes_append_eq {a b : Nat} {s t : List UInt8}
    (heq : u64Bytes a ++ s = u64Bytes b ++ t) : a % 2 ^ 64 = b % 2 ^ 64 := by
  have hlength : (u64Bytes a).length = (u64Bytes b).length := by
    rw [u64Bytes, u64Bytes, length_bytesBE, length_bytesBE]
  have hbits := bytesBE_injective 8 (List.append_inj heq hlength).1
  have hnat := congrArg BitVec.toNat hbits
  rwa [BitVec.toNat_ofNat, BitVec.toNat_ofNat] at hnat

theorem prefixFree_i64Bytes : PrefixFree {value | i64Min ≤ value ∧ value ≤ i64Max} i64Bytes := by
  apply (prefixFree_bytesBE 8).comp (Set.mapsTo_univ _ _)
  intro a ha b hb heq
  have hint := congrArg BitVec.toInt heq
  have hbmod : ∀ value : Int, i64Min ≤ value ∧ value ≤ i64Max → value.bmod (2 ^ 64) = value := by
    intro value hvalue
    unfold i64Min i64Max at hvalue
    exact Int.bmod_eq_of_le (by omega) (by omega)
  rwa [BitVec.toInt_ofInt, BitVec.toInt_ofInt, hbmod a ha, hbmod b hb] at hint

/-! ### Texts and id lists -/

theorem toList_loop_eq (bytes : ByteArray) (i : Nat) (acc : List UInt8) :
    ByteArray.toList.loop bytes i acc = acc.reverse ++ bytes.data.toList.drop i := by
  fun_induction ByteArray.toList.loop bytes i acc with
  | case1 i acc hi ih =>
      have hbyte : bytes.get! i = bytes.data.toList[i] := by
        simp only [ByteArray.get!, Array.getElem_toList]
        exact getElem!_pos bytes.data i hi
      rw [ih, List.reverse_cons, List.append_assoc, List.drop_eq_getElem_cons hi, hbyte]
      rfl
  | case2 i acc hi =>
      have hnone : bytes.data.toList.drop i = [] := List.drop_eq_nil_of_le (Nat.le_of_not_lt hi)
      rw [hnone, List.append_nil]

theorem toUTF8_toList (text : String) : text.toUTF8.toList = text.toByteArray.data.toList := by
  rw [ByteArray.toList, toList_loop_eq]
  simp

@[simp]
theorem length_toUTF8_toList (text : String) : text.toUTF8.toList.length = text.utf8ByteSize := by
  rw [toUTF8_toList]
  rfl

/-- A text with its byte size in front of it. -/
theorem prefixFree_text :
    PrefixFree {text : String | text.utf8ByteSize < 2 ^ 64}
      (fun text => u64Bytes text.utf8ByteSize ++ text.toUTF8.toList) := by
  refine prefixFree_u64Bytes.sized (fun _ htext => htext) ?_ ?_
  · intro a _ b _ hsize
    rw [length_toUTF8_toList, length_toUTF8_toList, hsize]
  · intro a _ b _ heq
    dsimp only at heq
    rw [toUTF8_toList, toUTF8_toList, Array.toList_inj] at heq
    exact String.toByteArray_inj.mp (ByteArray.ext heq)

theorem length_flatMap_asBytes (ids : List Uuid) :
    (ids.flatMap Uuid.asBytes).length = 16 * ids.length :=
  length_flatMap_of_length (length_bytesBE 16) ids

/-- An id list with its length in front of it. -/
theorem prefixFree_ids :
    PrefixFree {ids : List Uuid | ids.length < 2 ^ 64}
      (fun ids => u64Bytes ids.length ++ ids.flatMap Uuid.asBytes) := by
  refine prefixFree_u64Bytes.sized (fun _ hids => hids) ?_ ?_
  · intro a _ b _ hsize
    rw [length_flatMap_asBytes, length_flatMap_asBytes, hsize]
  · exact (flatMap_injective_of_length (by decide) (length_bytesBE 16)
      (bytesBE_injective 16)).injOn

/-! ### Scalars of the entities -/

theorem DateTime.timestampMillis_injective : Function.Injective DateTime.timestampMillis := by
  rintro ⟨a, ha⟩ ⟨b, hb⟩ heq
  cases heq
  rfl

theorem prefixFree_dateTime :
    PrefixFree Set.univ (fun time : DateTime => i64Bytes time.timestampMillis) := by
  refine prefixFree_i64Bytes.comp ?_ DateTime.timestampMillis_injective.injOn
  intro time _
  have hrange := time.inRange
  change i64Min ≤ time.timestampMillis ∧ time.timestampMillis ≤ i64Max
  unfold i64Min i64Max
  omega

theorem prefixFree_priority : PrefixFree Set.univ (fun priority : I64 => i64Bytes priority) :=
  prefixFree_i64Bytes.comp (fun priority _ => priority.property) Subtype.val_injective.injOn

theorem prefixFree_count :
    PrefixFree Set.univ (fun count : NonNegativeI64 => i64Bytes count.val) := by
  refine prefixFree_i64Bytes.comp ?_ ?_
  · intro count _
    have hmax := count.le_max
    change i64Min ≤ (count.val : Int) ∧ (count.val : Int) ≤ i64Max
    unfold i64Min i64Max
    omega
  · intro a _ b _ heq
    exact NonNegativeI64.ext_iff.mpr (Int.ofNat_inj.mp heq)

theorem prefixFree_blazed :
    PrefixFree Set.univ (fun blazed : Bool => [if blazed then (1 : UInt8) else 0]) := by
  refine .of_length (n := 1) (fun _ _ => rfl) ?_
  intro a _ b _
  cases a <;> cases b <;> simp

theorem prefixFree_dueDate :
    PrefixFree {dueDate : Option DateTime | ∀ time ∈ dueDate, time ∈ Set.univ}
      (fun dueDate => dueDate.elim [(0 : UInt8)] fun time => 1 :: i64Bytes time.timestampMillis) :=
  prefixFree_dateTime.marked (by decide)

theorem prefixFree_color :
    PrefixFree {color : Option Rgb8 | ∀ rgb ∈ color, rgb ∈ Set.univ}
      (fun color => color.elim [(0 : UInt8)] fun rgb => 1 :: [rgb.r, rgb.g, rgb.b]) := by
  have hrgb : PrefixFree Set.univ (fun rgb : Rgb8 => [rgb.r, rgb.g, rgb.b]) := by
    refine .of_length (n := 3) (fun _ _ => rfl) ?_
    rintro ⟨r, g, b⟩ _ ⟨r', g', b'⟩ _ heq
    simpa using heq
  exact hrgb.marked (by decide)

/-! ### Cards -/

/-- The lengths of the texts and lists of a value in memory are below `2 ^ 64`. -/
def Card.FitsMemory (card : Card) : Prop :=
  card.content.utf8ByteSize < 2 ^ 64 ∧ card.tags.length < 2 ^ 64

def Card.Same (a b : Card) : Prop :=
  { a with tags := [] } = { b with tags := [] } ∧ a.tags.Perm b.tags

theorem Card.canonicalBytes_eq (card : Card) :
    card.canonicalBytes =
      card.id.asBytes ++ ((u64Bytes card.content.utf8ByteSize ++ card.content.toUTF8.toList) ++
        (i64Bytes card.priority ++
          ((u64Bytes (card.tags.insertionSort (· ≤ ·)).length ++
              (card.tags.insertionSort (· ≤ ·)).flatMap Uuid.asBytes) ++
            ([if card.blazed then 1 else 0] ++
              (i64Bytes card.createdAt.timestampMillis ++
                (i64Bytes card.modifiedAt.timestampMillis ++
                  (card.dueDate.elim [0] (fun time => 1 :: i64Bytes time.timestampMillis) ++
                    (i64Bytes card.count.val ++ card.ancestorHash.asBytes)))))))) := by
  unfold Card.canonicalBytes canonicalCardBytes
  cases card.dueDate <;> simp only [List.append_assoc, Option.map, Option.elim]

theorem Card.same_of_canonicalBytes_eq {a b : Card} (ha : a.FitsMemory) (hb : b.FitsMemory)
    (hbytes : a.canonicalBytes = b.canonicalBytes) (hhash : a.hash = b.hash) : a.Same b := by
  have hlength : ∀ card : Card, card.FitsMemory →
      (card.tags.insertionSort (· ≤ ·)).length < 2 ^ 64 := by
    intro card hcard
    rw [List.length_insertionSort]
    exact hcard.2
  rw [Card.canonicalBytes_eq, Card.canonicalBytes_eq] at hbytes
  obtain ⟨hid, hbytes⟩ := prefixFree_asBytes trivial trivial hbytes
  obtain ⟨hcontent, hbytes⟩ := prefixFree_text ha.1 hb.1 hbytes
  obtain ⟨hpriority, hbytes⟩ := prefixFree_priority trivial trivial hbytes
  obtain ⟨htags, hbytes⟩ := prefixFree_ids (hlength a ha) (hlength b hb) hbytes
  obtain ⟨hblazed, hbytes⟩ := prefixFree_blazed trivial trivial hbytes
  obtain ⟨hcreated, hbytes⟩ := prefixFree_dateTime trivial trivial hbytes
  obtain ⟨hmodified, hbytes⟩ := prefixFree_dateTime trivial trivial hbytes
  obtain ⟨hdueDate, hbytes⟩ :=
    prefixFree_dueDate (fun _ _ => trivial) (fun _ _ => trivial) hbytes
  obtain ⟨hcount, hbytes⟩ := prefixFree_count trivial trivial hbytes
  have hancestor := bytesBE_injective 32 hbytes
  refine ⟨?_, ?_⟩
  · cases a
    cases b
    simp_all
  · calc
      a.tags.Perm (a.tags.insertionSort (· ≤ ·)) := (List.perm_insertionSort _ _).symm
      _ = b.tags.insertionSort (· ≤ ·) := htags
      List.Perm _ b.tags := List.perm_insertionSort _ _

/-! ### Tags -/

def Tag.FitsMemory (tag : Tag) : Prop :=
  tag.title.utf8ByteSize < 2 ^ 64 ∧ tag.implies.length < 2 ^ 64

def Tag.Same (a b : Tag) : Prop :=
  { a with implies := [] } = { b with implies := [] } ∧ a.implies.Perm b.implies

/-- The trailing block of a tag, which is absent when the tag implies nothing. -/
def impliesBlock (implies : List Uuid) : List UInt8 :=
  if implies.isEmpty then []
  else
    let sorted := implies.insertionSort (· ≤ ·)
    u64Bytes sorted.length ++ sorted.flatMap Uuid.asBytes

theorem length_impliesBlock (implies : List Uuid) :
    (impliesBlock implies).length = if implies.isEmpty then 0 else 8 + 16 * implies.length := by
  unfold impliesBlock
  split
  · rfl
  · simp only [List.length_append, u64Bytes, length_bytesBE, length_flatMap_asBytes,
      List.length_insertionSort]

theorem perm_of_impliesBlock_eq {a b : List Uuid} (ha : a.length < 2 ^ 64) (hb : b.length < 2 ^ 64)
    (heq : impliesBlock a = impliesBlock b) : a.Perm b := by
  have hlength := congrArg List.length heq
  rw [length_impliesBlock, length_impliesBlock] at hlength
  cases hemptyA : a.isEmpty with
  | true =>
      cases hemptyB : b.isEmpty with
      | true => rw [List.isEmpty_iff.mp hemptyA, List.isEmpty_iff.mp hemptyB]
      | false =>
          simp only [hemptyA, hemptyB, if_true, Bool.false_eq_true, if_false] at hlength
          omega
  | false =>
      cases hemptyB : b.isEmpty with
      | true =>
          simp only [hemptyA, hemptyB, if_true, Bool.false_eq_true, if_false] at hlength
          omega
      | false =>
          simp only [impliesBlock, hemptyA, hemptyB, Bool.false_eq_true, if_false] at heq
          have hsorted : a.insertionSort (· ≤ ·) = b.insertionSort (· ≤ ·) := by
            apply prefixFree_ids.injOn _ _ heq
            · simpa only [Set.mem_ofPred_eq, List.length_insertionSort] using ha
            · simpa only [Set.mem_ofPred_eq, List.length_insertionSort] using hb
          calc
            a.Perm (a.insertionSort (· ≤ ·)) := (List.perm_insertionSort _ _).symm
            _ = b.insertionSort (· ≤ ·) := hsorted
            List.Perm _ b := List.perm_insertionSort _ _

theorem Tag.canonicalBytes_eq (tag : Tag) :
    tag.canonicalBytes =
      tag.id.asBytes ++ ((u64Bytes tag.title.utf8ByteSize ++ tag.title.toUTF8.toList) ++
        (i64Bytes tag.createdAt.timestampMillis ++
          (i64Bytes tag.modifiedAt.timestampMillis ++
            (tag.color.elim [0] (fun rgb => 1 :: [rgb.r, rgb.g, rgb.b]) ++
              (i64Bytes tag.count.val ++
                (tag.ancestorHash.asBytes ++ impliesBlock tag.implies)))))) := by
  unfold Tag.canonicalBytes canonicalTagBytes impliesBlock
  cases tag.color <;> simp only [List.append_assoc, Option.elim]

theorem Tag.same_of_canonicalBytes_eq {a b : Tag} (ha : a.FitsMemory) (hb : b.FitsMemory)
    (hbytes : a.canonicalBytes = b.canonicalBytes) (hhash : a.hash = b.hash) : a.Same b := by
  rw [Tag.canonicalBytes_eq, Tag.canonicalBytes_eq] at hbytes
  obtain ⟨hid, hbytes⟩ := prefixFree_asBytes trivial trivial hbytes
  obtain ⟨htitle, hbytes⟩ := prefixFree_text ha.1 hb.1 hbytes
  obtain ⟨hcreated, hbytes⟩ := prefixFree_dateTime trivial trivial hbytes
  obtain ⟨hmodified, hbytes⟩ := prefixFree_dateTime trivial trivial hbytes
  obtain ⟨hcolor, hbytes⟩ := prefixFree_color (fun _ _ => trivial) (fun _ _ => trivial) hbytes
  obtain ⟨hcount, hbytes⟩ := prefixFree_count trivial trivial hbytes
  obtain ⟨hancestor, hbytes⟩ := prefixFree_hashBytes trivial trivial hbytes
  refine ⟨?_, perm_of_impliesBlock_eq ha.2 hb.2 hbytes⟩
  cases a
  cases b
  simp_all

/-! ### The kinds share no encoding -/

theorem Card.length_canonicalBytes_mod (card : Card) :
    card.canonicalBytes.length % 8 = (card.content.utf8ByteSize + 2) % 8 ∧
      16 < card.canonicalBytes.length := by
  have hdueDate : (card.dueDate.elim [(0 : UInt8)] fun time =>
      1 :: i64Bytes time.timestampMillis).length % 8 = 1 := by
    cases card.dueDate <;> simp [i64Bytes]
  rw [Card.canonicalBytes_eq]
  simp only [List.length_append, u64Bytes, i64Bytes, Uuid.asBytes, Hash.asBytes, length_bytesBE,
    length_toUTF8_toList, List.length_singleton] at hdueDate ⊢
  have hids := length_flatMap_asBytes (card.tags.insertionSort (· ≤ ·))
  omega

theorem Tag.length_canonicalBytes_mod (tag : Tag) :
    (tag.canonicalBytes.length % 8 = (tag.title.utf8ByteSize + 1) % 8 ∨
        tag.canonicalBytes.length % 8 = (tag.title.utf8ByteSize + 4) % 8) ∧
      16 < tag.canonicalBytes.length := by
  have hcolor : (tag.color.elim [(0 : UInt8)] fun rgb => 1 :: [rgb.r, rgb.g, rgb.b]).length = 1 ∨
      (tag.color.elim [(0 : UInt8)] fun rgb => 1 :: [rgb.r, rgb.g, rgb.b]).length = 4 := by
    cases tag.color <;> simp
  have himplies : (impliesBlock tag.implies).length % 8 = 0 := by
    rw [length_impliesBlock]
    split <;> omega
  rw [Tag.canonicalBytes_eq]
  simp only [List.length_append, u64Bytes, i64Bytes, Uuid.asBytes, Hash.asBytes, length_bytesBE,
    length_toUTF8_toList]
  omega

/-- The size field is read at the same place in both, and the rest of a card is a byte longer or two
bytes shorter than that of a tag, up to multiples of eight. -/
theorem canonicalBytes_card_ne_tag (card : Card) (tag : Tag) :
    card.canonicalBytes ≠ tag.canonicalBytes := by
  intro heq
  have hlength := congrArg List.length heq
  have hcard := (Card.length_canonicalBytes_mod card).1
  have htag := (Tag.length_canonicalBytes_mod tag).1
  rw [Card.canonicalBytes_eq, Tag.canonicalBytes_eq] at heq
  obtain ⟨-, heq⟩ := prefixFree_asBytes trivial trivial heq
  simp only [List.append_assoc] at heq
  have hsize := mod_eq_of_u64Bytes_append_eq heq
  omega

theorem length_asBytes (id : Uuid) : id.asBytes.length = 16 := length_bytesBE 16 id

theorem canonicalBytes_card_ne_id (card : Card) (id : Uuid) : card.canonicalBytes ≠ id.asBytes := by
  intro heq
  have hlong := (Card.length_canonicalBytes_mod card).2
  rw [heq, length_asBytes] at hlong
  omega

theorem canonicalBytes_tag_ne_id (tag : Tag) (id : Uuid) : tag.canonicalBytes ≠ id.asBytes := by
  intro heq
  have hlong := (Tag.length_canonicalBytes_mod tag).2
  rw [heq, length_asBytes] at hlong
  omega

end BlazeList
