import BlazeList.Lib.Fallible
import BlazeList.Protocol.Encoding

/-!
# Length-prefixed framing

A message is sent as its size in four big-endian bytes and its serialization. A frame in front of
anything is read back as the message, and what follows it is left over.
-/

namespace BlazeList

variable {T : Type}

/-- The serialization of a message type, with the texts of its errors. -/
structure Postcard (T : Type) where
  toAllocvec : T → Except String (List UInt8)
  fromBytes : List UInt8 → Except String T

def Postcard.RoundTrips (postcard : Postcard T) : Prop :=
  ∀ ⦃message bytes⦄, postcard.toAllocvec message = .ok bytes → postcard.fromBytes bytes = .ok message

def maxMsgSize : Nat := 16 * 1024 * 1024

def Postcard.Fits (postcard : Postcard T) (message : T) : Prop :=
  ∀ payload, postcard.toAllocvec message = .ok payload → payload.length ≤ maxMsgSize

/-! ### Byte vectors -/

/-- Seven bits a byte, the lowest first; the top bit says that more follow. -/
def varint (value : Nat) : List UInt8 :=
  if value < 128 then [UInt8.ofNat value]
  else UInt8.ofNat (value % 128 + 128) :: varint (value / 128)

def readVarint : List UInt8 → Option (Nat × List UInt8)
  | [] => none
  | byte :: rest =>
      if byte.toNat < 128 then some (byte.toNat, rest)
      else (readVarint rest).map fun (value, rest) => (byte.toNat - 128 + 128 * value, rest)

theorem readVarint_varint (value : Nat) (rest : List UInt8) :
    readVarint (varint value ++ rest) = some (value, rest) := by
  fun_induction varint value with
  | case1 value hsmall =>
      have hbyte : (UInt8.ofNat value).toNat = value := by
        rw [UInt8.toNat_ofNat']
        omega
      rw [List.singleton_append, readVarint, if_pos (by rwa [hbyte]), hbyte]
  | case2 value hlarge ih =>
      have hbyte : (UInt8.ofNat (value % 128 + 128)).toNat = value % 128 + 128 := by
        rw [UInt8.toNat_ofNat']
        omega
      rw [List.cons_append, readVarint, hbyte, if_neg (by omega), ih]
      simp only [Option.map_some, Option.some.injEq, Prod.mk.injEq, and_true]
      omega

def Postcard.vecU8 : Postcard (List UInt8) where
  toAllocvec bytes := .ok (varint bytes.length ++ bytes)
  fromBytes bytes :=
    match readVarint bytes with
    | none => .error "Hit the end of buffer, expected more data"
    | some (len, rest) =>
        if len ≤ rest.length then .ok (rest.take len)
        else .error "Hit the end of buffer, expected more data"

theorem Postcard.vecU8_roundTrips : Postcard.vecU8.RoundTrips := by
  intro message bytes hbytes
  obtain rfl : varint message.length ++ message = bytes := Except.ok.inj hbytes
  simp [Postcard.vecU8, readVarint_varint]

/-! ### The size in front -/

def u32Bytes (value : Nat) : List UInt8 := bytesBE 4 (BitVec.ofNat 32 value)

def u32FromBytes (bytes : List UInt8) : Nat :=
  bytes.foldl (fun value byte => 256 * value + byte.toNat) 0

@[simp]
theorem length_u32Bytes (value : Nat) : (u32Bytes value).length = 4 := length_bytesBE 4 _

theorem ofBitVec_extractLsb' {width : Nat} (value : BitVec width) (start : Nat) :
    UInt8.ofBitVec (value.extractLsb' start 8) = UInt8.ofNat (value.toNat / 2 ^ start) := by
  apply UInt8.toNat_inj.mp
  rw [UInt8.toNat_ofBitVec, BitVec.extractLsb'_toNat, UInt8.toNat_ofNat', Nat.shiftRight_eq_div_pow]

theorem u32FromBytes_u32Bytes (value : Nat) : u32FromBytes (u32Bytes value) = value % 2 ^ 32 := by
  have hbytes : u32Bytes value =
      [UInt8.ofNat (value % 2 ^ 32 / 2 ^ 24), UInt8.ofNat (value % 2 ^ 32 / 2 ^ 16),
        UInt8.ofNat (value % 2 ^ 32 / 2 ^ 8), UInt8.ofNat (value % 2 ^ 32 / 2 ^ 0)] := by
    simp [u32Bytes, bytesBE, ofBitVec_extractLsb']
  rw [hbytes]
  simp only [u32FromBytes, List.foldl_cons, List.foldl_nil, UInt8.toNat_ofNat']
  omega

namespace Wire

inductive WireError where
  | streamClosed
  | messageTooLarge
  | deserialize
  | serialize
  deriving DecidableEq

/-- The next bytes of a stream that ends with `recv`, and the stream after them. -/
def readExact (len : Nat) (recv : List UInt8) : Except WireError (List UInt8 × List UInt8) :=
  if len ≤ recv.length then .ok (recv.take len, recv.drop len) else .error .streamClosed

def readMessage (postcard : Postcard T) (recv : List UInt8) : Except WireError (T × List UInt8) := do
  let (lenBytes, recv) ← readExact 4 recv
  let len := u32FromBytes lenBytes
  if len > maxMsgSize then .error .messageTooLarge
  else
    let (buf, recv) ← readExact len recv
    match postcard.fromBytes buf with
    | .ok message => .ok (message, recv)
    | .error _ => .error .deserialize

def writeMessage (postcard : Postcard T) (message : T) : Except WireError (List UInt8) :=
  match postcard.toAllocvec message with
  | .error _ => .error .serialize
  | .ok bytes =>
      if bytes.length > maxMsgSize then .error .messageTooLarge
      else .ok (u32Bytes bytes.length ++ bytes)

theorem readExact_append {bytes : List UInt8} {len : Nat} (hlen : bytes.length = len)
    (rest : List UInt8) : readExact len (bytes ++ rest) = .ok (bytes, rest) := by
  have hle : len ≤ (bytes ++ rest).length := by
    rw [List.length_append, hlen]
    exact Nat.le_add_right len rest.length
  rw [readExact, if_pos hle, List.take_left' hlen, List.drop_left' hlen]

theorem writeMessage_eq_ok_iff {postcard : Postcard T} {message : T} {frame : List UInt8} :
    writeMessage postcard message = .ok frame ↔
      ∃ payload, postcard.toAllocvec message = .ok payload ∧ payload.length ≤ maxMsgSize ∧
        u32Bytes payload.length ++ payload = frame := by
  unfold writeMessage
  cases hpayload : postcard.toAllocvec message with
  | error text => simp
  | ok payload =>
      simp only [Except.ok.injEq, exists_eq_left']
      split
      next hlarge =>
        simp only [reduceCtorEq, false_iff, not_and]
        intro hfits
        exact absurd hfits (Nat.not_le_of_gt hlarge)
      next hfits => simp only [Except.ok.injEq, Nat.le_of_not_gt hfits, true_and]

/-- The sender's refusals: a message without a serialization and one that is too large. -/
theorem exists_writeMessage_iff_fits {postcard : Postcard T} {message : T} {payload : List UInt8}
    (hpayload : postcard.toAllocvec message = .ok payload) :
    (∃ frame, writeMessage postcard message = .ok frame) ↔ postcard.Fits message := by
  simp only [writeMessage_eq_ok_iff, hpayload, Except.ok.injEq, exists_eq_left', Postcard.Fits,
    forall_eq']
  constructor
  · rintro ⟨frame, hfits, -⟩
    exact hfits
  · intro hfits
    exact ⟨_, hfits, rfl⟩

/-- A size that the prefix can say is read back. -/
theorem u32FromBytes_of_le {size : Nat} (hsize : size ≤ maxMsgSize) :
    u32FromBytes (u32Bytes size) = size := by
  have hlt : size < 2 ^ 32 := lt_of_le_of_lt hsize (by decide)
  rw [u32FromBytes_u32Bytes, Nat.mod_eq_of_lt hlt]

/-- A frame of a payload within the maximum size is read, whatever follows it. -/
theorem readMessage_frame {postcard : Postcard T} {message : T} {payload : List UInt8}
    (hdecodes : postcard.fromBytes payload = .ok message) (hfits : payload.length ≤ maxMsgSize)
    (rest : List UInt8) :
    readMessage postcard (u32Bytes payload.length ++ payload ++ rest) = .ok (message, rest) := by
  have hprefix : readExact 4 (u32Bytes payload.length ++ payload ++ rest) =
      .ok (u32Bytes payload.length, payload ++ rest) := by
    rw [List.append_assoc]
    exact readExact_append (length_u32Bytes _) (payload ++ rest)
  have hbody : readExact payload.length (payload ++ rest) = .ok (payload, rest) :=
    readExact_append rfl rest
  unfold readMessage
  refine Except.bind_eq_ok_iff.mpr ⟨_, hprefix, ?_⟩
  dsimp only
  rw [u32FromBytes_of_le hfits, if_neg (Nat.not_lt_of_ge hfits)]
  refine Except.bind_eq_ok_iff.mpr ⟨_, hbody, ?_⟩
  dsimp only
  rw [hdecodes]

end Wire

end BlazeList
