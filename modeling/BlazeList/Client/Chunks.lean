import BlazeList.Client.Wire

/-!
# Messages that arrive in chunks

Frames are sent one after the other, and arrive cut into chunks at any place. Reading messages from one
buffered reader gives those whose frames have arrived, and then finds the stream closed.
-/

namespace BlazeList

variable {T : Type} {postcard : Postcard T}

namespace Transport

def readMessages (postcard : Postcard T) : Nat → BufReader → Except WireError (List T × BufReader)
  | 0, reader => .ok ([], reader)
  | count + 1, reader => do
      let (message, reader) ← readMessage postcard reader
      let (messages, reader) ← readMessages postcard count reader
      return (message :: messages, reader)

def BufReader.new (chunks : List (List UInt8)) : BufReader := ⟨chunks.map .chunk, []⟩

def arrivedFrames : List (List UInt8) → Nat → Nat
  | [], _ => 0
  | frame :: frames, length =>
      if frame.length ≤ length then arrivedFrames frames (length - frame.length) + 1 else 0

theorem arrivedFrames_flatten (frames : List (List UInt8)) :
    arrivedFrames frames frames.flatten.length = frames.length := by
  induction frames with
  | nil => rfl
  | cons frame frames ih =>
      rw [List.flatten_cons, List.length_append, arrivedFrames, if_pos (Nat.le_add_right _ _),
        Nat.add_sub_cancel_left, ih, List.length_cons]

/-- The frames that have arrived are in the bytes, and the next one is not. -/
theorem flatten_take_arrivedFrames {frames : List (List UInt8)} {bytes : List UInt8}
    (hbytes : bytes <+: frames.flatten) :
    (frames.take (arrivedFrames frames bytes.length)).flatten <+: bytes ∧
      (arrivedFrames frames bytes.length < frames.length →
        bytes.length < (frames.take (arrivedFrames frames bytes.length + 1)).flatten.length) := by
  induction frames generalizing bytes with
  | nil => exact ⟨List.nil_prefix, fun hlt => absurd hlt (Nat.not_lt_zero _)⟩
  | cons frame frames ih =>
      rw [List.flatten_cons] at hbytes
      rw [arrivedFrames]
      split
      next hle =>
        obtain ⟨rest, rfl⟩ := List.prefix_of_prefix_length_le (List.prefix_append _ frames.flatten)
          hbytes hle
        obtain ⟨harrived, hnext⟩ := ih ((List.prefix_append_right_inj _).mp hbytes)
        rw [List.length_append, Nat.add_sub_cancel_left]
        constructor
        · rw [List.take_succ_cons, List.flatten_cons]
          exact (List.prefix_append_right_inj _).mpr harrived
        · intro hlt
          rw [List.length_cons] at hlt
          have hrest := hnext (Nat.lt_of_succ_lt_succ hlt)
          rw [List.take_succ_cons, List.flatten_cons, List.length_append]
          omega
      next hshort => exact ⟨List.nil_prefix, fun _ => by simpa using hshort⟩

/-! ### Streams that end early -/

theorem delivers_chunks {chunks : List (List UInt8)} (hchunks : ∀ chunk ∈ chunks, chunk ≠ []) :
    Delivers (chunks.map .chunk) chunks.flatten := by
  induction chunks with
  | nil => exact .done
  | cons chunk chunks ih =>
      obtain ⟨hchunk, hrest⟩ := List.forall_mem_cons.mp hchunks
      exact .chunk hchunk (ih hrest)

/-- More is asked for than is left: the stream is closed. -/
theorem readExactFrom_eq_closed {reader : List ReadResult} {pending : List UInt8}
    (hreader : Delivers reader pending) {buffer : List UInt8} {len : Nat}
    (hlen : (buffer ++ pending).length < len) :
    readExactFrom len reader buffer = .error .streamClosed := by
  induction hreader generalizing buffer with
  | done =>
      rw [List.append_nil] at hlen
      rw [readExactFrom, if_neg (Nat.not_le_of_gt hlen)]
  | @chunk chunk reader pending hnonempty hrest ih =>
      have hbuffer : ¬ len ≤ buffer.length := by
        rw [List.length_append] at hlen
        omega
      rw [readExactFrom, if_neg hbuffer, if_neg (by simpa using hnonempty)]
      apply ih
      rwa [List.append_assoc]

theorem BufReader.Holds.readExact_closed {reader : BufReader} {bytes : List UInt8}
    (hreader : reader.Holds bytes) {len : Nat} (hlen : bytes.length < len) :
    reader.readExact len = .error .streamClosed := by
  obtain ⟨pending, hpending, rfl⟩ := hreader
  exact readExactFrom_eq_closed hpending hlen

/-- A frame that has not arrived whole yields no message. -/
theorem readMessage_cut {payload cut : List UInt8} (hfits : payload.length ≤ maxMsgSize)
    (hcut : cut <+: u32Bytes payload.length ++ payload)
    (hshort : cut.length < (u32Bytes payload.length ++ payload).length) {reader : BufReader}
    (hreader : reader.Holds cut) : readMessage postcard reader = .error .streamClosed := by
  unfold readMessage
  by_cases hprefix : cut.length < 4
  · rw [hreader.readExact_closed hprefix]
    rfl
  · obtain ⟨part, rfl⟩ : ∃ part, u32Bytes payload.length ++ part = cut := by
      apply List.prefix_of_prefix_length_le (List.prefix_append _ payload) hcut
      rw [length_u32Bytes]
      omega
    obtain ⟨body, hread, hbody⟩ := hreader.readExact (length_u32Bytes payload.length)
    have hpart : part.length < payload.length := by
      rw [List.length_append, List.length_append] at hshort
      omega
    refine Except.bind_eq_error_iff.mpr (.inr ⟨_, hread, ?_⟩)
    dsimp only
    rw [Wire.u32FromBytes_of_le hfits, if_neg (Nat.not_lt_of_ge hfits), hbody.readExact_closed hpart]
    rfl

theorem readMessage_done {reader : BufReader} (hreader : reader.Holds []) :
    readMessage postcard reader = .error .streamClosed := by
  unfold readMessage
  rw [hreader.readExact_closed (by decide)]
  rfl

/-! ### One message after the other -/

theorem readMessages_cons {reader next left : BufReader} {message : T} {messages : List T} {count : Nat}
    (hmessage : readMessage postcard reader = .ok (message, next))
    (hmessages : readMessages postcard count next = .ok (messages, left)) :
    readMessages postcard (count + 1) reader = .ok (message :: messages, left) := by
  rw [readMessages]
  refine Except.bind_eq_ok_iff.mpr ⟨_, hmessage, ?_⟩
  exact Except.bind_eq_ok_iff.mpr ⟨_, hmessages, rfl⟩

/-- What is left after the messages whose frames have arrived is not enough for another one. -/
theorem readMessages_prefix (hroundTrips : postcard.RoundTrips) {messages : List T}
    {frames : List (List UInt8)} (hframes : messages.mapM (Wire.writeMessage postcard) = .ok frames)
    {bytes : List UInt8} (hbytes : bytes <+: frames.flatten) {reader : BufReader}
    (hreader : reader.Holds bytes) :
    ∃ left, readMessages postcard (arrivedFrames frames bytes.length) reader =
        .ok (messages.take (arrivedFrames frames bytes.length), left) ∧
      readMessage postcard left = .error .streamClosed := by
  have hwritten := Except.mapM_eq_ok_iff.mp hframes
  clear hframes
  induction hwritten generalizing bytes reader with
  | nil =>
      obtain rfl : bytes = [] := List.prefix_nil.mp hbytes
      exact ⟨reader, rfl, readMessage_done hreader⟩
  | @cons message frame messages frames hmessage _ ih =>
      obtain ⟨payload, hpayload, hfits, rfl⟩ := Wire.writeMessage_eq_ok_iff.mp hmessage
      rw [List.flatten_cons] at hbytes
      rw [arrivedFrames]
      split
      next hle =>
        obtain ⟨rest, rfl⟩ := List.prefix_of_prefix_length_le (List.prefix_append _ frames.flatten)
          hbytes hle
        obtain ⟨next, hnext, hleft⟩ := readMessage_frame (hroundTrips hpayload) hfits hreader
        have hrest : rest <+: frames.flatten := (List.prefix_append_right_inj _).mp hbytes
        rw [List.length_append, Nat.add_sub_cancel_left]
        obtain ⟨left, hmessages, hclosed⟩ := ih hrest hleft
        exact ⟨left, readMessages_cons hnext hmessages, hclosed⟩
      next hshort =>
        have hcut : bytes <+: u32Bytes payload.length ++ payload :=
          List.prefix_of_prefix_length_le hbytes (List.prefix_append _ frames.flatten) (by omega)
        exact ⟨reader, rfl, readMessage_cut hfits hcut (by omega) hreader⟩

end Transport

/-- **Framing survives chunking.** The frames of messages within the maximum size are delivered as far
as they go, cut in any way. The messages whose frames have arrived are read, in order, and the next read
finds the stream closed. With all bytes delivered these are all messages. -/
theorem readMessages_chunks (postcard : Postcard T) (hroundTrips : postcard.RoundTrips)
    (messages : List T) (hfits : ∀ message ∈ messages,
      ∃ payload, postcard.toAllocvec message = .ok payload ∧ payload.length ≤ maxMsgSize) :
    ∃ frames, messages.mapM (Wire.writeMessage postcard) = .ok frames ∧
      ∀ chunks : List (List UInt8), (∀ chunk ∈ chunks, chunk ≠ []) →
        chunks.flatten <+: frames.flatten →
        ∃ count left, Transport.readMessages postcard count (.new chunks) =
            .ok (messages.take count, left) ∧
          Transport.readMessage postcard left = .error .streamClosed ∧
          (frames.take count).flatten <+: chunks.flatten ∧
          (count < messages.length →
            chunks.flatten.length < (frames.take (count + 1)).flatten.length) ∧
          (chunks.flatten = frames.flatten → count = messages.length) := by
  have hsent : ∀ message ∈ messages, ∃ frame, Wire.writeMessage postcard message = .ok frame := by
    intro message hmessage
    obtain ⟨payload, hpayload, hsize⟩ := hfits message hmessage
    exact ⟨_, Wire.writeMessage_eq_ok_iff.mpr ⟨payload, hpayload, hsize, rfl⟩⟩
  obtain ⟨frames, hframes⟩ := Except.exists_mapM_eq_ok hsent
  have hlength : messages.length = frames.length := (Except.mapM_eq_ok_iff.mp hframes).length_eq
  refine ⟨frames, hframes, fun chunks hchunks hprefix => ?_⟩
  have hreader : (Transport.BufReader.new chunks).Holds chunks.flatten :=
    Transport.holds_of_delivers (Transport.delivers_chunks hchunks)
  obtain ⟨left, hread, hclosed⟩ := Transport.readMessages_prefix hroundTrips hframes hprefix hreader
  obtain ⟨harrived, hnext⟩ := Transport.flatten_take_arrivedFrames hprefix
  refine ⟨_, left, hread, hclosed, harrived, fun hlt => hnext (hlength ▸ hlt), fun hall => ?_⟩
  rw [hall, Transport.arrivedFrames_flatten, hlength]

/-- Two messages, one of them empty, that arrive byte by byte. -/
theorem readMessages_chunks_bytewise :
    ∃ frames, [[7, 7], []].mapM (Wire.writeMessage Postcard.vecU8) = .ok frames ∧
      ∃ left, Transport.readMessages Postcard.vecU8 2 (.new (frames.flatten.map fun byte => [byte])) =
          .ok ([[7, 7], []], left) ∧
        Transport.readMessage Postcard.vecU8 left = .error .streamClosed := by
  have hfits : ∀ message ∈ [[7, 7], []], ∃ payload,
      Postcard.vecU8.toAllocvec message = .ok payload ∧ payload.length ≤ maxMsgSize := by
    intro message hmessage
    refine ⟨_, rfl, ?_⟩
    simp only [List.mem_cons, List.not_mem_nil, or_false] at hmessage
    rcases hmessage with rfl | rfl <;> simp [varint, maxMsgSize]
  obtain ⟨frames, hframes, hchunks⟩ := readMessages_chunks Postcard.vecU8 Postcard.vecU8_roundTrips
    [[7, 7], []] hfits
  have hflatten : (frames.flatten.map fun byte => [byte]).flatten = frames.flatten := by
    rw [← List.flatMap_def, List.flatMap_singleton']
  have hnonempty : ∀ chunk ∈ frames.flatten.map fun byte => [byte], chunk ≠ [] := by
    intro chunk hchunk
    obtain ⟨byte, -, rfl⟩ := List.mem_map.mp hchunk
    exact List.cons_ne_nil byte []
  have hprefix : (frames.flatten.map fun byte => [byte]).flatten <+: frames.flatten :=
    hflatten.symm ▸ List.prefix_rfl
  obtain ⟨count, left, hread, hclosed, -, -, hall⟩ := hchunks _ hnonempty hprefix
  rw [hall hflatten] at hread
  exact ⟨frames, hframes, left, hread, hclosed⟩

end BlazeList
