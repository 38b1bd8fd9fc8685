import BlazeList.Protocol.Wire

/-!
# The browser client's framing

The browser client frames its messages itself, over streams that deliver bytes in chunks of any size.
Its frames are the protocol's, except that it sends a payload of any size.
-/

namespace BlazeList

variable {T : Type}

namespace Transport

inductive WireError where
  | streamClosed
  | messageTooLarge
  | deserialize (text : String)
  | serialize (text : String)
  | jsError (text : String)
  deriving DecidableEq

inductive ReadResult where
  | rejected (text : String)
  | done
  | undefined
  | chunk (bytes : List UInt8)

/-- The reads that a stream still answers, done after them, and what was read and not consumed. -/
structure BufReader where
  reader : List ReadResult
  buffer : List UInt8

def readExactFrom (len : Nat) (reader : List ReadResult) (buffer : List UInt8) :
    Except WireError (List UInt8 × BufReader) :=
  if len ≤ buffer.length then .ok (buffer.take len, ⟨reader, buffer.drop len⟩)
  else match reader with
    | [] => .error .streamClosed
    | .rejected text :: _ => .error (.jsError text)
    | .done :: _ => .error .streamClosed
    | .undefined :: _ => .error .streamClosed
    | .chunk bytes :: reader =>
        if bytes.isEmpty then .error .streamClosed
        else readExactFrom len reader (buffer ++ bytes)

/-- The next bytes, from the buffer first and from the stream as needed. -/
def BufReader.readExact (len : Nat) (self : BufReader) :
    Except WireError (List UInt8 × BufReader) :=
  readExactFrom len self.reader self.buffer

def readMessage (postcard : Postcard T) (reader : BufReader) :
    Except WireError (T × BufReader) := do
  let (lenBytes, reader) ← reader.readExact 4
  let len := u32FromBytes lenBytes
  if len > maxMsgSize then .error .messageTooLarge
  else
    let (payload, reader) ← reader.readExact len
    match postcard.fromBytes payload with
    | .ok message => .ok (message, reader)
    | .error text => .error (.deserialize text)

def writeMessage (postcard : Postcard T) (message : T) : Except WireError (List UInt8) :=
  match postcard.toAllocvec message with
  | .error text => .error (.serialize text)
  | .ok payload => .ok (u32Bytes payload.length ++ payload)

/-! ### Streams that deliver bytes -/

/-- The stream delivers `pending` after the buffer, in chunks that are not empty. -/
inductive Delivers : List ReadResult → List UInt8 → Prop where
  | done : Delivers [] []
  | chunk {bytes : List UInt8} {reader : List ReadResult} {pending : List UInt8}
      (hnonempty : bytes ≠ []) (hrest : Delivers reader pending) :
      Delivers (.chunk bytes :: reader) (bytes ++ pending)

def BufReader.Holds (self : BufReader) (bytes : List UInt8) : Prop :=
  ∃ pending, Delivers self.reader pending ∧ bytes = self.buffer ++ pending

theorem holds_of_delivers {reader : List ReadResult} {bytes : List UInt8}
    (hreader : Delivers reader bytes) : BufReader.Holds ⟨reader, []⟩ bytes :=
  ⟨bytes, hreader, rfl⟩

/-- The buffer holds all that is asked for. -/
theorem readExactFrom_of_length_le {bytes buffer pending rest : List UInt8}
    {reader : List ReadResult} (hreader : Delivers reader pending)
    (hbytes : buffer ++ pending = bytes ++ rest) (hbuffer : bytes.length ≤ buffer.length) :
    ∃ left, readExactFrom bytes.length reader buffer = .ok (bytes, left) ∧ left.Holds rest := by
  obtain ⟨kept, hkept⟩ := List.prefix_of_prefix_length_le (List.prefix_append bytes rest)
    (hbytes ▸ List.prefix_append buffer pending) hbuffer
  subst hkept
  rw [List.append_assoc] at hbytes
  refine ⟨⟨reader, kept⟩, ?_, pending, hreader, (List.append_cancel_left hbytes).symm⟩
  rw [readExactFrom.eq_def, if_pos hbuffer, List.take_left' rfl, List.drop_left' rfl]

/-- Enough bytes are there: they are read, however they are cut, and nothing else is consumed. -/
theorem readExactFrom_eq_ok {reader : List ReadResult} {pending : List UInt8}
    (hreader : Delivers reader pending) {buffer bytes rest : List UInt8}
    (hbytes : buffer ++ pending = bytes ++ rest) :
    ∃ left, readExactFrom bytes.length reader buffer = .ok (bytes, left) ∧ left.Holds rest := by
  induction hreader generalizing buffer with
  | done =>
      have hlength := congrArg List.length hbytes
      rw [List.append_nil, List.length_append] at hlength
      exact readExactFrom_of_length_le .done hbytes (by omega)
  | @chunk chunk reader pending hnonempty hrest ih =>
      by_cases hbuffer : bytes.length ≤ buffer.length
      · exact readExactFrom_of_length_le (.chunk hnonempty hrest) hbytes hbuffer
      · have hnext : (buffer ++ chunk) ++ pending = bytes ++ rest := by
          rw [List.append_assoc, hbytes]
        have hstep : readExactFrom bytes.length (.chunk chunk :: reader) buffer =
            readExactFrom bytes.length reader (buffer ++ chunk) := by
          rw [readExactFrom, if_neg hbuffer]
          simp [hnonempty]
        rw [hstep]
        exact ih hnext

theorem BufReader.Holds.readExact {reader : BufReader} {bytes rest : List UInt8}
    (hreader : reader.Holds (bytes ++ rest)) {len : Nat} (hlen : bytes.length = len) :
    ∃ left, reader.readExact len = .ok (bytes, left) ∧ left.Holds rest := by
  obtain ⟨pending, hpending, hbytes⟩ := hreader
  subst hlen
  exact readExactFrom_eq_ok hpending hbytes.symm

/-- A frame of a payload within the maximum size is read, however the stream cuts it. -/
theorem readMessage_frame {postcard : Postcard T} {message : T} {payload rest : List UInt8}
    (hdecodes : postcard.fromBytes payload = .ok message) (hfits : payload.length ≤ maxMsgSize)
    {reader : BufReader} (hreader : reader.Holds (u32Bytes payload.length ++ payload ++ rest)) :
    ∃ left, readMessage postcard reader = .ok (message, left) ∧ left.Holds rest := by
  rw [List.append_assoc] at hreader
  obtain ⟨body, hprefix, hbody⟩ := hreader.readExact (length_u32Bytes _)
  obtain ⟨left, hpayload, hleft⟩ := hbody.readExact rfl
  refine ⟨left, ?_, hleft⟩
  unfold readMessage
  refine Except.bind_eq_ok_iff.mpr ⟨_, hprefix, ?_⟩
  dsimp only
  rw [Wire.u32FromBytes_of_le hfits, if_neg (Nat.not_lt_of_ge hfits)]
  refine Except.bind_eq_ok_iff.mpr ⟨_, hpayload, ?_⟩
  dsimp only
  rw [hdecodes]

theorem writeMessage_eq_ok_iff {postcard : Postcard T} {message : T} {frame : List UInt8} :
    writeMessage postcard message = .ok frame ↔
      ∃ payload, postcard.toAllocvec message = .ok payload ∧
        u32Bytes payload.length ++ payload = frame := by
  unfold writeMessage
  cases postcard.toAllocvec message with
  | error text => simp
  | ok payload => simp

end Transport

/-! ### The two framings side by side -/

/-- Both sides reject the message or send the same bytes, and each reads what the other sends. -/
structure FramingsAgree (postcard : Postcard T) (message : T) : Prop where
  same : ((∃ e, Transport.writeMessage postcard message = .error e) ∧
      ∃ e, Wire.writeMessage postcard message = .error e) ∨
    ∃ frame, Transport.writeMessage postcard message = .ok frame ∧
      Wire.writeMessage postcard message = .ok frame
  fromClient : ∀ frame, Transport.writeMessage postcard message = .ok frame → ∀ rest,
    Wire.readMessage postcard (frame ++ rest) = .ok (message, rest)
  fromServer : ∀ frame, Wire.writeMessage postcard message = .ok frame → ∀ rest reader,
    reader.Holds (frame ++ rest) →
      ∃ left, Transport.readMessage postcard reader = .ok (message, left) ∧ left.Holds rest

section

variable {postcard : Postcard T} {message : T}

theorem framingsAgree_of_error {text : String} (herror : postcard.toAllocvec message = .error text) :
    FramingsAgree postcard message := by
  have hclient : Transport.writeMessage postcard message = .error (.serialize text) := by
    rw [Transport.writeMessage, herror]
  have hserver : Wire.writeMessage postcard message = .error .serialize := by
    rw [Wire.writeMessage, herror]
  refine ⟨.inl ⟨⟨_, hclient⟩, _, hserver⟩, ?_, ?_⟩
  · intro frame hframe
    rw [hclient] at hframe
    contradiction
  · intro frame hframe
    rw [hserver] at hframe
    contradiction

theorem framingsAgree_of_fits (hroundTrips : postcard.RoundTrips) {payload : List UInt8}
    (hpayload : postcard.toAllocvec message = .ok payload) (hfits : payload.length ≤ maxMsgSize) :
    FramingsAgree postcard message := by
  have hdecodes := hroundTrips hpayload
  have hclient : Transport.writeMessage postcard message = .ok (u32Bytes payload.length ++ payload) :=
    Transport.writeMessage_eq_ok_iff.mpr ⟨payload, hpayload, rfl⟩
  have hserver : Wire.writeMessage postcard message = .ok (u32Bytes payload.length ++ payload) :=
    Wire.writeMessage_eq_ok_iff.mpr ⟨payload, hpayload, hfits, rfl⟩
  refine ⟨.inr ⟨_, hclient, hserver⟩, ?_, ?_⟩
  · intro frame hframe rest
    obtain rfl : u32Bytes payload.length ++ payload = frame :=
      Except.ok.inj (hclient.symm.trans hframe)
    exact Wire.readMessage_frame hdecodes hfits rest
  · intro frame hframe rest reader hreader
    obtain rfl : u32Bytes payload.length ++ payload = frame :=
      Except.ok.inj (hserver.symm.trans hframe)
    exact Transport.readMessage_frame hdecodes hfits hreader

/-- The client sends what the server's side refuses to send. -/
theorem not_framingsAgree_of_large {payload : List UInt8}
    (hpayload : postcard.toAllocvec message = .ok payload) (hlarge : maxMsgSize < payload.length) :
    ¬FramingsAgree postcard message := by
  intro hagree
  rcases hagree.same with ⟨⟨e, hclient⟩, -⟩ | ⟨frame, -, hserver⟩
  · rw [Transport.writeMessage, hpayload] at hclient
    contradiction
  · obtain ⟨sent, hsent, hfits, -⟩ := Wire.writeMessage_eq_ok_iff.mp hserver
    obtain rfl : payload = sent := Except.ok.inj (hpayload.symm.trans hsent)
    exact absurd hfits (Nat.not_le_of_gt hlarge)

end

/-- The framings agree on exactly the messages within the maximum size. -/
theorem framingsAgree_iff (postcard : Postcard T) (hroundTrips : postcard.RoundTrips) (message : T) :
    FramingsAgree postcard message ↔ postcard.Fits message := by
  constructor
  · intro hagree payload hpayload
    by_contra hlarge
    exact not_framingsAgree_of_large hpayload (Nat.lt_of_not_le hlarge) hagree
  · intro hfits
    cases hpayload : postcard.toAllocvec message with
    | error text => exact framingsAgree_of_error hpayload
    | ok payload => exact framingsAgree_of_fits hroundTrips hpayload (hfits payload hpayload)

theorem framingsAgree_short : FramingsAgree Postcard.vecU8 [7, 7] := by
  apply (framingsAgree_iff Postcard.vecU8 Postcard.vecU8_roundTrips [7, 7]).mpr
  intro payload hpayload
  obtain rfl : varint 2 ++ [7, 7] = payload := Except.ok.inj hpayload
  simp [varint, maxMsgSize]

theorem not_framingsAgree_oversized :
    Postcard.vecU8.RoundTrips ∧
      ¬FramingsAgree Postcard.vecU8 (List.replicate (maxMsgSize + 1) 0) := by
  refine ⟨Postcard.vecU8_roundTrips, not_framingsAgree_of_large rfl ?_⟩
  rw [List.length_append, List.length_replicate]
  omega

end BlazeList
