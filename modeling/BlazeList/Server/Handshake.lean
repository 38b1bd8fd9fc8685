import BlazeList.Protocol.Wire
import BlazeList.Server.Upgrade

/-!
# The version handshake

The client sends its version on the first stream of a connection, and the server answers with its own:
they go on if the major versions are the same. Either direction of the stream may fail at any byte, and
each side is left with what it has read and written.
-/

namespace BlazeList

structure SemVer extends Version where
  pre : String
  build : String
  deriving DecidableEq

def isCompatible (a b : SemVer) : Bool := a.major = b.major

structure VersionCheck where
  version : SemVer
  deriving DecidableEq

inductive VersionResult where
  | ok (serverVersion : SemVer)
  | mismatch (serverVersion : SemVer)
  deriving DecidableEq

inductive HandshakeError where
  | versionMismatch (localVersion remote : SemVer)
  | wire (error : Wire.WireError)
  | writeFailed

def versionResult (clientVersion serverVersion : SemVer) : VersionResult :=
  if isCompatible clientVersion serverVersion then .ok serverVersion else .mismatch serverVersion

/-- One direction of a stream: how many bytes it takes before a write fails, and how many of them arrive
before it is closed. -/
structure Link where
  capacity : Nat
  delivered : Nat

def Link.send (link : Link) (frame : List UInt8) : List UInt8 × Bool :=
  ((frame.take link.capacity).take link.delivered, frame.length ≤ link.capacity)

section

variable (checks : Postcard VersionCheck) (results : Postcard VersionResult)

/-! ### The two sides -/

def serverHandshake (recv : List UInt8) (link : Link) (serverVersion : SemVer) :
    List UInt8 × Except HandshakeError Unit :=
  match Wire.readMessage checks recv with
  | .error error => ([], .error (.wire error))
  | .ok (check, _) =>
      match Wire.writeMessage results (versionResult check.version serverVersion) with
      | .error error => ([], .error (.wire error))
      | .ok frame =>
          let (arrived, sent) := link.send frame
          if !sent then (arrived, .error .writeFailed)
          else if !isCompatible check.version serverVersion then
            (arrived, .error (.versionMismatch serverVersion check.version))
          else (arrived, .ok ())

def clientHandshake (recv : List UInt8) (clientVersion : SemVer) : Except HandshakeError SemVer :=
  match Wire.readMessage results recv with
  | .error error => .error (.wire error)
  | .ok (.ok serverVersion, _) => .ok serverVersion
  | .ok (.mismatch serverVersion, _) => .error (.versionMismatch clientVersion serverVersion)

def handshake (up down : Link) (clientVersion serverVersion : SemVer) :
    Except HandshakeError SemVer × Except HandshakeError Unit :=
  match Wire.writeMessage checks ⟨clientVersion⟩ with
  | .error error => (.error (.wire error), (serverHandshake checks results [] down serverVersion).2)
  | .ok frame =>
      let (arrived, sent) := up.send frame
      let (reply, serverOutcome) := serverHandshake checks results arrived down serverVersion
      (if sent then clientHandshake results reply clientVersion else .error .writeFailed, serverOutcome)

end

/-! ### What arrives of a frame -/

variable {T : Type}

def Link.Carries (link : Link) (postcard : Postcard T) (message : T) : Prop :=
  ∃ frame, Wire.writeMessage postcard message = .ok frame ∧ frame.length ≤ min link.delivered link.capacity

namespace Wire

/-- A frame that arrives whole is read; of one that does not nothing is. -/
theorem readMessage_take {postcard : Postcard T} (hroundTrips : postcard.RoundTrips) {message : T}
    {frame : List UInt8} (hframe : writeMessage postcard message = .ok frame) (n : Nat) :
    readMessage postcard (frame.take n) =
      if frame.length ≤ n then .ok (message, []) else .error .streamClosed := by
  obtain ⟨payload, hpayload, hfits, rfl⟩ := writeMessage_eq_ok_iff.mp hframe
  split
  · rename_i hwhole
    have hread := readMessage_frame (hroundTrips hpayload) hfits []
    rwa [List.append_nil, ← List.take_of_length_le hwhole] at hread
  · rename_i hcut
    have hlength : (u32Bytes payload.length ++ payload).length = 4 + payload.length := by
      rw [List.length_append, length_u32Bytes]
    unfold readMessage
    by_cases hprefix : n < 4
    · have hshort : ¬ 4 ≤ ((u32Bytes payload.length ++ payload).take n).length := by
        rw [List.length_take]
        omega
      rw [readExact, if_neg hshort]
      rfl
    · have htake : (u32Bytes payload.length ++ payload).take n =
          u32Bytes payload.length ++ payload.take (n - 4) := by
        rw [List.take_append, length_u32Bytes, List.take_of_length_le (by rw [length_u32Bytes]; omega)]
      have hshort : ¬ payload.length ≤ (payload.take (n - 4)).length := by
        rw [List.length_take]
        omega
      rw [htake]
      refine Except.bind_eq_error_iff.mpr (.inr ⟨_, readExact_append (length_u32Bytes _) _, ?_⟩)
      dsimp only
      rw [u32FromBytes_of_le hfits, if_neg (Nat.not_lt_of_ge hfits), readExact, if_neg hshort]
      rfl

theorem readMessage_nil (postcard : Postcard T) : readMessage postcard [] = .error .streamClosed := rfl

end Wire

theorem Link.send_fst (link : Link) (frame : List UInt8) :
    (link.send frame).1 = frame.take (min link.delivered link.capacity) := List.take_take

/-- What is read at the far end of a link. -/
theorem Link.readMessage_send (link : Link) {postcard : Postcard T} (hroundTrips : postcard.RoundTrips)
    {message : T} {frame : List UInt8} (hframe : Wire.writeMessage postcard message = .ok frame) :
    Wire.readMessage postcard (link.send frame).1 =
      if frame.length ≤ min link.delivered link.capacity then .ok (message, []) else .error .streamClosed := by
  rw [link.send_fst, Wire.readMessage_take hroundTrips hframe]

/-! ### Both sides agree -/

/-- Neither side takes the versions for compatible when the other takes them for incompatible, and each names
the version of the other. A side that does not learn the outcome has lost the stream. -/
structure Agrees (clientVersion serverVersion : SemVer)
    (outcome : Except HandshakeError SemVer × Except HandshakeError Unit) : Prop where
  accepted : ∀ version, outcome.1 = .ok version → version = serverVersion ∧
    isCompatible clientVersion serverVersion = true ∧ outcome.2 = .ok ()
  refused : ∀ localVersion remote, outcome.1 = .error (.versionMismatch localVersion remote) →
    localVersion = clientVersion ∧ remote = serverVersion ∧ isCompatible clientVersion serverVersion = false ∧
      outcome.2 = .error (.versionMismatch serverVersion clientVersion)
  serving : outcome.2 = .ok () → isCompatible clientVersion serverVersion = true ∧
    (outcome.1 = .ok serverVersion ∨ outcome.1 = .error (.wire .streamClosed))
  refusing : ∀ localVersion remote, outcome.2 = .error (.versionMismatch localVersion remote) →
    localVersion = serverVersion ∧ remote = clientVersion ∧ isCompatible clientVersion serverVersion = false ∧
      (outcome.1 = .error (.versionMismatch clientVersion serverVersion) ∨
        outcome.1 = .error (.wire .streamClosed))

variable {checks : Postcard VersionCheck} {results : Postcard VersionResult} {clientVersion serverVersion : SemVer}

/-- Both sides failed before any of them could tell. -/
theorem agrees_of_failed {client server : HandshakeError}
    (hclient : ∀ localVersion remote, client ≠ .versionMismatch localVersion remote)
    (hserver : ∀ localVersion remote, server ≠ .versionMismatch localVersion remote) :
    Agrees clientVersion serverVersion (.error client, .error server) where
  accepted version h := by cases h
  refused localVersion remote h := absurd (Except.error.inj h) (hclient localVersion remote)
  serving h := by cases h
  refusing localVersion remote h := absurd (Except.error.inj h) (hserver localVersion remote)

theorem serverHandshake_of_closed {recv : List UInt8} (link : Link)
    (h : Wire.readMessage checks recv = .error .streamClosed) :
    serverHandshake checks results recv link serverVersion = ([], .error (.wire .streamClosed)) := by
  rw [serverHandshake, h]

theorem clientHandshake_of_closed {recv : List UInt8} (h : Wire.readMessage results recv = .error .streamClosed) :
    clientHandshake results recv clientVersion = .error (.wire .streamClosed) := by
  rw [clientHandshake, h]

theorem agrees_of_compatible (hcompatible : isCompatible clientVersion serverVersion = true)
    {client : Except HandshakeError SemVer}
    (hclient : client = .ok serverVersion ∨ client = .error (.wire .streamClosed)) :
    Agrees clientVersion serverVersion (client, .ok ()) where
  accepted version h := by
    rcases hclient with rfl | rfl
    · exact ⟨(Except.ok.inj h).symm, hcompatible, rfl⟩
    · cases h
  refused localVersion remote h := by
    rcases hclient with rfl | rfl <;> cases h
  serving _ := ⟨hcompatible, hclient⟩
  refusing localVersion remote h := by cases h

theorem agrees_of_incompatible (hcompatible : isCompatible clientVersion serverVersion = false)
    {client : Except HandshakeError SemVer}
    (hclient : client = .error (.versionMismatch clientVersion serverVersion) ∨
      client = .error (.wire .streamClosed)) :
    Agrees clientVersion serverVersion (client, .error (.versionMismatch serverVersion clientVersion)) where
  accepted version h := by
    rcases hclient with rfl | rfl <;> cases h
  refused localVersion remote h := by
    rcases hclient with rfl | rfl
    · cases h
      exact ⟨rfl, rfl, hcompatible, rfl⟩
    · cases h
  serving h := by cases h
  refusing localVersion remote h := by
    cases h
    exact ⟨rfl, rfl, hcompatible, hclient⟩

/-- The server has read the version of the client. -/
theorem agrees_of_read (hresults : results.RoundTrips) (down : Link) {recv : List UInt8}
    (hread : Wire.readMessage checks recv = .ok (⟨clientVersion⟩, [])) :
    Agrees clientVersion serverVersion
      (clientHandshake results (serverHandshake checks results recv down serverVersion).1 clientVersion,
        (serverHandshake checks results recv down serverVersion).2) := by
  have hclosed : clientHandshake results [] clientVersion = .error (.wire .streamClosed) :=
    clientHandshake_of_closed (Wire.readMessage_nil results)
  rw [serverHandshake, hread]
  dsimp only
  cases hwrite : Wire.writeMessage results
      (versionResult clientVersion serverVersion) with
  | error error =>
      dsimp only
      rw [hclosed]
      exact agrees_of_failed (fun _ _ h => by cases h) (fun _ _ h => by cases h)
  | ok frame =>
      have hanswer := down.readMessage_send hresults hwrite
      dsimp only
      cases hsent : (down.send frame).2 with
      | false =>
          have hcut : ¬ frame.length ≤ min down.delivered down.capacity := by
            intro hwhole
            have htaken : frame.length ≤ down.capacity := hwhole.trans (min_le_right _ _)
            exact absurd hsent (by simpa [Link.send] using htaken)
          rw [if_neg hcut] at hanswer
          change Agrees clientVersion serverVersion
            (clientHandshake results (down.send frame).1 clientVersion, .error .writeFailed)
          rw [clientHandshake_of_closed hanswer]
          exact agrees_of_failed (fun _ _ h => by cases h) (fun _ _ h => by cases h)
      | true =>
          cases hcompatible : isCompatible clientVersion serverVersion with
          | true =>
              rw [versionResult, hcompatible, if_pos rfl] at hanswer
              change Agrees clientVersion serverVersion
                (clientHandshake results (down.send frame).1 clientVersion, .ok ())
              apply agrees_of_compatible hcompatible
              rw [clientHandshake, hanswer]
              split_ifs
              · exact .inl rfl
              · exact .inr rfl
          | false =>
              rw [versionResult, hcompatible, if_neg Bool.false_ne_true] at hanswer
              change Agrees clientVersion serverVersion (clientHandshake results (down.send frame).1 clientVersion,
                .error (.versionMismatch serverVersion clientVersion))
              apply agrees_of_incompatible hcompatible
              rw [clientHandshake, hanswer]
              split_ifs
              · exact .inl rfl
              · exact .inr rfl

/-- Whatever is lost in either direction, the two sides do not disagree. -/
theorem agrees_handshake (hchecks : checks.RoundTrips) (hresults : results.RoundTrips) (up down : Link)
    (clientVersion serverVersion : SemVer) :
    Agrees clientVersion serverVersion (handshake checks results up down clientVersion serverVersion) := by
  have hclosed : serverHandshake checks results [] down serverVersion = ([], .error (.wire .streamClosed)) :=
    serverHandshake_of_closed down (Wire.readMessage_nil checks)
  unfold handshake
  cases hwrite : Wire.writeMessage checks ⟨clientVersion⟩ with
  | error error =>
      dsimp only
      rw [hclosed]
      exact agrees_of_failed (fun _ _ h => by cases h) (fun _ _ h => by cases h)
  | ok frame =>
      have harrived := up.readMessage_send hchecks hwrite
      dsimp only
      split_ifs at harrived with hwhole
      · have htaken : frame.length ≤ up.capacity := hwhole.trans (min_le_right _ _)
        have hsent : (up.send frame).2 = true := decide_eq_true htaken
        rw [if_pos hsent]
        exact agrees_of_read hresults down harrived
      · rw [serverHandshake_of_closed down harrived]
        dsimp only
        split_ifs
        · rw [clientHandshake_of_closed (Wire.readMessage_nil results)]
          exact agrees_of_failed (fun _ _ h => by cases h) (fun _ _ h => by cases h)
        · exact agrees_of_failed (fun _ _ h => by cases h) (fun _ _ h => by cases h)

/-- If nothing is lost, both sides learn whether their versions are compatible. -/
theorem handshake_of_carries (hchecks : checks.RoundTrips) (hresults : results.RoundTrips) {up down : Link}
    (hup : up.Carries checks ⟨clientVersion⟩)
    (hdown : down.Carries results (versionResult clientVersion serverVersion)) :
    handshake checks results up down clientVersion serverVersion =
      if isCompatible clientVersion serverVersion then (.ok serverVersion, .ok ())
      else (.error (.versionMismatch clientVersion serverVersion),
        .error (.versionMismatch serverVersion clientVersion)) := by
  obtain ⟨check, hcheck, hcheckFits⟩ := hup
  obtain ⟨answer, hanswer, hanswerFits⟩ := hdown
  have harrived := up.readMessage_send hchecks hcheck
  have hreply := down.readMessage_send hresults hanswer
  rw [if_pos hcheckFits] at harrived
  rw [if_pos hanswerFits] at hreply
  have hcheckSent : (up.send check).2 = true := decide_eq_true (hcheckFits.trans (min_le_right _ _))
  have hanswerSent : (down.send answer).2 = true := decide_eq_true (hanswerFits.trans (min_le_right _ _))
  have hserver : serverHandshake checks results (up.send check).1 down serverVersion =
      ((down.send answer).1, if isCompatible clientVersion serverVersion then .ok ()
        else .error (.versionMismatch serverVersion clientVersion)) := by
    rw [serverHandshake, harrived]
    dsimp only
    rw [hanswer]
    dsimp only
    rw [hanswerSent]
    cases isCompatible clientVersion serverVersion <;> rfl
  unfold handshake
  rw [hcheck]
  dsimp only
  rw [hcheckSent, if_pos rfl, hserver, clientHandshake, hreply, versionResult]
  cases isCompatible clientVersion serverVersion <;> rfl

/-- The two sides never disagree, and where nothing is lost both learn the outcome. -/
theorem handshake_agrees (hchecks : checks.RoundTrips) (hresults : results.RoundTrips) (up down : Link)
    (clientVersion serverVersion : SemVer) :
    Agrees clientVersion serverVersion (handshake checks results up down clientVersion serverVersion) ∧
      (up.Carries checks ⟨clientVersion⟩ → down.Carries results (versionResult clientVersion serverVersion) →
        handshake checks results up down clientVersion serverVersion =
          if isCompatible clientVersion serverVersion then (.ok serverVersion, .ok ())
          else (.error (.versionMismatch clientVersion serverVersion),
            .error (.versionMismatch serverVersion clientVersion))) :=
  ⟨agrees_handshake hchecks hresults up down clientVersion serverVersion,
    handshake_of_carries hchecks hresults⟩

def Postcard.single [DecidableEq T] (message : T) (bytes : List UInt8) : Postcard T where
  toAllocvec other := if other = message then .ok bytes else .error "unknown message"
  fromBytes payload := if payload = bytes then .ok message else .error "unknown message"

theorem Postcard.single_roundTrips [DecidableEq T] (message : T) (bytes : List UInt8) :
    (Postcard.single message bytes).RoundTrips := by
  intro other payload hpayload
  unfold Postcard.single at hpayload ⊢
  dsimp only at hpayload ⊢
  split_ifs at hpayload with hother
  cases hpayload
  rw [if_pos rfl, hother]

def olderVersion : SemVer := ⟨⟨3, 0, 0⟩, "", ""⟩

def newerVersion : SemVer := ⟨⟨3, 1, 1⟩, "", ""⟩

/-- A version is its text; a result has the index of its variant in front. -/
def olderCheck : Postcard VersionCheck :=
  Postcard.single ⟨olderVersion⟩ (varint 5 ++ "3.0.0".toUTF8.toList)

def newerResult : Postcard VersionResult :=
  Postcard.single (.ok newerVersion) (varint 0 ++ (varint 5 ++ "3.1.1".toUTF8.toList))

/-- Of two versions that agree in their major number, the client learns the newer one when nothing is lost. When the
last byte of the answer is, the server goes on and the client has lost the stream. -/
theorem handshake_agrees_cut :
    (olderCheck.RoundTrips ∧ newerResult.RoundTrips) ∧
      Agrees olderVersion newerVersion
        (handshake olderCheck newerResult ⟨10, 10⟩ ⟨11, 10⟩ olderVersion newerVersion) ∧
      handshake olderCheck newerResult ⟨10, 10⟩ ⟨11, 11⟩ olderVersion newerVersion = (.ok newerVersion, .ok ()) :=
  ⟨⟨Postcard.single_roundTrips _ _, Postcard.single_roundTrips _ _⟩,
    (handshake_agrees (Postcard.single_roundTrips _ _) (Postcard.single_roundTrips _ _) ⟨10, 10⟩ ⟨11, 10⟩
      olderVersion newerVersion).1,
    (handshake_agrees (Postcard.single_roundTrips _ _) (Postcard.single_roundTrips _ _) ⟨10, 10⟩ ⟨11, 11⟩
      olderVersion newerVersion).2
      ⟨[0, 0, 0, 6, 5, 51, 46, 48, 46, 48], by decide +kernel, by decide⟩
      ⟨[0, 0, 0, 7, 0, 5, 51, 46, 49, 46, 49], by decide +kernel, by decide⟩⟩

end BlazeList
