import BlazeList.Protocol.Serialization
import BlazeList.Server.Growth
import BlazeList.Server.Handler
import BlazeList.Server.Handshake

/-!
# Repeated requests

A stream carries one request to the server and its response back, and either may be lost. A client that has
heard nothing asks again, and so a mutation can arrive any number of times. Once it has been accepted it is
never accepted again: its first version is stored and cannot be inserted a second time, or its entity has a
tombstone.
-/

namespace BlazeList

/-! ### One request on its stream -/

structure RequestStream where
  request : Request
  up : Link
  down : Link
  now : Int

section Streams

variable [Blake3] (requests : Postcard Request) (responses : Postcard Response)

def Request.serve (store : Store) (now : Int) (request : Request) : Store × Response :=
  match request with
  | .subscribe => (store, .ok)
  | request => handleRequest store now request

omit [Blake3] in
def respond (down : Link) (response : Response) : List UInt8 :=
  match Wire.writeMessage responses response with
  | .ok frame => (down.send frame).1
  | .error _ => []

def serveStream (store : Store) (now : Int) (recv : List UInt8) (down : Link) : Store × List UInt8 :=
  match Wire.readMessage requests recv with
  | .ok (request, _) =>
      let (after, response) := request.serve store now
      (after, respond responses down response)
  | .error .deserialize => (store, respond responses down (.error .unsupportedRequest))
  | .error _ => (store, [])

/-- Both sides of a stream: the store after it, and the response the client gets, if it gets one. -/
def requestStream (store : Store) (stream : RequestStream) : Store × Option Response :=
  match Wire.writeMessage requests stream.request with
  | .error _ => ((serveStream requests responses store stream.now [] stream.down).1, none)
  | .ok frame =>
      let (arrived, sent) := stream.up.send frame
      let (after, reply) := serveStream requests responses store stream.now arrived stream.down
      (after, if sent then (Wire.readMessage responses reply).toOption.map Prod.fst else none)

def streamStep (store : Store) (stream : RequestStream) : Store :=
  (requestStream requests responses store stream).1

end Streams

section Lossy

variable [Blake3] {requests : Postcard Request} {responses : Postcard Response} {store : Store}

theorem serveStream_of_closed {recv : List UInt8} (now : Int) (down : Link)
    (h : Wire.readMessage requests recv = .error .streamClosed) :
    serveStream requests responses store now recv down = (store, []) := by
  rw [serveStream, h]

omit [Blake3] in
/-- The client reads the response that was sent, or none. -/
theorem readMessage_respond (hresponses : responses.RoundTrips) (down : Link) (response : Response) :
    (Wire.readMessage responses (respond responses down response)).toOption.map Prod.fst = none ∨
      (Wire.readMessage responses (respond responses down response)).toOption.map Prod.fst = some response := by
  unfold respond
  cases hframe : Wire.writeMessage responses response with
  | error error => exact .inl rfl
  | ok frame =>
      dsimp only
      rw [down.readMessage_send hresponses hframe]
      split_ifs
      · exact .inr rfl
      · exact .inl rfl

/-- Over a stream that may break at any byte, a request is served once or not at all, and what the client gets
is the response or nothing. It gets nothing from a server that has not served it. -/
theorem requestStream_cases (hrequests : requests.RoundTrips) (hresponses : responses.RoundTrips)
    (store : Store) (stream : RequestStream) :
    requestStream requests responses store stream = (store, none) ∨
      (requestStream requests responses store stream).1 = (stream.request.serve store stream.now).1 ∧
        ((requestStream requests responses store stream).2 = none ∨
          (requestStream requests responses store stream).2 = some (stream.request.serve store stream.now).2) := by
  unfold requestStream
  cases hframe : Wire.writeMessage requests stream.request with
  | error error =>
      dsimp only
      rw [serveStream_of_closed stream.now stream.down (Wire.readMessage_nil requests)]
      exact .inl rfl
  | ok frame =>
      have harrived := stream.up.readMessage_send hrequests hframe
      dsimp only
      split_ifs at harrived with hwhole
      · right
        rw [serveStream, harrived]
        dsimp only
        refine ⟨rfl, ?_⟩
        split_ifs
        · exact readMessage_respond hresponses stream.down _
        · exact .inl rfl
      · left
        rw [serveStream_of_closed stream.now stream.down harrived]
        dsimp only
        split_ifs <;> rfl

end Lossy

/-! ### Items that cannot be accepted again -/

section Spent

variable [Blake3] {store after : Store}

omit [Blake3] in
def EntityTables.HasVersion {E : Type} [Stored E] (tables : EntityTables E) (entity : E) : Prop :=
  ∃ version ∈ tables.lineage (Entity.id entity), Entity.count version = Entity.count entity

omit [Blake3] in
/-- The first version is stored, or the entity has a tombstone. -/
def PushItem.Spent (store : Store) : PushItem → Prop
  | .cards versions => ∀ first ∈ versions.head?,
      store.isDeleted first.id = true ∨ store.cards.HasVersion first
  | .tags versions => ∀ first ∈ versions.head?,
      store.isDeleted first.id = true ∨ store.tags.HasVersion first
  | .deleteCard id | .deleteTag id => store.isDeleted id = true

section Pushed

variable {E : Type} [Stored E] {before tables : EntityTables E} {versions : List E} {first latest entity : E}

theorem Pushed.hasVersion_first (h : Pushed store before versions first latest tables) :
    tables.HasVersion first := by
  refine ⟨first, ?_, rfl⟩
  rw [h.lineage]
  exact List.mem_append_right _ (List.mem_filter.mpr ⟨h.first_mem, decide_eq_true rfl⟩)

/-- A version is inserted only where none with its id and count is. -/
theorem Pushed.not_hasVersion (h : Pushed store before versions first latest tables) :
    ¬ before.HasVersion first := by
  rintro ⟨version, hversion, hcount⟩
  obtain ⟨row, hrow, rfl, hid⟩ := EntityTables.mem_lineage.mp hversion
  have hunique := tables.versions.unique
  rw [h.versions_rows, List.pairwise_append] at hunique
  exact hunique.2.2 row hrow ⟨first, 0⟩ (List.mem_map_of_mem h.first_mem) ⟨hid, hcount⟩

end Pushed

/-- What has been accepted is spent. -/
theorem spent_of_pushItem {item : PushItem} (h : pushItem store item = .ok after) : item.Spent after := by
  rcases pushItem_cases h with ⟨_, _, _, _, rfl, hpushed, rfl⟩ | ⟨_, _, _, _, rfl, hpushed, rfl⟩ |
    ⟨id, rfl, -, -, rfl⟩ | ⟨id, rfl, -, -, -, -, rfl⟩
  · intro first hfirst
    obtain rfl := Option.some.inj (hpushed.head.symm.trans hfirst)
    exact .inr hpushed.hasVersion_first
  · intro first hfirst
    obtain rfl := Option.some.inj (hpushed.head.symm.trans hfirst)
    exact .inr hpushed.hasVersion_first
  · exact isDeleted_bury id _ _
  · exact isDeleted_bury id _ _

/-- What is spent is not accepted. -/
theorem PushItem.Spent.not_pushItem {item : PushItem} (hspent : item.Spent store) :
    pushItem store item ≠ .ok after := by
  intro h
  rcases pushItem_cases h with ⟨_, _, _, _, rfl, hpushed, -⟩ | ⟨_, _, _, _, rfl, hpushed, -⟩ |
    ⟨id, rfl, hlive, -, -⟩ | ⟨id, rfl, hlive, -, -, -, -⟩
  · rcases hspent _ hpushed.head with hdeleted | hstored
    · exact Bool.false_ne_true (hpushed.notDeleted.symm.trans hdeleted)
    · exact hpushed.not_hasVersion hstored
  · rcases hspent _ hpushed.head with hdeleted | hstored
    · exact Bool.false_ne_true (hpushed.notDeleted.symm.trans hdeleted)
    · exact hpushed.not_hasVersion hstored
  · exact Bool.false_ne_true (hlive.symm.trans hspent)
  · exact Bool.false_ne_true (hlive.symm.trans hspent)

omit [Blake3] in
/-- Whatever else is accepted, what is spent stays so. -/
theorem PushItem.Spent.grows {item : PushItem} (hspent : item.Spent store) (h : Grows store after) :
    item.Spent after := by
  cases item with
  | deleteCard id => exact h.deleted id hspent
  | deleteTag id => exact h.deleted id hspent
  | cards versions =>
      intro first hfirst
      rcases hspent first hfirst with hbefore | ⟨version, hversion, hcount⟩
      · exact .inl (h.deleted _ hbefore)
      · exact (h.cards first.id).imp id fun hlonger => ⟨version, hlonger.subset hversion, hcount⟩
  | tags versions =>
      intro first hfirst
      rcases hspent first hfirst with hbefore | ⟨version, hversion, hcount⟩
      · exact .inl (h.deleted _ hbefore)
      · exact (h.tags first.id).imp id fun hlonger => ⟨version, hlonger.subset hversion, hcount⟩

/-- The first item of a mutation that has been accepted is spent. -/
theorem spent_of_perform {call : Call} (hitems : call.mutation.items ≠ [])
    (h : perform store call = some after) : ∃ item ∈ call.mutation.items.head?, item.Spent after := by
  rcases perform_eq_some_iff.mp h with ⟨hnone, -⟩ | ⟨-, written, -, hcommitted⟩
  · exact absurd hnone hitems
  · obtain ⟨item, rest, hlist⟩ := List.exists_cons_of_ne_nil hitems
    refine ⟨item, by rw [hlist]; rfl, ?_⟩
    have hwrites := hcommitted.writes
    rw [hlist] at hwrites
    obtain ⟨next, hpush, hrest⟩ := writes_cons.mp hwrites
    exact (spent_of_pushItem hpush).grows ((grows_writes hrest).trans (grows_committed hcommitted))

theorem PushItem.Spent.perform_eq_none {item : PushItem} {call : Call} (hspent : item.Spent store)
    (hitem : item ∈ call.mutation.items.head?) : perform store call = none := by
  by_contra hsome
  obtain ⟨after, hafter⟩ := Option.ne_none_iff_exists'.mp hsome
  rcases perform_eq_some_iff.mp hafter with ⟨hnone, -⟩ | ⟨-, written, -, hcommitted⟩
  · rw [hnone] at hitem
    cases hitem
  · obtain ⟨rest, hlist⟩ := List.head?_eq_some_iff.mp hitem
    have hwrites := hcommitted.writes
    rw [hlist] at hwrites
    obtain ⟨next, hpush, -⟩ := writes_cons.mp hwrites
    exact hspent.not_pushItem hpush

end Spent

/-! ### Asking again -/

section Again

variable [Blake3] {requests : Postcard Request} {responses : Postcard Response} {store : Store}
  {stream : RequestStream} {mutation : Mutation}

theorem Request.serve_eq {request : Request} (hmutation : request.mutation? = some mutation) (store : Store)
    (now : Int) : request.serve store now = handleRequest store now request := by
  cases request with
  | subscribe => contradiction
  | _ => rfl

theorem Request.serve_store (store : Store) (now : Int) (request : Request) :
    (request.serve store now).1 =
      (request.mutation?.map fun mutation => execute store ⟨mutation, now⟩).getD store := by
  cases request with
  | subscribe => rfl
  | _ => exact handleRequest_store store now _

/-- A stream leaves the store as it was, or as the call of its mutation does. -/
theorem streamStep_cases (hrequests : requests.RoundTrips) (hresponses : responses.RoundTrips) (store : Store)
    (stream : RequestStream) :
    streamStep requests responses store stream = store ∨
      ∃ mutation, stream.request.mutation? = some mutation ∧
        streamStep requests responses store stream = execute store ⟨mutation, stream.now⟩ := by
  unfold streamStep
  rcases requestStream_cases hrequests hresponses store stream with hlost | ⟨hserved, -⟩
  · exact .inl (congrArg Prod.fst hlost)
  · rw [hserved, Request.serve_store]
    cases hmutation : stream.request.mutation? with
    | none => exact .inl rfl
    | some mutation => exact .inr ⟨mutation, rfl, rfl⟩

theorem PushItem.Spent.streams (hrequests : requests.RoundTrips) (hresponses : responses.RoundTrips)
    {item : PushItem} (hspent : item.Spent store) (streams : List RequestStream) :
    item.Spent (Run.after (streamStep requests responses) store streams) := by
  apply Run.invariant item.Spent hspent
  intro state stream hstate
  rcases streamStep_cases hrequests hresponses state stream with hkept | ⟨mutation, -, hcall⟩
  · rwa [hkept]
  · rw [hcall]
    exact hstate.grows (grows_execute _ _)

/-- A stream that changes the store has had its mutation accepted, and spent its first item. -/
theorem spent_of_streamStep (hrequests : requests.RoundTrips) (hresponses : responses.RoundTrips)
    (hmutation : stream.request.mutation? = some mutation)
    (hchanged : streamStep requests responses store stream ≠ store) :
    ∃ item ∈ mutation.items.head?, item.Spent (streamStep requests responses store stream) := by
  rcases streamStep_cases hrequests hresponses store stream with hkept | ⟨_, hsome, hcall⟩
  · exact absurd hkept hchanged
  · obtain rfl := Option.some.inj (hmutation.symm.trans hsome)
    rw [hcall] at hchanged ⊢
    unfold execute at hchanged ⊢
    cases hperform : perform store ⟨mutation, stream.now⟩ with
    | none => exact absurd (by rw [hperform]; rfl) hchanged
    | some after =>
        rw [hperform, Option.getD_some] at hchanged
        have hitems : mutation.items ≠ [] := by
          rcases perform_eq_some_iff.mp hperform with ⟨-, hsame⟩ | ⟨hitems, -⟩
          · exact absurd hsame hchanged
          · exact hitems
        exact spent_of_perform hitems hperform

/-- A response that is no error comes from a server that has accepted the mutation. -/
theorem streamStep_ne_of_response (hrequests : requests.RoundTrips) (hresponses : responses.RoundTrips)
    (hmutation : stream.request.mutation? = some mutation) (hitems : mutation.items ≠ []) {response : Response}
    (hresponse : (requestStream requests responses store stream).2 = some response)
    (hok : ∀ error, response ≠ .error error) : streamStep requests responses store stream ≠ store := by
  unfold streamStep
  rcases requestStream_cases hrequests hresponses store stream with hlost | ⟨hserved, hnone | hsome⟩
  · rw [hlost] at hresponse
    cases hresponse
  · rw [hnone] at hresponse
    cases hresponse
  · obtain rfl := Option.some.inj (hsome.symm.trans hresponse)
    have haccepted : perform store ⟨mutation, stream.now⟩ ≠ none := by
      intro hrejected
      obtain ⟨error, herror⟩ := (handleRequest_error_iff hmutation).mpr hrejected
      exact hok error (Request.serve_eq hmutation store stream.now ▸ herror)
    have hsequence := execute_sequence store ⟨mutation, stream.now⟩
    rw [if_pos ⟨Option.isSome_iff_ne_none.mpr haccepted, hitems⟩] at hsequence
    rw [hserved, Request.serve_store, hmutation, Option.map_some, Option.getD_some]
    intro hsame
    rw [hsame] at hsequence
    omega

/-- A stream whose mutation starts with a spent item changes nothing, and is answered with an error if at all. -/
theorem requestStream_of_spent (hrequests : requests.RoundTrips) (hresponses : responses.RoundTrips)
    (hmutation : stream.request.mutation? = some mutation) {item : PushItem} (hspent : item.Spent store)
    (hitem : item ∈ mutation.items.head?) :
    streamStep requests responses store stream = store ∧
      ∀ response ∈ (requestStream requests responses store stream).2, ∃ error, response = .error error := by
  have hrejected : perform store ⟨mutation, stream.now⟩ = none := hspent.perform_eq_none hitem
  unfold streamStep
  rcases requestStream_cases hrequests hresponses store stream with hlost | ⟨hserved, hresponse⟩
  · rw [hlost]
    exact ⟨rfl, fun _ h => nomatch h⟩
  · constructor
    · rw [hserved, Request.serve_store, hmutation, Option.map_some, Option.getD_some, execute, hrejected]
      rfl
    · intro response hmem
      rcases hresponse with hnone | hsome
      · rw [hnone] at hmem
        cases hmem
      · obtain rfl := Option.some.inj (hsome.symm.trans hmem)
        rw [Request.serve_eq hmutation]
        exact (handleRequest_error_iff hmutation).mpr hrejected

/-- However streams break, a mutation is accepted at most once. The client that reads a response other than an
error knows that it has been, and whoever asks for it again later changes nothing. -/
theorem atMostOnce_run (hrequests : requests.RoundTrips) (hresponses : responses.RoundTrips) (store : Store)
    (before between : List RequestStream) (first again : RequestStream) (mutation : Mutation)
    (hfirst : first.request.mutation? = some mutation) (hagain : again.request.mutation? = some mutation) :
    let step := streamStep requests responses
    let start := Run.after step store before
    let current := Run.after step (step start first) between
    (mutation.items ≠ [] → ∀ response ∈ (requestStream requests responses start first).2,
        (∀ error, response ≠ .error error) → step start first ≠ start) ∧
      (step start first ≠ start →
        step current again = current ∧
          ∀ response ∈ (requestStream requests responses current again).2, ∃ error, response = .error error) := by
  intro step start current
  constructor
  · intro hitems response hresponse hok
    exact streamStep_ne_of_response hrequests hresponses hfirst hitems hresponse hok
  · intro hchanged
    obtain ⟨item, hitem, hspent⟩ := spent_of_streamStep hrequests hresponses hfirst hchanged
    exact requestStream_of_spent hrequests hresponses hagain
      (hspent.streams hrequests hresponses between) hitem

end Again

deriving instance DecidableEq for BatchItemError, ProtocolError, Request, Response

def Postcard.known {T : Type} [DecidableEq T] (serialize : T → List UInt8) (messages : List T) : Postcard T where
  toAllocvec message := if message ∈ messages then .ok (serialize message) else .error "unknown message"
  fromBytes payload :=
    match messages.find? (fun message => decide (serialize message = payload)) with
    | some message => .ok message
    | none => .error "unknown message"

theorem Postcard.known_roundTrips {T : Type} [DecidableEq T] {serialize : T → List UInt8} {messages : List T}
    (hserialize : ∀ a ∈ messages, ∀ b ∈ messages, serialize a = serialize b → a = b) :
    (Postcard.known serialize messages).RoundTrips := by
  intro message payload hpayload
  unfold Postcard.known at hpayload ⊢
  dsimp only at hpayload ⊢
  split_ifs at hpayload with hmem
  cases hpayload
  cases hfind : messages.find? fun other => decide (serialize other = serialize message) with
  | none =>
      have hnone := List.find?_eq_none.mp hfind message hmem
      exact absurd (decide_eq_true rfl) hnone
  | some other =>
      have hsame := List.find?_some hfind
      exact congrArg Except.ok
        (hserialize other (List.mem_of_find?_eq_some hfind) message hmem (of_decide_eq_true hsame))

def knownRequests [SerializeHash] : Postcard Request := Postcard.known Request.serialize [.deleteCard 1]

def knownResponses [Blake3] [SerializeHash] : Postcard Response :=
  Postcard.known Response.serialize [.deleted (DeletedEntity.new 1), .error .alreadyDeleted]

def lostStream : RequestStream := ⟨.deleteCard 1, ⟨100, 100⟩, ⟨100, 3⟩, 1⟩

def repeatedStream : RequestStream := ⟨.deleteCard 1, ⟨100, 100⟩, ⟨100, 100⟩, 2⟩

theorem atMostOnce_run_lost :
    let _ := polynomialBlake3
    let _ : SerializeHash := ⟨Hash.asBytes⟩
    let store := execute initSchema ⟨.pushCardVersions [sampleCard 1 ⟨0, by decide⟩], 0⟩
    let step := streamStep knownRequests knownResponses
    (requestStream knownRequests knownResponses store lostStream).2 = none ∧
      step store lostStream ≠ store ∧
        step (step store lostStream) repeatedStream = step store lostStream := by
  intro _ _ store step
  have hrequests : knownRequests.RoundTrips := Postcard.known_roundTrips (by decide +kernel)
  have hresponses : knownResponses.RoundTrips := Postcard.known_roundTrips (by decide +kernel)
  have hsequence : (step store lostStream).rootState.sequence ≠ store.rootState.sequence := by decide +kernel
  have hchanged : step store lostStream ≠ store := fun hsame => hsequence (by rw [hsame])
  exact ⟨by decide +kernel, hchanged,
    ((atMostOnce_run hrequests hresponses store [] [] lostStream repeatedStream (.deleteCard 1) rfl rfl).2
      hchanged).1⟩

end BlazeList
