import BlazeList.Server.Storage

/-!
# Requests

How the server answers a request, and what is left of a storage error in the answer.
-/

namespace BlazeList

def PushOpError.toProtocol : PushOpError → ProtocolError
  | .domain error => .pushFailed error
  | .internal _ => .internal

def StorageError.toProtocol : StorageError → ProtocolError
  | .notFound => .notFound
  | .alreadyDeleted => .alreadyDeleted
  | .orphanedTagReference tagId referencingCardIds =>
      .pushFailed (.orphanedTagReference tagId referencingCardIds)
  | .orphanedTagImpliesReference tagId referencingTagIds =>
      .pushFailed (.orphanedTagImpliesReference tagId referencingTagIds)
  | .rootHashMismatch sequence expectedHash => .rootHashMismatch sequence expectedHash
  | .internal _ => .internal

def BatchError.toProtocol (error : BatchError) : ProtocolError :=
  .batchFailed (error.index % 2 ^ 32) <|
    match error.error with
    | .domain error => .push error
    | .internal _ => .internal

variable [Blake3]

/-- The store after a mutation and its answer. A failed one is rolled back. -/
def answerMutation {ε : Type} (toProtocol : ε → ProtocolError) (store : Store) :
    Except ε Store → Store × Response
  | .ok after => (after, .root (getRoot after))
  | .error error => (store, .error (toProtocol error))

def answerDelete (store : Store) : Except StorageError (DeletedEntity × Store) → Store × Response
  | .ok (deleted, after) => (after, .deleted deleted)
  | .error error => (store, .error error.toProtocol)

def handleRequest (store : Store) (now : Int) : Request → Store × Response
  | .pushCardVersions versions =>
      answerMutation PushOpError.toProtocol store (pushCardVersions store versions now)
  | .getCard id =>
      (store,
        match getCard store id with
        | .ok (some card) => .card card
        | .ok none => .error .notFound
        | .error error => .error error.toProtocol)
  | .deleteCard id => answerDelete store (deleteCard store id now)
  | .pushTagVersions versions =>
      answerMutation PushOpError.toProtocol store (pushTagVersions store versions now)
  | .deleteTag id => answerDelete store (deleteTag store id now)
  | .getRoot => (store, .root (getRoot store))
  | .getChangesSince sequence rootHash =>
      (store,
        match getChangesSince store sequence rootHash with
        | .ok changes => .changes changes
        | .error error => .error error.toProtocol)
  | .pushBatch items => answerMutation BatchError.toProtocol store (pushBatch store items now)
  -- subscriptions are handled at the transport layer
  | .subscribe => (store, .error .unsupportedRequest)

def Request.mutation? : Request → Option Mutation
  | .pushCardVersions versions => some (.pushCardVersions versions)
  | .deleteCard id => some (.deleteCard id)
  | .pushTagVersions versions => some (.pushTagVersions versions)
  | .deleteTag id => some (.deleteTag id)
  | .pushBatch items => some (.pushBatch items)
  | .getCard _ | .getRoot | .getChangesSince _ _ | .subscribe => none

/-- A request changes the store as the call of its mutation does. -/
theorem handleRequest_store (store : Store) (now : Int) (request : Request) :
    (handleRequest store now request).1 =
      (request.mutation?.map fun mutation => execute store ⟨mutation, now⟩).getD store := by
  cases request with
  | pushCardVersions versions =>
      simp only [handleRequest, Request.mutation?, Option.map_some, Option.getD_some, execute,
        perform]
      cases pushCardVersions store versions now <;> rfl
  | pushTagVersions versions =>
      simp only [handleRequest, Request.mutation?, Option.map_some, Option.getD_some, execute,
        perform]
      cases pushTagVersions store versions now <;> rfl
  | deleteCard id =>
      simp only [handleRequest, Request.mutation?, Option.map_some, Option.getD_some, execute,
        perform]
      cases deleteCard store id now <;> rfl
  | deleteTag id =>
      simp only [handleRequest, Request.mutation?, Option.map_some, Option.getD_some, execute,
        perform]
      cases deleteTag store id now <;> rfl
  | pushBatch items =>
      simp only [handleRequest, Request.mutation?, Option.map_some, Option.getD_some, execute,
        perform]
      cases pushBatch store items now <;> rfl
  | getCard id => rfl
  | getRoot => rfl
  | getChangesSince sequence rootHash => rfl
  | subscribe => rfl

/-- A request of a mutation that fails is answered with an error, one that succeeds is not. -/
theorem handleRequest_error_iff {store : Store} {now : Int} {request : Request} {mutation : Mutation}
    (hmutation : request.mutation? = some mutation) :
    (∃ error, (handleRequest store now request).2 = .error error) ↔
      perform store ⟨mutation, now⟩ = none := by
  cases request with
  | pushCardVersions versions =>
      obtain rfl := Option.some.inj hmutation
      simp only [handleRequest, perform]
      cases pushCardVersions store versions now <;> simp [answerMutation, Except.toOption]
  | pushTagVersions versions =>
      obtain rfl := Option.some.inj hmutation
      simp only [handleRequest, perform]
      cases pushTagVersions store versions now <;> simp [answerMutation, Except.toOption]
  | deleteCard id =>
      obtain rfl := Option.some.inj hmutation
      simp only [handleRequest, perform]
      cases deleteCard store id now <;> simp [answerDelete, Except.toOption]
  | deleteTag id =>
      obtain rfl := Option.some.inj hmutation
      simp only [handleRequest, perform]
      cases deleteTag store id now <;> simp [answerDelete, Except.toOption]
  | pushBatch items =>
      obtain rfl := Option.some.inj hmutation
      simp only [handleRequest, perform]
      cases pushBatch store items now <;> simp [answerMutation, Except.toOption]
  | getCard id => contradiction
  | getRoot => contradiction
  | getChangesSince sequence rootHash => contradiction
  | subscribe => contradiction

end BlazeList
