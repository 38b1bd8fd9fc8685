import BlazeList.Client.IncrementalSync
import BlazeList.Protocol.Serialization
import BlazeList.Server.Handler
import BlazeList.Server.Reprioritize
import BlazeList.Server.SingleItem

/-!
# The first sync of a client

A client that has nothing asks for the changes since sequence 0. The answer is every stamped row in one
message, however many requests they came in, so it can be sent as long as all contents and titles, with what each
row takes beside them, fit in one message.
-/

namespace BlazeList

open Postcard

section Answer

variable [Blake3] [SerializeHash]

def served (store : Store) (request : Request × Int) : Store :=
  (handleRequest store request.2 request.1).1

def stampedTombstones (store : Store) : List DeletedEntity :=
  (store.deletedEntities.rows.filter fun row => row.rootSequenceAt > 0).map DeletedRow.entity

/-- A stamped tag does not verify without the repetitions in what it implies. -/
def Store.Unreadable (store : Store) : Prop :=
  ∃ tag ∈ store.tags.changedSince 0, ¬ Entity.verify tag.normalized = true

def Store.textSize (store : Store) : Nat :=
  ((store.cards.changedSince 0).map fun card => card.content.utf8ByteSize).sum
    + ((store.tags.changedSince 0).map fun tag => tag.title.utf8ByteSize).sum

/-- The id, the two digests, the flag, the tags and the numbers. -/
def Card.bookkeeping (card : Card) : Nat :=
  82 + 17 * card.tags.length + groups card.tags.length + groups card.content.utf8ByteSize
    + signedGroups card.priority.val + signedGroups card.createdAt.timestampMillis
    + signedGroups card.modifiedAt.timestampMillis
    + (1 + (card.dueDate.map fun time => signedGroups time.timestampMillis).getD 0)
    + signedGroups card.count.val

def Tag.bookkeeping (tag : Tag) : Nat :=
  81 + 17 * (normalizeImplies tag.implies).length + groups (normalizeImplies tag.implies).length
    + groups tag.title.utf8ByteSize + (if tag.color.isSome then 4 else 1)
    + signedGroups tag.createdAt.timestampMillis + signedGroups tag.modifiedAt.timestampMillis
    + signedGroups tag.count.val

/-- What comes on top of the texts: a tombstone is an id and a digest. -/
def Store.bookkeeping (store : Store) : Nat :=
  33 + signedGroups store.rootState.sequence.val
    + groups (store.cards.changedSince 0).length + ((store.cards.changedSince 0).map Card.bookkeeping).sum
    + groups (store.tags.changedSince 0).length + ((store.tags.changedSince 0).map Tag.bookkeeping).sum
    + groups (stampedTombstones store).length + 49 * (stampedTombstones store).length

def initialSync (store : Store) (now : Int) : Response :=
  (handleRequest store now (.getChangesSince .min zeroHash)).2

/-- The answer to a client that has nothing can be sent. -/
def AnswersFresh (fromBytes : List UInt8 → Except String Response) (store : Store) (now : Int) :
    Prop :=
  ∃ frame, Wire.writeMessage (Response.postcard fromBytes) (initialSync store now) = .ok frame

variable {store : Store} {now : Int}

/-! ### What is answered -/

theorem answersFresh_iff {fromBytes : List UInt8 → Except String Response} :
    AnswersFresh fromBytes store now ↔ (initialSync store now).serialize.length ≤ maxMsgSize := by
  have hpayload : (Response.postcard fromBytes).toAllocvec (initialSync store now) =
      .ok (initialSync store now).serialize := rfl
  apply (Wire.exists_writeMessage_iff_fits hpayload).trans
  constructor
  · intro hfits
    exact hfits _ hpayload
  · intro hle payload hsent
    obtain rfl := Except.ok.inj hsent
    exact hle

omit [SerializeHash] in
/-- Sequence 0 is never in the history, so the hash that comes with it is not checked. -/
theorem initialSync_eq (hhistory : RootHistoryInvariant store) :
    initialSync store now =
      match changesSince store 0 with
      | .ok changes => .changes changes
      | .error error => .error error.toProtocol := by
  have hnone : store.rootHistory.find? (fun row => row.sequence = NonNegativeI64.min) = none := by
    refine Table.find?_eq_none_iff.mpr fun row hrow => ?_
    have hpositive := (hhistory.bounds hrow).1
    rw [decide_eq_false_iff_not, NonNegativeI64.ext_iff]
    intro hzero
    rw [hzero] at hpositive
    exact absurd hpositive (by decide)
  rw [initialSync, handleRequest, getChangesSince, hnone]
  rfl

omit [SerializeHash] in
theorem changesSince_zero {changes : ChangeSet} (h : changesSince store 0 = .ok changes) :
    changes.cards = store.cards.changedSince 0 ∧
      changes.tags = (store.tags.changedSince 0).map Tag.normalized ∧
      changes.deleted = stampedTombstones store ∧ changes.root = store.rootState := by
  obtain ⟨hcards, htags, hdeleted, hroot⟩ := changesSince_eq_ok_iff.mp h
  have hread := map_eq_of_fromRows (f := id) (g := Tag.normalized)
    (fun hrow => (tagFromRow_eq_ok_iff.mp hrow).2) htags
  rw [List.map_id] at hread
  exact ⟨eq_of_fromRows_cards hcards, hread, hdeleted, hroot⟩

omit [SerializeHash] in
theorem unreadable_iff (hcards : StoredAll Readable store.cards) :
    store.Unreadable ↔ ∃ error, changesSince store 0 = .error error := by
  constructor
  · rintro ⟨tag, htag, hnot⟩
    cases hchanges : changesSince store 0 with
    | error error => exact ⟨error, rfl⟩
    | ok changes =>
        obtain ⟨-, htags, -, -⟩ := changesSince_eq_ok_iff.mp hchanges
        exact absurd (readable_tag_iff.mp (readable_of_fromRows htags tag htag)) hnot
  · rintro ⟨error, herror⟩
    by_contra hreadable
    simp only [Store.Unreadable, not_exists, not_and, not_not] at hreadable
    obtain ⟨cards, hcards⟩ := exists_changedSince hcards 0
    obtain ⟨tags, htags⟩ := exists_fromRows fun tag htag => readable_tag_iff.mpr (hreadable tag htag)
    have hok : changesSince store 0 =
        .ok ⟨cards, tags, stampedTombstones store, store.rootState⟩ :=
      changesSince_eq_ok_iff.mpr ⟨hcards, htags, rfl, rfl⟩
    rw [herror] at hok
    cases hok

/-! ### The size of the answer -/

omit [Blake3] in
theorem Card.length_serialize (hbytes : ∀ hash, (SerializeHash.bytes hash).length = 32) (card : Card) :
    card.serialize.length = card.content.utf8ByteSize + card.bookkeeping := by
  have hdue : (option dateTime card.dueDate).length =
      1 + (card.dueDate.map fun time => signedGroups time.timestampMillis).getD 0 := by
    cases card.dueDate with
    | none => rfl
    | some time => simp [option, dateTime, Nat.add_comm]
  simp only [Card.serialize, List.length_append, length_uuid, length_string, length_i64, length_vec_uuid, dateTime,
    Postcard.bool, List.length_singleton, hbytes, hdue]
  unfold Card.bookkeeping
  omega

omit [Blake3] in
theorem Tag.length_serialize_normalized (hbytes : ∀ hash, (SerializeHash.bytes hash).length = 32) (tag : Tag) :
    tag.normalized.serialize.length = tag.title.utf8ByteSize + tag.bookkeeping := by
  have hcolor : (option Rgb8.serialize tag.color).length = if tag.color.isSome then 4 else 1 := by
    cases tag.color <;> rfl
  simp only [Tag.serialize, Tag.normalized, List.length_append, length_uuid, length_string, length_i64,
    length_vec_uuid, dateTime, hbytes, hcolor]
  unfold Tag.bookkeeping
  omega

theorem length_serialize_changes (hbytes : ∀ hash, (SerializeHash.bytes hash).length = 32) {changes : ChangeSet}
    (h : changesSince store 0 = .ok changes) :
    (Response.changes changes).serialize.length = store.textSize + store.bookkeeping := by
  obtain ⟨hcards, htags, hdeleted, hroot⟩ := changesSince_zero h
  have hindex : (varint 7).length = 1 := length_varint 7
  have htombstone : ∀ deleted : DeletedEntity, deleted.serialize.length = 49 := by
    intro deleted
    rw [DeletedEntity.serialize, List.length_append, length_uuid, hbytes]
  have htombstones : ((stampedTombstones store).map fun deleted => deleted.serialize.length).sum =
      49 * (stampedTombstones store).length := by
    simp [htombstone, Nat.mul_comm]
  simp only [Response.serialize, ChangeSet.serialize, RootState.serialize, List.length_append, length_vec, length_i64,
    List.length_map, List.map_map, Function.comp_def, hcards, htags, hdeleted, hroot, hindex, hbytes, htombstones,
    Card.length_serialize hbytes, Tag.length_serialize_normalized hbytes, List.sum_map_add]
  unfold Store.textSize Store.bookkeeping
  omega

/-- The answer is short when a row does not read back. -/
theorem answersFresh_iff_size (hbytes : ∀ hash, (SerializeHash.bytes hash).length = 32)
    {fromBytes : List UInt8 → Except String Response} (hhistory : RootHistoryInvariant store)
    (hcards : StoredAll Readable store.cards) :
    AnswersFresh fromBytes store now ↔
      store.Unreadable ∨ store.textSize + store.bookkeeping ≤ maxMsgSize := by
  rw [answersFresh_iff, initialSync_eq hhistory, unreadable_iff hcards]
  cases hchanges : changesSince store 0 with
  | error error =>
      obtain ⟨message, rfl⟩ := changesSince_error hchanges
      have hshort : (Response.error ProtocolError.internal).serialize.length ≤ maxMsgSize := by
        rw [Response.serialize, ProtocolError.serialize, List.length_append, length_varint, length_varint]
        decide
      exact iff_of_true hshort (.inl ⟨_, rfl⟩)
  | ok changes =>
      simp only [length_serialize_changes hbytes hchanges, reduceCtorEq, exists_false, false_or]

/-! ### Along a run -/

omit [SerializeHash] in
theorem invariants_served (requests : List (Request × Int)) :
    RootHistoryInvariant (Run.after served initSchema requests) ∧
      StoredAll Readable (Run.after served initSchema requests).cards := by
  refine Run.invariant (fun store => RootHistoryInvariant store ∧ StoredAll Readable store.cards)
    ⟨rootHistoryInvariant_initSchema, .empty⟩ (fun store request hinv => ?_) requests
  rw [served, handleRequest_store]
  cases request.1.mutation? with
  | none => exact hinv
  | some mutation => exact ⟨hinv.1.execute ⟨mutation, request.2⟩, readable_cards_execute hinv.2 _⟩

/-- After any requests, the answer to a client that has nothing can be sent exactly when the contents and titles of
the stamped rows leave room for the rest in one message, or a tag does not read back and the answer is an error. -/
theorem freshSync_run (hbytes : ∀ hash, (SerializeHash.bytes hash).length = 32) (requests : List (Request × Int))
    (fromBytes : List UInt8 → Except String Response) (now : Int) :
    let store := Run.after served initSchema requests
    AnswersFresh fromBytes store now ↔ store.Unreadable ∨ store.textSize + store.bookkeeping ≤ maxMsgSize :=
  answersFresh_iff_size hbytes (invariants_served requests).1 (invariants_served requests).2

end Answer

/-! ### One large card -/

def longText : Nat → String
  | 0 => ""
  | size + 1 => (longText size).push 'a'

theorem utf8ByteSize_longText (size : Nat) : (longText size).utf8ByteSize = size := by
  induction size with
  | zero => rfl
  | succ size ih =>
      rw [longText, String.utf8ByteSize_push, ih]
      rfl

section Large

variable [Blake3]

def largeCard (size : Nat) : Card := Card.first 1 (longText size) ⟨0, zero_mem_i64⟩ [] false .epoch none

/-- A first version without tags is accepted by an empty server. -/
theorem exists_pushFirst {card : Card} (hverified : Entity.verify card = true)
    (hfirst : card.ancestorHash = zeroHash) (htags : card.tags = []) (now : Int) :
    ∃ after written, Committed initSchema (singles [card]) now written after ∧
      execute initSchema ⟨.pushCardVersions [card], now⟩ = after := by
  have hsound : SoundStore initSchema :=
    @soundStore_run _ [] ⟨nofun, nofun⟩ trivial
  have hcontinues : Continues initSchema card := by
    refine ⟨hverified, rfl, hfirst, fun row hrow => absurd hrow (Table.not_mem_empty row), ?_⟩
    rw [htags]
    exact nofun
  have hclear : Reassign.Clear (Store.priorities initSchema) (priorityWrites [card]) := by
    refine ⟨free_priorities_iff.mpr fun row hrow => absurd hrow (Table.not_mem_empty row), ?_⟩
    trivial
  obtain ⟨after, hafter⟩ := (hsound.exists_pushBatch_iff (by decide)
    (List.forall_mem_singleton.mpr hcontinues) (List.nodup_singleton _) now).mpr hclear
  have hbatch : perform initSchema ⟨.pushBatch (singles [card]), now⟩ = some after :=
    Except.toOption_eq_some_iff.mpr hafter
  have hsingle := perform_single hsound.implications (.cards [card]) now
  obtain ⟨written, -, hcommitted⟩ := (perform_batch_eq_some_iff (List.cons_ne_nil _ _)).mp hbatch
  refine ⟨after, written, hcommitted, ?_⟩
  rw [execute, show perform initSchema ⟨.pushCardVersions [card], now⟩ = some after from
    hsingle.trans hbatch, Option.getD_some]

theorem largeCard_verified (size : Nat) : Entity.verify (largeCard size) = true :=
  Entity.verify_iff.mpr rfl

/-- The one card of the server is among the stamped rows. -/
theorem largeCard_stamped (size : Nat) (now : Int) :
    largeCard size ∈
      (execute initSchema ⟨.pushCardVersions [largeCard size], now⟩).cards.changedSince 0 := by
  obtain ⟨after, written, hcommitted, hexecute⟩ :=
    exists_pushFirst (largeCard_verified size) rfl rfl now
  rw [hexecute]
  obtain ⟨next, hpush, hwritten⟩ := writes_cons.mp hcommitted.writes
  obtain ⟨cards, hpushed, rfl⟩ := pushSingle_eq_ok_iff.mp hpush
  obtain rfl := writes_nil.mp hwritten
  have hids : (affectedOf (singles [largeCard size])).cardIds = [(largeCard size).id] := rfl
  have hrow : (⟨largeCard size, after.rootState.sequence.val, bucketOf (largeCard size).id⟩ :
      EntityRow Card) ∈ after.cards.live := by
    rw [hcommitted.cards_eq, hids]
    refine EntityTables.mem_live_stampAll.mpr ⟨_, hpushed.mem_live.mpr (.inr rfl), ?_⟩
    exact if_pos List.mem_cons_self
  refine EntityTables.mem_changedSince.mpr ⟨_, hrow, ?_, rfl⟩
  have hsequence := hcommitted.sequence
  dsimp only
  omega

theorem readable_largeCard (size : Nat) (now : Int) :
    ¬ (execute initSchema ⟨.pushCardVersions [largeCard size], now⟩).Unreadable := by
  have hbuilt : Call.Built ⟨.pushCardVersions [largeCard size], now⟩ := by
    intro item hitem
    obtain rfl := List.mem_singleton.mp hitem
    refine ⟨fun first hfirst => ?_, .singleton _⟩
    obtain rfl : largeCard size = first := Option.some.inj hfirst
    exact .inl ⟨1, longText size, ⟨0, by decide⟩, [], false, .epoch, none, rfl⟩
  have hreads := readsBackInvariant_initSchema.execute hbuilt
  rintro ⟨tag, htag, hnot⟩
  obtain ⟨row, hrow, -, rfl⟩ := EntityTables.mem_changedSince.mp htag
  exact hnot (readable_tag_iff.mp ⟨_, hreads.tags.live row hrow⟩)

end Large

@[reducible]
def rawHash : SerializeHash := ⟨Hash.asBytes⟩

theorem length_rawHash (hash : Hash) : (rawHash.bytes hash).length = 32 := length_bytesBE 32 hash

/-- A card without tags is synced. -/
theorem freshSync_run_sampleCard :
    let _ := polynomialBlake3
    let _ := rawHash
    AnswersFresh (fun _ => .error "")
      (Run.after served initSchema [(.pushCardVersions [sampleCard 1 ⟨0, by decide⟩], 0)]) 1 :=
  (@freshSync_run polynomialBlake3 rawHash length_rawHash _ _ 1).mpr (.inr (by decide +kernel))

section Sizes

variable [Blake3] {size : Nat}

omit [Blake3] in
theorem groups_large (hlow : 2 ^ 21 ≤ size) (hhigh : size < 2 ^ 28) : groups size = 4 := by
  rw [groups_of_le (by omega), groups_of_le (by omega), groups_of_le (by omega), groups_of_lt (by omega)]

theorem bookkeeping_largeCard (hlow : 2 ^ 21 ≤ size) (hhigh : size < 2 ^ 28) :
    (largeCard size).bookkeeping = 92 := by
  simp only [Card.bookkeeping, largeCard, Card.first, utf8ByteSize_longText, List.insertionSort_nil, List.length_nil,
    DateTime.epoch, Option.map_none, Option.getD_none, groups_large hlow hhigh]
  rfl

/-- The request that pushes the card is within the maximum size. -/
theorem received_largeCard (hlow : 2 ^ 21 ≤ size) (hhigh : size + 94 ≤ maxMsgSize) :
    let _ := rawHash
    (Request.pushCardVersions [largeCard size]).Received := by
  intro _
  have hlt : size < 2 ^ 28 := by
    unfold maxMsgSize at hhigh
    omega
  have hcard : (largeCard size).serialize.length = size + 92 := by
    rw [Card.length_serialize length_rawHash, bookkeeping_largeCard hlow hlt]
    exact congrArg (· + 92) (utf8ByteSize_longText size)
  have hindex : groups 0 = 1 ∧ groups 1 = 1 := by decide
  unfold Request.Received
  simp only [Request.serialize, List.length_append, length_varint, length_vec, List.map_cons, List.map_nil,
    List.sum_cons, List.sum_nil, List.length_singleton, hcard, hindex.1, hindex.2]
  omega

omit [Blake3] in
theorem le_sum_of_mem {α : Type} (weight : α → Nat) {items : List α} {item : α} (h : item ∈ items) :
    weight item ≤ (items.map weight).sum :=
  List.single_le_sum (fun _ _ => Nat.zero_le _) _ (List.mem_map_of_mem h)

/-- The change set with the card is not. -/
theorem maxMsgSize_lt_size (hlow : 2 ^ 21 ≤ size) (hhigh : size < 2 ^ 28) (hlarge : maxMsgSize < size + 129)
    (now : Int) :
    maxMsgSize < (execute initSchema ⟨.pushCardVersions [largeCard size], now⟩).textSize +
      (execute initSchema ⟨.pushCardVersions [largeCard size], now⟩).bookkeeping := by
  have hmem := largeCard_stamped size now
  have htext := le_sum_of_mem (fun card : Card => card.content.utf8ByteSize) hmem
  have hcard := le_sum_of_mem Card.bookkeeping hmem
  rw [bookkeeping_largeCard hlow hhigh] at hcard
  have hcontent : (largeCard size).content.utf8ByteSize = size := utf8ByteSize_longText size
  have hcards := one_le_groups
    ((execute initSchema ⟨.pushCardVersions [largeCard size], now⟩).cards.changedSince 0).length
  have htags := one_le_groups
    ((execute initSchema ⟨.pushCardVersions [largeCard size], now⟩).tags.changedSince 0).length
  have hdeleted := one_le_groups
    (stampedTombstones (execute initSchema ⟨.pushCardVersions [largeCard size], now⟩)).length
  have hsequence : 1 ≤ signedGroups
      (execute initSchema ⟨.pushCardVersions [largeCard size], now⟩).rootState.sequence.val := one_le_groups _
  unfold Store.textSize Store.bookkeeping
  omega

/-- The push of the card alone leaves a store whose change set cannot be sent. -/
theorem not_answersFresh_of_large (hlow : 2 ^ 21 ≤ size) (hhigh : size + 94 ≤ maxMsgSize)
    (hlarge : maxMsgSize < size + 129) (fromBytes : List UInt8 → Except String Response) (now : Int) :
    let _ := rawHash
    ¬ AnswersFresh fromBytes
      (Run.after served initSchema [(.pushCardVersions [largeCard size], now)]) now := by
  intro _ hanswers
  obtain ⟨hhistory, hcards⟩ := invariants_served [(.pushCardVersions [largeCard size], now)]
  have hstore : Run.after served initSchema [(.pushCardVersions [largeCard size], now)] =
      execute initSchema ⟨.pushCardVersions [largeCard size], now⟩ := by
    rw [Run.after_cons, Run.after_nil, served, handleRequest_store]
    rfl
  rw [hstore] at hanswers hhistory hcards
  have hlt : size < 2 ^ 28 := by
    unfold maxMsgSize at hhigh
    omega
  rcases (answersFresh_iff_size length_rawHash hhistory hcards).mp hanswers with hunreadable | hsize
  · exact readable_largeCard size now hunreadable
  · exact absurd hsize (Nat.not_le_of_gt (maxMsgSize_lt_size hlow hlt hlarge now))

end Sizes

/-- A card of nearly 16 MiB is received in a request, and cannot be sent in a change set. -/
theorem not_answersFresh_largeCard :
    let _ := polynomialBlake3
    let _ := rawHash
    ¬ ∀ (requests : List (Request × Int)) (fromBytes : List UInt8 → Except String Response)
        (now : Int), (∀ request ∈ requests, request.1.Received) →
      AnswersFresh fromBytes (Run.after served initSchema requests) now := by
  intro _ _ hall
  have hreceived : (Request.pushCardVersions [largeCard 16777100]).Received :=
    received_largeCard (by decide) (by decide)
  refine not_answersFresh_of_large (by decide) (by decide) (by decide) (fun _ => .error "") 0
    (hall [(.pushCardVersions [largeCard 16777100], 0)] _ 0 ?_)
  exact List.forall_mem_singleton.mpr hreceived

end BlazeList
