import BlazeList.Protocol.Encoding
import BlazeList.Server.Reads

/-!
# The root commits to the contents

Two stores with one root hash hold the same contents, or else the strings that were hashed for them
show a collision, or one of them has the digest that stands for an empty bucket.
-/

namespace BlazeList

/-! ### What is hashed -/

inductive Item where
  | card (card : Card)
  | tag (tag : Tag)
  | tombstone (id : Uuid)

def Item.bytes : Item → List UInt8
  | .card entity => entity.canonicalBytes
  | .tag entity => entity.canonicalBytes
  | .tombstone id => id.asBytes

def Store.Holds (store : Store) : Item → Prop
  | .card card => ∃ row ∈ store.cards.live, row.entity = card
  | .tag tag => ∃ row ∈ store.tags.live, row.entity = tag
  | .tombstone id => ∃ row ∈ store.deletedEntities, row.entity.id = id

def Store.bucketItems (store : Store) (bucket : Fin 256) : List Hash :=
  store.cards.bucketHashes bucket ++ store.tags.bucketHashes bucket ++
    deletedBucketHashes store.deletedEntities bucket

/-- The strings whose digests make up the root of a store. -/
inductive Hashed (store : Store) : List UInt8 → Prop
  | item {item : Item} (held : store.Holds item) : Hashed store item.bytes
  | bucket {bucket : Fin 256} (nonempty : store.bucketItems bucket ≠ []) :
      Hashed store ((store.bucketItems bucket).flatMap Hash.asBytes)
  | root {bucket : Fin 256} (nonzero : store.rootBuckets bucket ≠ zeroHash) :
      Hashed store ((List.ofFn store.rootBuckets).flatMap Hash.asBytes)

/-- The same live cards and tags, the id lists in them up to order, and the same deleted ids. -/
structure SameContents (left right : Store) : Prop where
  cards : ∀ id, Option.Rel Card.Same (left.cards.current id) (right.cards.current id)
  tags : ∀ id, Option.Rel Tag.Same (left.tags.current id) (right.tags.current id)
  deleted : ∀ id, left.isDeleted id = right.isDeleted id

section

variable [Blake3]

def Collision (left right : Store) : Prop :=
  ∃ x y, Hashed left x ∧ Hashed right y ∧ x ≠ y ∧ Blake3.digest x = Blake3.digest y

def ZeroDigest (store : Store) : Prop := ∃ x, Hashed store x ∧ Blake3.digest x = zeroHash

/-- The Merkle cache is coherent, the entities verify, and their sizes are those of values in memory. -/
structure Authentic (store : Store) : Prop where
  merkle : MerkleInvariant store
  cards : ∀ row ∈ store.cards.live, Entity.verify row.entity = true ∧ row.entity.FitsMemory
  tags : ∀ row ∈ store.tags.live, Entity.verify row.entity = true ∧ row.entity.FitsMemory
  deleted : ∀ row ∈ store.deletedEntities, row.entity = DeletedEntity.new row.entity.id

/-! ### From the root to the buckets -/

omit [Blake3] in
theorem flatMap_hashBytes_injective : Function.Injective (List.flatMap Hash.asBytes) :=
  flatMap_injective_of_length (by decide) (length_bytesBE 32) (bytesBE_injective 32)

theorem rootHash_of_nonzero {buckets : Fin 256 → Hash} {bucket : Fin 256}
    (hnonzero : buckets bucket ≠ zeroHash) :
    rootHash buckets = Blake3.digest ((List.ofFn buckets).flatMap Hash.asBytes) := by
  unfold rootHash
  rw [if_neg]
  intro hall
  have hzero := List.all_eq_true.mp hall _ (List.mem_ofFn.mpr ⟨bucket, rfl⟩)
  exact hnonzero (of_decide_eq_true hzero)

theorem recomputeBucketHash_eq (store : Store) (bucket : Fin 256) :
    recomputeBucketHash store bucket =
      if store.bucketItems bucket = [] then zeroHash
      else Blake3.digest ((store.bucketItems bucket).flatMap Hash.asBytes) := by
  simp only [recomputeBucketHash, bucketHash, Store.bucketItems, Bool.and_eq_true,
    List.isEmpty_iff, List.append_eq_nil_iff]

/-- No two strings hashed for the stores share a digest, and no digest is zero. -/
structure Binding (left right : Store) : Prop where
  injective : ∀ x y, Hashed left x → Hashed right y → Blake3.digest x = Blake3.digest y → x = y
  nonzeroLeft : ∀ x, Hashed left x → Blake3.digest x ≠ zeroHash
  nonzeroRight : ∀ x, Hashed right x → Blake3.digest x ≠ zeroHash

theorem Binding.symm {left right : Store} (h : Binding left right) : Binding right left where
  injective x y hx hy heq := (h.injective y x hy hx heq.symm).symm
  nonzeroLeft := h.nonzeroRight
  nonzeroRight := h.nonzeroLeft

theorem binding_of_not {left right : Store} (hcollision : ¬Collision left right)
    (hleft : ¬ZeroDigest left) (hright : ¬ZeroDigest right) : Binding left right where
  injective x y hx hy heq := by
    by_contra hne
    exact hcollision ⟨x, y, hx, hy, hne, heq⟩
  nonzeroLeft x hx hzero := hleft ⟨x, hx, hzero⟩
  nonzeroRight x hx hzero := hright ⟨x, hx, hzero⟩

section Levels

variable {left right : Store}

theorem Binding.zeroBuckets (h : Binding left right) (hroot :
    rootHash left.rootBuckets = rootHash right.rootBuckets)
    (hzero : ∀ bucket, left.rootBuckets bucket = zeroHash) (bucket : Fin 256) :
    right.rootBuckets bucket = zeroHash := by
  by_contra hnonzero
  rw [rootHash_of_zero hzero, rootHash_of_nonzero hnonzero] at hroot
  exact h.nonzeroRight _ (.root hnonzero) hroot.symm

theorem Binding.rootBuckets_eq (h : Binding left right)
    (hroot : rootHash left.rootBuckets = rootHash right.rootBuckets) :
    left.rootBuckets = right.rootBuckets := by
  by_cases hleft : ∀ bucket, left.rootBuckets bucket = zeroHash
  · funext bucket
    rw [hleft bucket, h.zeroBuckets hroot hleft bucket]
  · by_cases hright : ∀ bucket, right.rootBuckets bucket = zeroHash
    · exact absurd (h.symm.zeroBuckets hroot.symm hright) hleft
    · obtain ⟨b, hb⟩ := not_forall.mp hleft
      obtain ⟨c, hc⟩ := not_forall.mp hright
      rw [rootHash_of_nonzero hb, rootHash_of_nonzero hc] at hroot
      have hbytes := h.injective _ _ (.root hb) (.root hc) hroot
      exact List.ofFn_injective (flatMap_hashBytes_injective hbytes)

theorem Binding.bucketItems_eq (h : Binding left right) {bucket : Fin 256}
    (hbucket : recomputeBucketHash left bucket = recomputeBucketHash right bucket) :
    left.bucketItems bucket = right.bucketItems bucket := by
  rw [recomputeBucketHash_eq, recomputeBucketHash_eq] at hbucket
  by_cases hleft : left.bucketItems bucket = []
  · by_cases hright : right.bucketItems bucket = []
    · rw [hleft, hright]
    · rw [if_pos hleft, if_neg hright] at hbucket
      exact absurd hbucket.symm (h.nonzeroRight _ (.bucket hright))
  · by_cases hright : right.bucketItems bucket = []
    · rw [if_neg hleft, if_pos hright] at hbucket
      exact absurd hbucket (h.nonzeroLeft _ (.bucket hleft))
    · rw [if_neg hleft, if_neg hright] at hbucket
      have hbytes := h.injective _ _ (.bucket hleft) (.bucket hright) hbucket
      exact flatMap_hashBytes_injective hbytes

end Levels

/-! ### From the buckets to the entities -/

omit [Blake3] in
theorem EntityTables.mem_bucketHashes {E : Type} [Stored E] {tables : EntityTables E}
    {bucket : Fin 256} {hash : Hash} :
    hash ∈ tables.bucketHashes bucket ↔
      ∃ row ∈ tables.live, row.bucket = bucket ∧ Entity.hash row.entity = hash := by
  simp [EntityTables.bucketHashes, List.mem_orderBy, Table.mem_def, and_assoc]

omit [Blake3] in
theorem mem_deletedBucketHashes {deletedEntities : Table deletedConflict} {bucket : Fin 256}
    {hash : Hash} :
    hash ∈ deletedBucketHashes deletedEntities bucket ↔
      ∃ row ∈ deletedEntities, row.bucket = bucket ∧ row.entity.hash = hash := by
  simp [deletedBucketHashes, List.mem_orderBy, Table.mem_def, and_assoc]

/-- The buckets list the digests of what the store holds. -/
theorem Authentic.exists_item_iff {store : Store} (hstore : Authentic store) {hash : Hash} :
    (∃ bucket, hash ∈ store.bucketItems bucket) ↔
      ∃ item, store.Holds item ∧ Blake3.digest item.bytes = hash := by
  have hcards : ∀ row ∈ store.cards.live, Entity.hash row.entity =
      Blake3.digest row.entity.canonicalBytes :=
    fun row hrow => Entity.verify_iff.mp (hstore.cards row hrow).1
  have htags : ∀ row ∈ store.tags.live, Entity.hash row.entity =
      Blake3.digest row.entity.canonicalBytes :=
    fun row hrow => Entity.verify_iff.mp (hstore.tags row hrow).1
  have hdeleted : ∀ row ∈ store.deletedEntities, row.entity.hash =
      Blake3.digest row.entity.id.asBytes :=
    fun row hrow => congrArg DeletedEntity.hash (hstore.deleted row hrow)
  simp only [Store.bucketItems, List.mem_append, EntityTables.mem_bucketHashes,
    mem_deletedBucketHashes]
  constructor
  · rintro ⟨bucket, (⟨row, hrow, -, rfl⟩ | ⟨row, hrow, -, rfl⟩) | ⟨row, hrow, -, rfl⟩⟩
    · exact ⟨.card row.entity, ⟨row, hrow, rfl⟩, (hcards row hrow).symm⟩
    · exact ⟨.tag row.entity, ⟨row, hrow, rfl⟩, (htags row hrow).symm⟩
    · exact ⟨.tombstone row.entity.id, ⟨row, hrow, rfl⟩, (hdeleted row hrow).symm⟩
  · rintro ⟨item, hheld, rfl⟩
    cases item with
    | card card =>
        obtain ⟨row, hrow, rfl⟩ := hheld
        exact ⟨row.bucket, .inl (.inl ⟨row, hrow, rfl, hcards row hrow⟩)⟩
    | tag tag =>
        obtain ⟨row, hrow, rfl⟩ := hheld
        exact ⟨row.bucket, .inl (.inr ⟨row, hrow, rfl, htags row hrow⟩)⟩
    | tombstone id =>
        obtain ⟨row, hrow, rfl⟩ := hheld
        exact ⟨row.bucket, .inr ⟨row, hrow, rfl, hdeleted row hrow⟩⟩

/-- What one store holds, the other holds under the same encoding. -/
theorem Binding.exists_item {left right : Store} (h : Binding left right)
    (hleft : Authentic left) (hright : Authentic right)
    (hroot : left.rootState.hash = right.rootState.hash) {item : Item}
    (hheld : left.Holds item) : ∃ other, right.Holds other ∧ item.bytes = other.bytes := by
  have hbuckets : left.rootBuckets = right.rootBuckets := by
    apply h.rootBuckets_eq
    rw [← hleft.merkle.root, ← hright.merkle.root, hroot]
  obtain ⟨bucket, hmem⟩ := hleft.exists_item_iff.mpr ⟨item, hheld, rfl⟩
  have hitems : left.bucketItems bucket = right.bucketItems bucket := by
    apply h.bucketItems_eq
    rw [← hleft.merkle.buckets, ← hright.merkle.buckets, hbuckets]
  rw [hitems] at hmem
  obtain ⟨other, hother, hdigest⟩ := hright.exists_item_iff.mp ⟨bucket, hmem⟩
  exact ⟨other, hother, h.injective _ _ (.item hheld) (.item hother) hdigest.symm⟩

section Kinds

variable {left right : Store} (h : Binding left right) (hleft : Authentic left)
  (hright : Authentic right) (hroot : left.rootState.hash = right.rootState.hash)

include h hleft hright hroot

theorem Binding.exists_card {row : EntityRow Card} (hrow : row ∈ left.cards.live) :
    ∃ other ∈ right.cards.live, row.entity.Same other.entity := by
  have hcard : left.Holds (.card row.entity) := ⟨row, hrow, rfl⟩
  obtain ⟨item, hheld, hbytes⟩ := h.exists_item hleft hright hroot hcard
  cases item with
  | card card =>
      obtain ⟨other, hother, rfl⟩ := hheld
      obtain ⟨hverify, hfits⟩ := hleft.cards row hrow
      obtain ⟨hverifyOther, hfitsOther⟩ := hright.cards other hother
      have hhash : row.entity.hash = other.entity.hash := by
        calc
          row.entity.hash = Blake3.digest row.entity.canonicalBytes := Entity.verify_iff.mp hverify
          _ = Blake3.digest other.entity.canonicalBytes := congrArg _ hbytes
          _ = other.entity.hash := (Entity.verify_iff.mp hverifyOther).symm
      exact ⟨other, hother, Card.same_of_canonicalBytes_eq hfits hfitsOther hbytes hhash⟩
  | tag tag => exact absurd hbytes (canonicalBytes_card_ne_tag _ tag)
  | tombstone id => exact absurd hbytes (canonicalBytes_card_ne_id _ id)

theorem Binding.exists_tag {row : EntityRow Tag} (hrow : row ∈ left.tags.live) :
    ∃ other ∈ right.tags.live, row.entity.Same other.entity := by
  have htag : left.Holds (.tag row.entity) := ⟨row, hrow, rfl⟩
  obtain ⟨item, hheld, hbytes⟩ := h.exists_item hleft hright hroot htag
  cases item with
  | card card => exact absurd hbytes.symm (canonicalBytes_card_ne_tag card _)
  | tag tag =>
      obtain ⟨other, hother, rfl⟩ := hheld
      obtain ⟨hverify, hfits⟩ := hleft.tags row hrow
      obtain ⟨hverifyOther, hfitsOther⟩ := hright.tags other hother
      have hhash : row.entity.hash = other.entity.hash := by
        calc
          row.entity.hash = Blake3.digest row.entity.canonicalBytes := Entity.verify_iff.mp hverify
          _ = Blake3.digest other.entity.canonicalBytes := congrArg _ hbytes
          _ = other.entity.hash := (Entity.verify_iff.mp hverifyOther).symm
      exact ⟨other, hother, Tag.same_of_canonicalBytes_eq hfits hfitsOther hbytes hhash⟩
  | tombstone id => exact absurd hbytes (canonicalBytes_tag_ne_id _ id)

theorem Binding.isDeleted {id : Uuid} (hdeleted : left.isDeleted id = true) :
    right.isDeleted id = true := by
  have htombstone : left.Holds (.tombstone id) := Store.isDeleted_iff.mp hdeleted
  obtain ⟨item, hheld, hbytes⟩ := h.exists_item hleft hright hroot htombstone
  cases item with
  | card card => exact absurd hbytes.symm (canonicalBytes_card_ne_id card id)
  | tag tag => exact absurd hbytes.symm (canonicalBytes_tag_ne_id tag id)
  | tombstone other =>
      have hid : id = other := bytesBE_injective 16 hbytes
      exact Store.isDeleted_iff.mpr (hid ▸ hheld)

end Kinds

omit [Blake3] in
/-- Tables whose rows answer each other under a relation that keeps the id have related entities. -/
theorem rel_current {E : Type} [Stored E] {r : E → E → Prop} {left right : EntityTables E}
    (hid : ∀ a b, r a b → Entity.id a = Entity.id b)
    (hforward : ∀ row ∈ left.live, ∃ other ∈ right.live, r row.entity other.entity)
    (hback : ∀ row ∈ right.live, ∃ other ∈ left.live, r row.entity other.entity) (id : Uuid) :
    Option.Rel r (left.current id) (right.current id) := by
  cases hleft : left.current id with
  | none =>
      have hnone : right.current id = none := by
        rw [EntityTables.current_eq_none_iff] at hleft ⊢
        intro row hrow hrowId
        obtain ⟨other, hother, hrel⟩ := hback row hrow
        exact hleft other hother ((hid _ _ hrel).symm.trans hrowId)
      rw [hnone]
      exact .none
  | some entity =>
      obtain ⟨row, hrow, rfl, hrowId⟩ := EntityTables.current_eq_some_iff.mp hleft
      obtain ⟨other, hother, hrel⟩ := hforward row hrow
      have hsome : right.current id = some other.entity :=
        EntityTables.current_eq_some_iff.mpr ⟨other, hother, rfl, (hid _ _ hrel).symm.trans hrowId⟩
      rw [hsome]
      exact .some hrel

theorem Binding.sameContents {left right : Store} (h : Binding left right)
    (hleft : Authentic left) (hright : Authentic right)
    (hroot : left.rootState.hash = right.rootState.hash) : SameContents left right where
  cards := by
    apply rel_current
    · intro a b hsame
      have hid := congrArg Card.id hsame.1
      exact hid
    · exact fun row => h.exists_card hleft hright hroot
    · exact fun row => h.symm.exists_card hright hleft hroot.symm
  tags := by
    apply rel_current
    · intro a b hsame
      have hid := congrArg Tag.id hsame.1
      exact hid
    · exact fun row => h.exists_tag hleft hright hroot
    · exact fun row => h.symm.exists_tag hright hleft hroot.symm
  deleted id := by
    rw [Bool.eq_iff_iff]
    exact ⟨h.isDeleted hleft hright hroot, h.symm.isDeleted hright hleft hroot.symm⟩

/-! ### Reachable stores -/

omit [Blake3] in
instance (card : Card) : Decidable card.FitsMemory := inferInstanceAs (Decidable (_ ∧ _))

omit [Blake3] in
instance (tag : Tag) : Decidable tag.FitsMemory := inferInstanceAs (Decidable (_ ∧ _))

def PushItem.FitsMemory : PushItem → Prop
  | .cards versions => ∀ v ∈ versions, v.FitsMemory
  | .tags versions => ∀ v ∈ versions, v.FitsMemory
  | .deleteCard _ | .deleteTag _ => True

def Call.FitsMemory (call : Call) : Prop := ∀ item ∈ call.mutation.items, item.FitsMemory

structure ContentsInvariant (store : Store) : Prop where
  cards : StoredAll (fun card => Entity.verify card = true ∧ card.FitsMemory) store.cards
  tags : StoredAll (fun tag => Entity.verify tag = true ∧ tag.FitsMemory) store.tags
  deleted : ∀ row ∈ store.deletedEntities, row.entity = DeletedEntity.new row.entity.id

theorem contentsInvariant_initSchema : ContentsInvariant initSchema :=
  ⟨.empty, .empty, fun row hrow => absurd hrow (Table.not_mem_empty row)⟩

theorem genuine_buryRow {deletedEntities : Table deletedConflict} {id : Uuid}
    (h : ∀ row ∈ deletedEntities, row.entity = DeletedEntity.new row.entity.id) :
    ∀ row ∈ buryRow deletedEntities (DeletedEntity.new id),
      row.entity = DeletedEntity.new row.entity.id := by
  intro row hrow
  rcases Table.mem_replace.mp hrow with ⟨hold, -⟩ | rfl
  · exact h row hold
  · rfl

theorem ContentsInvariant.pushItem {store after : Store} {item : PushItem}
    (hinv : ContentsInvariant store) (hfits : item.FitsMemory)
    (h : pushItem store item = .ok after) : ContentsInvariant after := by
  rcases pushItem_cases h with ⟨_, _, _, _, rfl, hpushed, rfl⟩ | ⟨_, _, _, _, rfl, hpushed, rfl⟩ |
    ⟨_, rfl, -, -, rfl⟩ | ⟨_, rfl, -, -, -, -, rfl⟩
  · have hversions := fun v hv => And.intro (hpushed.verified v hv) (hfits v hv)
    exact ⟨hpushed.storedAll hinv.cards hversions, hinv.tags, hinv.deleted⟩
  · have hversions := fun v hv => And.intro (hpushed.verified v hv) (hfits v hv)
    exact ⟨hinv.cards, hpushed.storedAll hinv.tags hversions, hinv.deleted⟩
  · exact ⟨hinv.cards.remove _, hinv.tags, genuine_buryRow hinv.deleted⟩
  · exact ⟨hinv.cards, hinv.tags.remove _, genuine_buryRow hinv.deleted⟩

theorem ContentsInvariant.execute {store : Store} {call : Call} (hinv : ContentsInvariant store)
    (hfits : call.FitsMemory) : ContentsInvariant (execute store call) := by
  refine execute_preserves ContentsInvariant hinv
    (fun _ item _ hitem hbefore => hbefore.pushItem (hfits item hitem)) ?_
  intro written after hcommitted hwritten
  refine ⟨?_, ?_, ?_⟩
  · rw [hcommitted.cards_eq]
    exact hwritten.cards.stampAll _ _
  · rw [hcommitted.tags_eq]
    exact hwritten.tags.stampAll _ _
  · rw [hcommitted.deleted_eq]
    intro row hrow
    obtain ⟨old, hold, rfl⟩ := mem_stampDeletedAll.mp hrow
    split <;> exact hwritten.deleted old hold

/-- The hypotheses of the commitment hold of whatever a server has stored. -/
theorem authentic_run {calls : List Call} (hsingle : ∀ call ∈ calls, call.SingleId)
    (hfits : ∀ call ∈ calls, call.FitsMemory) : Authentic (Run.after execute initSchema calls) := by
  have hmeets : Run.Meets execute (fun _ call => call.SingleId ∧ call.FitsMemory) initSchema calls :=
    Run.meets_of_forall fun _ call hcall => ⟨hsingle call hcall, hfits call hcall⟩
  have hmerkle : MerkleInvariant (Run.after execute initSchema calls) :=
    hmeets.invariant _ merkleInvariant_initSchema fun _ _ hinv hcall => hinv.execute hcall.1
  have hcontents : ContentsInvariant (Run.after execute initSchema calls) :=
    hmeets.invariant _ contentsInvariant_initSchema fun _ _ hinv hcall => hinv.execute hcall.2
  exact ⟨hmerkle, hcontents.cards.live, hcontents.tags.live, hcontents.deleted⟩

/-- **The root commits to the contents.** No two kinds of entity share an encoding, and stores with one
root hash have the same contents, or show a collision or a zero digest. -/
theorem rootHash_commits :
    (∀ (card : Card) (tag : Tag) (id : Uuid), card.canonicalBytes ≠ tag.canonicalBytes ∧
        card.canonicalBytes ≠ id.asBytes ∧ tag.canonicalBytes ≠ id.asBytes) ∧
      ∀ left right : Store, Authentic left → Authentic right →
        left.rootState.hash = right.rootState.hash →
        SameContents left right ∨ Collision left right ∨ ZeroDigest left ∨ ZeroDigest right := by
  refine ⟨fun card tag id => ⟨canonicalBytes_card_ne_tag card tag, canonicalBytes_card_ne_id card id,
    canonicalBytes_tag_ne_id tag id⟩, fun left right hleft hright hroot => ?_⟩
  by_cases hcollision : Collision left right
  · exact .inr (.inl hcollision)
  by_cases hzeroLeft : ZeroDigest left
  · exact .inr (.inr (.inl hzeroLeft))
  by_cases hzeroRight : ZeroDigest right
  · exact .inr (.inr (.inr hzeroRight))
  have hbinding : Binding left right := binding_of_not hcollision hzeroLeft hzeroRight
  exact .inl (hbinding.sameContents hleft hright hroot)

end

/-- A card and a tag, pushed in either order. -/
theorem rootHash_commits_pushedInEitherOrder :
    let left := @Run.after _ _ (@execute polynomialBlake3) initSchema
      [⟨.pushCardVersions [sampleCard 1 ⟨0, by decide⟩], 0⟩, ⟨.pushTagVersions [sampleTag 2 []], 1⟩]
    let right := @Run.after _ _ (@execute polynomialBlake3) initSchema
      [⟨.pushTagVersions [sampleTag 2 []], 0⟩, ⟨.pushCardVersions [sampleCard 1 ⟨0, by decide⟩], 1⟩]
    SameContents left right ∨ @Collision polynomialBlake3 left right ∨
      @ZeroDigest polynomialBlake3 left ∨ @ZeroDigest polynomialBlake3 right := by
  apply (@rootHash_commits polynomialBlake3).2
  · apply @authentic_run polynomialBlake3
    · decide
    · simp [Call.FitsMemory, Mutation.items, PushItem.FitsMemory]
      decide
  · apply @authentic_run polynomialBlake3
    · decide
    · simp [Call.FitsMemory, Mutation.items, PushItem.FitsMemory]
      decide
  · decide +kernel

end BlazeList
