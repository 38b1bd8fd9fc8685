import BlazeList.Server.Reads
import Mathlib.Data.List.Nodup

/-!
# Stored histories

A history is read in the order of its counts, which the client chooses and no check looks at. It shows
the line of versions as long as each accepted chain counts on from where its entity stands.
-/

namespace BlazeList

section Counts

variable {E : Type} [Stored E]

def countOf (entity : E) : Nat := (Entity.count entity).val

/-- From a first version with the zero ancestor and count 1, each version follows the one before. -/
structure VerifiableHistory (history : List E) : Prop where
  start : ∀ first ∈ history.head?, Entity.ancestorHash first = zeroHash ∧ countOf first = 1
  next : history.IsChain fun a b =>
    Entity.ancestorHash b = Entity.hash a ∧ countOf b = countOf a + 1

def CountsFollow (current : Option E) (versions : List E) : Prop :=
  versions.map countOf = List.range' ((current.map countOf).getD 0 + 1) versions.length

instance (current : Option E) (versions : List E) : Decidable (CountsFollow current versions) :=
  inferInstanceAs (Decidable (_ = _))

def Counted (tables : EntityTables E) : Prop :=
  ∀ id, (tables.lineage id).map countOf = List.range' 1 (tables.lineage id).length

variable {tables before after : EntityTables E} {id : Uuid}

/-- The counts of the versions of one entity differ. -/
theorem nodup_countOf_lineage (tables : EntityTables E) (id : Uuid) :
    ((tables.lineage id).map countOf).Nodup := by
  unfold EntityTables.lineage
  rw [List.map_map]
  apply List.pairwise_map.mpr
  have hunique := tables.versions.unique.sublist (List.filter_sublist (p := fun row => Entity.id row.entity = id))
  apply hunique.imp_of_mem
  intro a b ha hb hconflict hcount
  have haId := of_decide_eq_true (List.mem_filter.mp ha).2
  have hbId := of_decide_eq_true (List.mem_filter.mp hb).2
  exact hconflict ⟨haId.trans hbId.symm, NonNegativeI64.ext_iff.mpr hcount⟩

theorem nodup_lineage (tables : EntityTables E) (id : Uuid) : (tables.lineage id).Nodup :=
  (nodup_countOf_lineage tables id).of_map

theorem Counted.empty : Counted (EntityTables.empty : EntityTables E) := by
  intro id
  simp

theorem Counted.remove (hcounted : Counted tables) (id : Uuid) : Counted (tables.remove id) := by
  intro x
  rw [EntityTables.lineage_remove]
  split
  · rfl
  · exact hcounted x

theorem Counted.stampAll (hcounted : Counted tables) (ids : List Uuid) (sequence : Nat) :
    Counted (tables.stampAll ids sequence) := by
  intro id
  rw [EntityTables.lineage_stampAll]
  exact hcounted id

/-- The current count is the length of the line. -/
theorem Counted.count_current (hcounted : Counted tables) (hinv : LineageInvariant tables) (id : Uuid) :
    ((tables.current id).map countOf).getD 0 = (tables.lineage id).length := by
  rw [← hinv.last, ← List.getLast?_map, hcounted, List.getLast?_range']
  split
  · rename_i hzero
    simp [hzero]
  · simp only [Option.getD_some]
    omega

theorem Pushed.counted [Blake3] {store : Store} {versions : List E} {first latest : E}
    (h : Pushed store before versions first latest after) (hsingle : SingleId versions)
    (hinv : LineageInvariant before) (hcounted : Counted before)
    (hfollow : CountsFollow (before.current (Entity.id first)) versions) : Counted after := by
  intro id
  rw [h.lineage_of_singleId hsingle]
  split
  · rename_i hid
    have hversions : versions.map countOf =
        List.range' (1 + (before.lineage id).length) versions.length := by
      rw [hfollow, hid, hcounted.count_current hinv, Nat.add_comm]
    rw [List.map_append, hcounted, hversions, List.length_append]
    exact List.range'_append_1
  · exact hcounted id

/-- Reading by count gives the line back. -/
theorem Counted.orderBy_lineage (hcounted : Counted tables) (id : Uuid) :
    (tables.lineage id).orderBy countOf = tables.lineage id := by
  have hnodup := nodup_countOf_lineage tables id
  have hsorted : ((tables.lineage id).map countOf).Pairwise (· ≤ ·) := by
    rw [hcounted]
    exact List.pairwise_le_range'
  exact (List.eq_orderBy_of_perm (fun a ha b hb heq => List.inj_on_of_nodup_map hnodup ha hb heq)
    (List.Perm.refl _) (List.pairwise_map.mp hsorted)).symm

theorem Counted.verifiable (hcounted : Counted tables) (hinv : LineageInvariant tables) (id : Uuid) :
    VerifiableHistory (tables.lineage id) := by
  have hsucc : (tables.lineage id).IsChain fun a b => countOf b = countOf a + 1 := by
    have hrange := List.isChain_range' 1 (tables.lineage id).length 1
    rw [← hcounted] at hrange
    exact (List.isChain_map countOf).mp hrange
  constructor
  · intro first hfirst
    refine ⟨hinv.head id first hfirst, ?_⟩
    have hhead : ((tables.lineage id).map countOf).head? = some (countOf first) := by
      rw [List.head?_map, Option.mem_def.mp hfirst]
      rfl
    rw [hcounted, List.head?_range'] at hhead
    split at hhead
    · simp at hhead
    · exact (Option.some.inj hhead).symm
  · refine List.isChain_iff_getElem.mpr fun i hi => ⟨?_, ?_⟩
    · exact List.isChain_iff_getElem.mp (hinv.linked id) i hi
    · exact List.isChain_iff_getElem.mp hsucc i hi

/-! ### Reading a history -/

def chainKey (entity : E) : Hash × Nat × Hash :=
  (Entity.ancestorHash entity, countOf entity, Entity.hash entity)

/-- Only the hashes and counts matter. -/
theorem VerifiableHistory.congr {line history : List E} (hline : VerifiableHistory line)
    (hkeys : history.map chainKey = line.map chainKey) : VerifiableHistory history := by
  constructor
  · intro first hfirst
    have hhead : (line.map chainKey).head? = some (chainKey first) := by
      rw [← hkeys, List.head?_map, Option.mem_def.mp hfirst]
      rfl
    rw [List.head?_map, Option.map_eq_some_iff] at hhead
    obtain ⟨origin, horigin, hkey⟩ := hhead
    obtain ⟨hancestor, hcount⟩ := hline.start origin horigin
    simp only [chainKey, Prod.mk.injEq] at hkey
    exact ⟨hkey.1.symm.trans hancestor, hkey.2.1.symm.trans hcount⟩
  · have hmap := (List.isChain_map (R := fun a b : Hash × Nat × Hash =>
      b.1 = a.2.2 ∧ b.2.1 = a.2.1 + 1) (chainKey (E := E)) (l := line)).mpr hline.next
    rw [← hkeys] at hmap
    exact (List.isChain_map (chainKey (E := E))).mp hmap

section Decoded

variable [Blake3]

theorem fromRows_chainKey {line history : List E} (h : fromRows line = .ok history) :
    history.map chainKey = line.map chainKey := by
  refine map_eq_of_fromRows (fun hrow => ?_) h
  obtain ⟨-, hcount, hancestor, hhash⟩ := Stored.fromRow_ok hrow
  simp [chainKey, countOf, hcount, hancestor, hhash]

/-- The line of an entity reads back as a verifiable history that ends with the current version. -/
theorem Counted.history (hcounted : Counted tables) (hinv : LineageInvariant tables)
    {history : List E} (h : tables.history id none = .ok history) :
    VerifiableHistory history ∧ tables.get id = .ok history.getLast? := by
  have hrows : fromRows (tables.lineage id) = .ok history := by
    have hread : tables.history id none = fromRows ((tables.lineage id).orderBy countOf) := rfl
    rw [← h, hread, hcounted.orderBy_lineage]
  refine ⟨(hcounted.verifiable hinv id).congr (fromRows_chainKey hrows), ?_⟩
  have hlast := hinv.last id
  unfold EntityTables.get
  unfold EntityTables.current at hlast
  cases hrow : tables.row? id with
  | none =>
      rw [hrow, Option.map_none, List.getLast?_eq_none_iff] at hlast
      rw [hlast] at hrows
      obtain rfl : [] = history := Except.ok.inj hrows
      rfl
  | some row =>
      rw [hrow, Option.map_some, List.getLast?_eq_some_iff] at hlast
      obtain ⟨front, hfront⟩ := hlast
      rw [hfront, fromRows, List.mapM_append, List.mapM_cons, List.mapM_nil] at hrows
      simp only [Except.bind_eq_ok_iff, Except.mapError_eq_ok_iff, pure, Except.pure,
        Except.ok.injEq] at hrows
      obtain ⟨decodedFront, -, _, ⟨decoded, hdecoded, _, rfl, rfl⟩, rfl⟩ := hrows
      simp [hdecoded, Except.map, Except.mapError]

end Decoded

end Counts

/-! ### Counts over a run -/

def PushItem.CountsFollow (cards : Uuid → Option Card) (tags : Uuid → Option Tag) :
    PushItem → Prop
  | .cards versions => ∀ first ∈ versions.head?, BlazeList.CountsFollow (cards first.id) versions
  | .tags versions => ∀ first ∈ versions.head?, BlazeList.CountsFollow (tags first.id) versions
  | .deleteCard _ | .deleteTag _ => True

instance (cards : Uuid → Option Card) (tags : Uuid → Option Tag) :
    (item : PushItem) → Decidable (item.CountsFollow cards tags)
  | .cards versions => inferInstanceAs (Decidable (∀ first ∈ versions.head?, _))
  | .tags versions => inferInstanceAs (Decidable (∀ first ∈ versions.head?, _))
  | .deleteCard _ | .deleteTag _ => isTrue trivial

/-- Each chain counts on from what the items before it leave current. -/
def CountsRunOn (cards : Uuid → Option Card) (tags : Uuid → Option Tag) : List PushItem → Prop
  | [] => True
  | item :: rest =>
      item.CountsFollow cards tags ∧
        CountsRunOn (Overlay.applyAll cards item.cardWrites) (Overlay.applyAll tags item.tagWrites)
          rest

instance : (cards : Uuid → Option Card) → (tags : Uuid → Option Tag) → (items : List PushItem) →
    Decidable (CountsRunOn cards tags items)
  | _, _, [] => isTrue trivial
  | cards, tags, item :: rest =>
      have : Decidable (CountsRunOn (Overlay.applyAll cards item.cardWrites)
          (Overlay.applyAll tags item.tagWrites) rest) :=
        instDecidableCountsRunOn _ _ rest
      inferInstanceAs (Decidable (_ ∧ _))

structure CountedInvariant (store : Store) : Prop where
  lineages : LineagesInvariant store
  cards : Counted store.cards
  tags : Counted store.tags

theorem countedInvariant_initSchema : CountedInvariant initSchema :=
  ⟨lineagesInvariant_initSchema, .empty, .empty⟩

section Runs

variable [Blake3]

theorem CountedInvariant.pushItem {store after : Store} {item : PushItem}
    (hinv : CountedInvariant store) (hsingle : item.SingleId)
    (hfollow : item.CountsFollow store.cards.current store.tags.current)
    (h : pushItem store item = .ok after) : CountedInvariant after := by
  have hlineages := hinv.lineages.pushItem hsingle h
  rcases pushItem_cases h with ⟨_, _, first, _, rfl, hpushed, rfl⟩ |
    ⟨_, _, first, _, rfl, hpushed, rfl⟩ | ⟨_, rfl, -, -, rfl⟩ | ⟨_, rfl, -, -, -, -, rfl⟩
  · exact ⟨hlineages, hpushed.counted hsingle hinv.lineages.cards hinv.cards
      (hfollow first hpushed.head), hinv.tags⟩
  · exact ⟨hlineages, hinv.cards, hpushed.counted hsingle hinv.lineages.tags hinv.tags
      (hfollow first hpushed.head)⟩
  · exact ⟨hlineages, hinv.cards.remove _, hinv.tags⟩
  · exact ⟨hlineages, hinv.cards, hinv.tags.remove _⟩

theorem Writes.countedInvariant {store written : Store} {items : List PushItem}
    (h : Writes store items written) (hinv : CountedInvariant store)
    (hsingle : ∀ item ∈ items, item.SingleId)
    (hrun : CountsRunOn store.cards.current store.tags.current items) :
    CountedInvariant written := by
  induction items generalizing store with
  | nil => exact writes_nil.mp h ▸ hinv
  | cons item rest ih =>
      obtain ⟨next, hnext, hrest⟩ := writes_cons.mp h
      obtain ⟨hfollow, hrunRest⟩ := hrun
      rw [← pushItem_cards_current hnext, ← pushItem_tags_current hnext] at hrunRest
      exact ih hrest (hinv.pushItem (hsingle item List.mem_cons_self) hfollow hnext)
        (fun other hother => hsingle other (List.mem_cons_of_mem item hother)) hrunRest

/-- A live entity is read as one. -/
theorem exists_get_of_mem {E : Type} [Stored E] {tables : EntityTables E} {row : EntityRow E}
    {found : Option E} (hrow : row ∈ tables.live)
    (hget : tables.get (Entity.id row.entity) = .ok found) : ∃ entity, found = some entity := by
  rw [EntityTables.get, EntityTables.row?_eq_some_iff.mpr ⟨hrow, rfl⟩] at hget
  obtain ⟨entity, -, rfl⟩ := Except.map_eq_ok_iff.mp (Except.mapError_eq_ok_iff.mp hget)
  exact ⟨entity, rfl⟩

def CountedCall (store : Store) (call : Call) : Prop :=
  (perform store call).isSome →
    CountsRunOn store.cards.current store.tags.current call.mutation.items

instance (store : Store) (call : Call) : Decidable (CountedCall store call) :=
  inferInstanceAs (Decidable (_ → _))

theorem CountedInvariant.execute {store : Store} {call : Call} (hinv : CountedInvariant store)
    (hsingle : call.SingleId) (hcounted : CountedCall store call) :
    CountedInvariant (execute store call) := by
  have hlineages := hinv.lineages.execute hsingle
  obtain heq | ⟨hsome, written, hcommitted⟩ := execute_cases store call
  · rw [heq]
    exact hinv
  · have hwritten := hcommitted.writes.countedInvariant hinv hsingle (hcounted hsome)
    refine ⟨hlineages, ?_, ?_⟩
    · rw [hcommitted.cards_eq]
      exact hwritten.cards.stampAll _ _
    · rw [hcommitted.tags_eq]
      exact hwritten.tags.stampAll _ _

/-- The unlimited history of a live card can be read, is a verifiable chain and ends with the current
version. So is that of a live tag, if it can be read. -/
structure LinearHistories (store : Store) : Prop where
  cards : ∀ row ∈ store.cards.live, ∃ history latest,
    getCardHistory store row.entity.id none = .ok history ∧ VerifiableHistory history ∧
      history.getLast? = some latest ∧ getCard store row.entity.id = .ok (some latest)
  tags : ∀ row ∈ store.tags.live, ∀ history,
    getTagHistory store row.entity.id none = .ok history → VerifiableHistory history ∧
      ∃ latest, history.getLast? = some latest ∧ getTag store row.entity.id = .ok (some latest)

/-- In a run whose chains carry one id each, and whose accepted chains count on from the current
versions, every history is a verifiable chain. -/
theorem linearHistories_run (calls : List Call) (hsingle : ∀ call ∈ calls, call.SingleId)
    (hcounted : Run.Meets execute CountedCall initSchema calls) :
    LinearHistories (Run.after execute initSchema calls) := by
  have hmeets : Run.Meets execute (fun store call => call.SingleId ∧ CountedCall store call)
      initSchema calls :=
    hcounted.and (Run.meets_of_forall fun _ call => hsingle call)
  have hinv : CountedInvariant (Run.after execute initSchema calls) :=
    hmeets.invariant _ countedInvariant_initSchema fun _ _ hinv hcall =>
      hinv.execute hcall.1 hcall.2
  have hreadable : StoredAll Readable (Run.after execute initSchema calls).cards :=
    Run.invariant (fun store : Store => StoredAll Readable store.cards) .empty
      (fun _ call hinv => readable_cards_execute hinv call) calls
  constructor
  · intro row hrow
    obtain ⟨history, hhistory⟩ := exists_history hreadable row.entity.id none
    obtain ⟨hverifiable, hget⟩ := hinv.cards.history hinv.lineages.cards hhistory
    obtain ⟨latest, hlatest⟩ := exists_get_of_mem hrow hget
    exact ⟨history, latest, hhistory, hverifiable, hlatest, hlatest ▸ hget⟩
  · intro row hrow history hhistory
    obtain ⟨hverifiable, hget⟩ := hinv.tags.history hinv.lineages.tags hhistory
    obtain ⟨latest, hlatest⟩ := exists_get_of_mem hrow hget
    exact ⟨hverifiable, latest, hlatest, hlatest ▸ hget⟩

end Runs

/-- Two versions of a card, pushed one after the other. -/
theorem linearHistories_sample :
    let _ := polynomialBlake3
    let first := sampleCard 1 ⟨0, by decide⟩
    LinearHistories (Run.after execute initSchema
      [⟨.pushCardVersions [first], 0⟩,
        ⟨.pushCardVersions (first.next "" ⟨0, by decide⟩ [] true .epoch none).toList, 1⟩]) :=
  @linearHistories_run polynomialBlake3 _ (by decide +kernel) (by decide +kernel)

def jumpingCard : Card :=
  let card : Card := { sampleCard 1 ⟨0, zero_mem_i64⟩ with count := ⟨5, by decide⟩ }
  { card with hash := @Entity.expectedHash _ _ polynomialBlake3 card }

/-- It is accepted, and its history does not start at count 1. -/
theorem not_linearHistories_jumpingCard :
    let _ := polynomialBlake3
    ¬ LinearHistories (Run.after execute initSchema [⟨.pushCardVersions [jumpingCard], 0⟩]) := by
  intro _ hlinear
  have hlive : (Run.after execute initSchema
      [⟨.pushCardVersions [jumpingCard], 0⟩]).cards.live.rows.map EntityRow.entity =
        [jumpingCard] := by
    decide +kernel
  have hread : (getCardHistory (Run.after execute initSchema
      [⟨.pushCardVersions [jumpingCard], 0⟩]) 1 none).toOption = some [jumpingCard] := by
    decide +kernel
  obtain ⟨row, hrow, hentity⟩ : ∃ row ∈ (Run.after execute initSchema
      [⟨.pushCardVersions [jumpingCard], 0⟩]).cards.live.rows, row.entity = jumpingCard := by
    apply List.mem_map.mp
    rw [hlive]
    exact List.mem_singleton_self jumpingCard
  obtain ⟨history, -, hhistory, hverifiable, -⟩ := hlinear.cards row hrow
  rw [hentity] at hhistory
  have heq : some history = some [jumpingCard] :=
    (congrArg Except.toOption hhistory).symm.trans hread
  obtain rfl := Option.some.inj heq
  exact absurd (hverifiable.start jumpingCard rfl).2 (by decide)

end BlazeList
