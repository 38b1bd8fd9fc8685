import BlazeList.Server.Merkle

/-!
# What an accepted push touches

The checks on a chain compare hashes only, and nothing compares the ids of its versions. An accepted push
leaves the rows of other entities alone exactly when its chain carries a single id.
-/

namespace BlazeList

variable {E : Type} [Stored E]

structure SameRows (before after : EntityTables E) (id : Uuid) : Prop where
  live : after.live.rows.filter (fun row => Entity.id row.entity = id) =
    before.live.rows.filter fun row => Entity.id row.entity = id
  versions : after.versions.rows.filter (fun row => Entity.id row.entity = id) =
    before.versions.rows.filter fun row => Entity.id row.entity = id

/-- No row of an id other than `touched` differs in the four tables. -/
structure TouchesOnly (touched : Uuid) (before after : Store) : Prop where
  cards : ∀ id, id ≠ touched → SameRows before.cards after.cards id
  tags : ∀ id, id ≠ touched → SameRows before.tags after.tags id

theorem SameRows.refl (tables : EntityTables E) (id : Uuid) : SameRows tables tables id := ⟨rfl, rfl⟩

theorem sameRows_stamp_iff {before after : EntityTables E} {id touched : Uuid} {sequence : Nat}
    (hid : id ≠ touched) :
    SameRows before (after.stamp touched sequence) id ↔ SameRows before after id := by
  have hlive : (after.stamp touched sequence).live.rows.filter
      (fun row => Entity.id row.entity = id) =
        after.live.rows.filter fun row => Entity.id row.entity = id := by
    rw [EntityTables.stamp, Table.rows_update, List.filter_map]
    simp only [Function.comp_def, EntityRow.stamp_entity]
    refine (List.map_congr_left fun row hrow => ?_).trans (List.map_id _)
    have hrowId : Entity.id row.entity = id := by simpa using (List.mem_filter.mp hrow).2
    exact if_neg (hrowId ▸ hid)
  have hversions : (after.stamp touched sequence).versions.rows.filter
      (fun row => Entity.id row.entity = id) =
        after.versions.rows.filter fun row => Entity.id row.entity = id := by
    rw [EntityTables.stamp, Table.rows_update, List.filter_map]
    simp only [Function.comp_def, VersionRow.stamp_entity]
    refine (List.map_congr_left fun row hrow => ?_).trans (List.map_id _)
    have hrowId : Entity.id row.entity = id := by simpa using (List.mem_filter.mp hrow).2
    exact if_neg fun hboth => (hrowId ▸ hid) hboth.1
  exact ⟨fun h => ⟨hlive ▸ h.live, hversions ▸ h.versions⟩,
    fun h => ⟨hlive.symm ▸ h.live, hversions.symm ▸ h.versions⟩⟩

section Push

variable [Blake3] {store : Store} {before after : EntityTables E} {versions : List E}
  {first latest : E}

theorem Pushed.sameRows (h : Pushed store before versions first latest after)
    (hsingle : SingleId versions) {id : Uuid} (hid : id ≠ Entity.id first) :
    SameRows before after id := by
  have hversions : ∀ v ∈ versions, Entity.id v ≠ id :=
    fun v hv heq => hid (heq ▸ hsingle v hv first h.first_mem)
  constructor
  · have hlatest : Entity.id latest ≠ id := hversions latest h.latest_mem
    rw [h.live_eq, Table.rows_replace, List.filter_append, List.filter_filter,
      List.filter_cons_of_neg (by simpa using hlatest), List.filter_nil, List.append_nil]
    refine List.filter_congr fun row hrow => ?_
    by_cases hrowId : Entity.id row.entity = id
    · have hother : Entity.id row.entity ≠ Entity.id latest := fun heq => hlatest (heq ▸ hrowId)
      have hclash : ¬ Stored.clash row.entity latest :=
        fun hclash => hother (h.unclashed row hrow hclash)
      simp [hrowId, liveConflict, hlatest.symm, hclash]
    · simp [hrowId]
  · rw [h.versions_rows, List.filter_append, List.filter_map]
    simpa [Function.comp_def, List.filter_eq_nil_iff] using hversions

/-- A version with another id shows in the version table. -/
theorem Pushed.singleId_of_sameRows (h : Pushed store before versions first latest after)
    (hsame : ∀ id, id ≠ Entity.id first → SameRows before after id) : SingleId versions := by
  have hfirst : ∀ v ∈ versions, Entity.id v = Entity.id first := by
    intro v hv
    by_contra hid
    have hrows := (hsame (Entity.id v) hid).versions
    rw [h.versions_rows, List.filter_append, List.append_right_eq_self, List.filter_eq_nil_iff] at hrows
    exact hrows ⟨v, 0⟩ (List.mem_map_of_mem hv) (decide_eq_true rfl)
  exact fun v hv w hw => (hfirst v hv).trans (hfirst w hw).symm

theorem Pushed.sameRows_iff (h : Pushed store before versions first latest after) :
    (∀ id, id ≠ Entity.id first → SameRows before after id) ↔ SingleId versions :=
  ⟨h.singleId_of_sameRows, fun hsingle _ => h.sameRows hsingle⟩

end Push

section Calls

variable [Blake3] {store after : Store}

/-- The chain as an item of a batch. -/
theorem pushItem_cards_touchesOnly_iff {versions : List Card} {first : Card}
    (hfirst : versions.head? = some first) (h : pushItem store (.cards versions) = .ok after) :
    TouchesOnly first.id store after ↔ SingleId versions := by
  obtain ⟨cards, head, latest, hpushed, rfl⟩ := pushCardVersionsInner_eq_ok_iff.mp h
  obtain rfl : head = first := Option.some.inj (hpushed.head.symm.trans hfirst)
  rw [← hpushed.sameRows_iff]
  exact ⟨fun htouches => htouches.cards, fun hcards => ⟨hcards, fun id _ => .refl _ id⟩⟩

theorem pushItem_tags_touchesOnly_iff {versions : List Tag} {first : Tag}
    (hfirst : versions.head? = some first) (h : pushItem store (.tags versions) = .ok after) :
    TouchesOnly first.id store after ↔ SingleId versions := by
  obtain ⟨tags, head, latest, hpushed, rfl⟩ := pushTagVersionsInner_eq_ok_iff.mp h
  obtain rfl : head = first := Option.some.inj (hpushed.head.symm.trans hfirst)
  rw [← hpushed.sameRows_iff]
  exact ⟨fun htouches => htouches.tags, fun htags => ⟨fun id _ => .refl _ id, htags⟩⟩

/-- The stamps of a single push are those of its first id. -/
theorem pushCardVersions_touchesOnly_iff {versions : List Card} {first : Card} {now : Int}
    (hfirst : versions.head? = some first) (h : pushCardVersions store versions now = .ok after) :
    TouchesOnly first.id store after ↔ SingleId versions := by
  obtain ⟨written, -, hcommitted⟩ := pushCardVersions_eq_ok_iff.mp h
  obtain ⟨_, hitem, hnil⟩ := writes_cons.mp hcommitted.writes
  obtain rfl := writes_nil.mp hnil
  rw [← pushItem_cards_touchesOnly_iff hfirst hitem]
  have haffected : affectedOf [.cards versions] = ⟨[first.id], [], []⟩ := by
    simp [affectedOf, Affected.add, Affected.empty, hfirst]
  have hcards := hcommitted.cards_eq
  have htags : after.tags = written.tags := hcommitted.tags_eq.trans (by rw [haffected]; rfl)
  rw [haffected] at hcards
  have hiff : ∀ id, id ≠ first.id →
      (SameRows store.cards after.cards id ↔ SameRows store.cards written.cards id) := by
    intro id hid
    rw [hcards]
    exact sameRows_stamp_iff hid
  constructor
  · exact fun htouches => ⟨fun id hid => (hiff id hid).mp (htouches.cards id hid),
      htags ▸ htouches.tags⟩
  · exact fun htouches => ⟨fun id hid => (hiff id hid).mpr (htouches.cards id hid),
      htags ▸ htouches.tags⟩

theorem pushTagVersions_touchesOnly_iff {versions : List Tag} {first : Tag} {now : Int}
    (hfirst : versions.head? = some first) (h : pushTagVersions store versions now = .ok after) :
    TouchesOnly first.id store after ↔ SingleId versions := by
  obtain ⟨written, -, hcommitted⟩ := pushTagVersions_eq_ok_iff.mp h
  obtain ⟨_, hitem, hnil⟩ := writes_cons.mp hcommitted.writes
  obtain rfl := writes_nil.mp hnil
  rw [← pushItem_tags_touchesOnly_iff hfirst hitem]
  have haffected : affectedOf [.tags versions] = ⟨[], [first.id], []⟩ := by
    simp [affectedOf, Affected.add, Affected.empty, hfirst]
  have hcards : after.cards = written.cards := hcommitted.cards_eq.trans (by rw [haffected]; rfl)
  have htags := hcommitted.tags_eq
  rw [haffected] at htags
  have hiff : ∀ id, id ≠ first.id →
      (SameRows store.tags after.tags id ↔ SameRows store.tags written.tags id) := by
    intro id hid
    rw [htags]
    exact sameRows_stamp_iff hid
  constructor
  · exact fun htouches => ⟨hcards ▸ htouches.cards,
      fun id hid => (hiff id hid).mp (htouches.tags id hid)⟩
  · exact fun htouches => ⟨hcards ▸ htouches.cards,
      fun id hid => (hiff id hid).mpr (htouches.tags id hid)⟩

/-- An accepted push of cards or tags, alone or as an item of a batch, leaves the rows of all other ids
unchanged if and only if its chain carries a single id. -/
theorem accepted_touchesOnly_iff (store after : Store) (now : Int) :
    (∀ (first : Card) (rest : List Card),
      pushCardVersions store (first :: rest) now = .ok after →
        (TouchesOnly first.id store after ↔ SingleId (first :: rest))) ∧
    (∀ (first : Tag) (rest : List Tag),
      pushTagVersions store (first :: rest) now = .ok after →
        (TouchesOnly first.id store after ↔ SingleId (first :: rest))) ∧
    (∀ (first : Card) (rest : List Card), pushItem store (.cards (first :: rest)) = .ok after →
      (TouchesOnly first.id store after ↔ SingleId (first :: rest))) ∧
    (∀ (first : Tag) (rest : List Tag), pushItem store (.tags (first :: rest)) = .ok after →
      (TouchesOnly first.id store after ↔ SingleId (first :: rest))) :=
  ⟨fun _ _ => pushCardVersions_touchesOnly_iff rfl, fun _ _ => pushTagVersions_touchesOnly_iff rfl,
    fun _ _ => pushItem_cards_touchesOnly_iff rfl, fun _ _ => pushItem_tags_touchesOnly_iff rfl⟩

end Calls

def renamedCard : Card :=
  let card := sampleCard 1 ⟨0, zero_mem_i64⟩
  (@Card.next polynomialBlake3 card "renamed" card.priority [] false .epoch none).getD card

/-- A card with two versions is pushed beside another card and a tag, and the tag beside both cards. -/
theorem accepted_touchesOnly_sample :
    let _ := polynomialBlake3
    let store := Run.after execute initSchema
      [⟨.pushCardVersions [sampleCard 2 ⟨1, one_mem_i64⟩], 0⟩, ⟨.pushTagVersions [sampleTag 3 []], 1⟩]
    ∃ after afterTag,
      pushCardVersions store [sampleCard 1 ⟨0, zero_mem_i64⟩, renamedCard] 2 = .ok after ∧
        TouchesOnly 1 store after ∧ pushItem after (.tags [sampleTag 4 [3]]) = .ok afterTag ∧
        TouchesOnly 4 after afterTag ∧
        (after.cards.live.rows.length, after.cards.versions.rows.length, afterTag.tags.live.rows.length) =
          (2, 3, 2) := by
  intro _ store
  have hsome : ((pushCardVersions store [sampleCard 1 ⟨0, zero_mem_i64⟩, renamedCard] 2).toOption.bind fun after =>
      (pushItem after (.tags [sampleTag 4 [3]])).toOption.map fun afterTag =>
        (after.cards.live.rows.length, after.cards.versions.rows.length, afterTag.tags.live.rows.length)) =
        some (2, 3, 2) := by
    decide +kernel
  obtain ⟨after, hafter, hsecond⟩ := Option.bind_eq_some_iff.mp hsome
  obtain ⟨afterTag, hafterTag, hcounts⟩ := Option.map_eq_some_iff.mp hsecond
  have hok := Except.toOption_eq_some_iff.mp hafter
  have hokTag := Except.toOption_eq_some_iff.mp hafterTag
  exact ⟨after, afterTag, hok, ((accepted_touchesOnly_iff store after 2).1 _ _ hok).mpr (by decide +kernel), hokTag,
    ((accepted_touchesOnly_iff after afterTag 0).2.2.2 _ _ hokTag).mpr (by decide), hcounts⟩

def strayCard : Card :=
  let card : Card :=
    { sampleCard 2 ⟨1, one_mem_i64⟩ with ancestorHash := (sampleCard 1 ⟨0, zero_mem_i64⟩).hash }
  { card with hash := @Entity.expectedHash _ _ polynomialBlake3 card }

/-- The empty server takes a chain that starts with one card and ends with another. -/
theorem not_touchesOnly_strayCard : ∃ after,
    @pushCardVersions polynomialBlake3 initSchema [sampleCard 1 ⟨0, by decide⟩, strayCard] 0 =
        .ok after ∧
      ¬ TouchesOnly 1 initSchema after := by
  let _ := polynomialBlake3
  have hcount :
      ((pushCardVersions initSchema [sampleCard 1 ⟨0, by decide⟩, strayCard] 0).toOption.map
        fun after => (after.cards.versions.rows.filter fun row => row.entity.id = 2).length) =
          some 1 := by
    decide +kernel
  obtain ⟨after, hafter, hlength⟩ := Option.map_eq_some_iff.mp hcount
  refine ⟨after, Except.toOption_eq_some_iff.mp hafter, fun htouches => ?_⟩
  have hrows : (after.cards.versions.rows.filter fun row => row.entity.id = 2) = [] :=
    (htouches.cards 2 (by decide)).versions
  rw [hrows] at hlength
  exact absurd hlength (by decide)

end BlazeList
