import BlazeList.Server.Reads

/-!
# Histories in bulk

The bulk read fetches the versions of all requested entities in one statement, sorted by entity and count, and
cuts each entity's share off while it groups them. The single read leaves both to the database. They
agree unless the statement cannot bind all ids or a version that the bulk read fetches cannot be read.
-/

namespace BlazeList

def Requested (ids : Option (List Uuid)) (id : Uuid) : Prop := ∀ list ∈ ids, id ∈ list

instance (ids : Option (List Uuid)) (id : Uuid) : Decidable (Requested ids id) :=
  match ids with
  | none => isTrue fun _ h => nomatch h
  | some list => decidable_of_iff (id ∈ list) (by simp [Requested])

section

variable {E : Type} [Stored E]

/-- The bulk read holds what the single read returns, for the requested entities that have versions and
for no others. Without a list these cover what is live, and with a list each id is as good once as often. -/
def HistoriesAgree (tables : EntityTables E) (ids : Option (List Uuid))
    (bulk : Option (List Uuid) → Except StorageError (Std.TreeMap Uuid (List E)))
    (single : Uuid → Except StorageError (List E)) : Prop :=
  ∃ histories, bulk ids = .ok histories ∧
    (∀ id, Requested ids id → tables.lineage id ≠ [] →
      ∃ history, single id = .ok history ∧ histories[id]? = some history) ∧
    (∀ id ∈ histories, Requested ids id ∧ tables.lineage id ≠ []) ∧
    (ids = none → ∀ row ∈ tables.live, Entity.id row.entity ∈ histories) ∧
    ∀ list ∈ ids, bulk (some list.dedup) = .ok histories

/-! ### Grouping -/

omit [Stored E] in
theorem limited_concat (limit : Option Nat) (rows : List E) (row : E) :
    limited limit (rows ++ [row]) =
      if limit.any fun most => most ≤ (limited limit rows).length then limited limit rows
      else limited limit rows ++ [row] := by
  cases limit with
  | none => rfl
  | some limit =>
      simp only [limited, Option.elim_some, Option.any_some, List.length_take, decide_eq_true_eq]
      split
      next hfull => rw [List.take_append_of_le_length (by omega)]
      next hroom =>
        rw [List.take_of_length_le (by rw [List.length_append, List.length_singleton]; omega),
          List.take_of_length_le (by omega)]

/-- The group of an entity is its share of the rows, as far as the limit goes. -/
theorem getElem?_foldl_groupVersion (limit : Option Nat) (rows : List E) (id : Uuid) :
    (rows.foldl (groupVersion limit) ∅)[id]? =
      if id ∈ rows.map Entity.id then
        some (limited limit (rows.filter fun version => Entity.id version = id))
      else none := by
  induction rows using List.reverseRecOn with
  | nil => simp
  | append_singleton rows version ih =>
      have hentry : (rows.foldl (groupVersion limit) ∅).getD id [] =
          limited limit (rows.filter fun version => Entity.id version = id) := by
        rw [Std.TreeMap.getD_eq_getD_getElem?, ih]
        split
        next => rfl
        next hnone =>
          have hempty : rows.filter (fun version => Entity.id version = id) = [] := by
            rw [List.filter_eq_nil_iff]
            intro version hversion hid
            exact hnone (List.mem_map.mpr ⟨version, hversion, of_decide_eq_true hid⟩)
          rw [hempty]
          cases limit with
          | none => rfl
          | some limit => exact List.take_nil.symm
      rw [List.foldl_concat, groupVersion, List.map_append, List.filter_append]
      by_cases hid : Entity.id version = id
      · subst hid
        simp only [List.map_cons, List.map_nil, List.mem_append, List.mem_singleton, or_true, if_true,
          List.filter_cons, List.filter_nil, decide_true, hentry, limited_concat]
        split <;> simp
      · have hnot : [version].filter (fun version => Entity.id version = id) = [] := by simp [hid]
        rw [hnot, List.append_nil]
        have hmem : id ∈ rows.map Entity.id ++ [version].map Entity.id ↔ id ∈ rows.map Entity.id := by
          simp [Ne.symm hid]
        rw [if_congr hmem rfl rfl, ← ih]
        split <;> rw [Std.TreeMap.getElem?_insert, if_neg (mt Std.LawfulEqCmp.compare_eq_iff_eq.mp hid)]

/-! ### The share of one entity -/

variable {tables : EntityTables E} {limit : Option Nat} {ids : Option (List Uuid)}

/-- What is fetched of a requested entity are its versions in the order of their counts. -/
theorem filter_versionsOf (tables : EntityTables E) (ids : Option (List Uuid)) (id : Uuid) :
    (tables.versionsOf ids).filter (fun version => Entity.id version = id) =
      if Requested ids id then (tables.lineage id).orderBy fun version => (Entity.count version).val
      else [] := by
  obtain ⟨entities, hentities⟩ : ∃ entities, entities = tables.versions.rows.map VersionRow.entity :=
    ⟨_, rfl⟩
  have hlineage : entities.filter (fun version => Entity.id version = id) = tables.lineage id := by
    rw [hentities, EntityTables.lineage, List.filter_map]
    rfl
  have hshare : (entities.filter fun version => ids.all fun list => Entity.id version ∈ list).filter
      (fun version => Entity.id version = id) =
        if Requested ids id then tables.lineage id else [] := by
    rw [List.filter_filter, ← hlineage]
    split
    next hrequested =>
      refine List.filter_congr fun version _ => ?_
      rw [Bool.and_eq_left_iff_imp, decide_eq_true_eq]
      rintro rfl
      cases ids with
      | none => rfl
      | some list => exact decide_eq_true (hrequested list rfl)
    next hrefused =>
      rw [List.filter_eq_nil_iff]
      rintro version - hversion
      rw [Bool.and_eq_true, decide_eq_true_eq] at hversion
      obtain ⟨rfl, hall⟩ := hversion
      refine hrefused fun list hlist => ?_
      rw [Option.mem_def.mp hlist] at hall
      exact of_decide_eq_true hall
  rw [EntityTables.versionsOf, ← hentities,
    List.filter_orderBy_of_const fun a b ha hb =>
      (of_decide_eq_true ha).trans (of_decide_eq_true hb).symm,
    List.filter_orderBy, hshare]
  · split <;> rfl
  · -- the primary key of the versions
    intro a ha b hb hcount
    rw [hshare] at ha hb
    split at ha
    next hrequested =>
      rw [if_pos hrequested] at hb
      obtain ⟨row, hrow, rfl, hid⟩ := EntityTables.mem_lineage.mp ha
      obtain ⟨other, hother, rfl, hotherId⟩ := EntityTables.mem_lineage.mp hb
      rw [Table.eq_of_conflict hrow hother
        ⟨hid.trans hotherId.symm, NonNegativeI64.ext_iff.mpr hcount⟩]
    next => cases ha

theorem mem_versionsOf {version : E} : version ∈ tables.versionsOf ids ↔
    Requested ids (Entity.id version) ∧ ∃ row ∈ tables.versions, row.entity = version := by
  have hshare := filter_versionsOf tables ids (Entity.id version)
  have hmem : version ∈ tables.versionsOf ids ↔ version ∈ (tables.versionsOf ids).filter
      (fun other => Entity.id other = Entity.id version) := by
    rw [List.mem_filter, decide_eq_true_eq]
    exact (and_iff_left rfl).symm
  rw [hmem, hshare]
  split
  next hrequested =>
    rw [List.mem_orderBy, EntityTables.mem_lineage]
    simp [hrequested]
  next hrefused => simp [hrefused]

/-- Only which ids are listed matters. -/
theorem versionsOf_congr {list other : List Uuid} (h : ∀ id, id ∈ list ↔ id ∈ other) :
    tables.versionsOf (some list) = tables.versionsOf (some other) := by
  simp only [EntityTables.versionsOf, Option.all_some, h]

theorem bindable_dedup {list : List Uuid} (h : Bindable (some list)) : Bindable (some list.dedup) := by
  rintro _ ⟨⟩
  exact (List.dedup_sublist list).length_le.trans (h list rfl)

variable [Blake3]

theorem fromRows_eq_ok_iff {rows decoded : List E} : fromRows rows = .ok decoded ↔
    List.Forall₂ (fun row entity => Stored.fromRow row = .ok entity) rows decoded := by
  rw [fromRows, Except.mapM_eq_ok_iff]
  simp only [Except.mapError_eq_ok_iff]

theorem fromRows_filter {rows decoded : List E} (h : fromRows rows = .ok decoded) (id : Uuid) :
    fromRows (rows.filter fun version => Entity.id version = id) =
      .ok (decoded.filter fun version => Entity.id version = id) := by
  refine fromRows_eq_ok_iff.mpr (List.rel_filter ?_ (fromRows_eq_ok_iff.mp h))
  intro row entity hrow
  dsimp only
  rw [(Stored.fromRow_ok hrow).1]

theorem fromRows_limited {rows decoded : List E} (h : fromRows rows = .ok decoded) (limit : Option Nat) :
    fromRows (limited limit rows) = .ok (limited limit decoded) := by
  cases limit with
  | none => exact h
  | some limit => exact fromRows_eq_ok_iff.mpr (List.forall₂_take limit (fromRows_eq_ok_iff.mp h))

theorem readable_of_mem_fromRows {rows decoded : List E} (h : fromRows rows = .ok decoded) {row : E}
    (hrow : row ∈ rows) : Readable row := by
  have hrows := fromRows_eq_ok_iff.mp h
  clear h
  induction hrows with
  | nil => cases hrow
  | cons hfirst _ ih =>
      rcases List.mem_cons.mp hrow with rfl | hrest
      · exact ⟨_, hfirst⟩
      · exact ih hrest

/-! ### The two reads side by side -/

theorem bindable_of_allHistories {histories : Std.TreeMap Uuid (List E)}
    (h : tables.allHistories limit ids = .ok histories) : Bindable ids := by
  by_contra hids
  rw [EntityTables.allHistories, EntityTables.selectVersions, if_neg hids] at h
  cases h

theorem allHistories_congr {list other : List Uuid} (h : ∀ id, id ∈ list ↔ id ∈ other)
    (hlist : Bindable (some list)) (hother : Bindable (some other)) :
    tables.allHistories limit (some list) = tables.allHistories limit (some other) := by
  rw [allHistories_of_bindable hlist, allHistories_of_bindable hother, versionsOf_congr h]

/-- The two reads agree as long as the ids can be bound and what is fetched can be read, and otherwise the
bulk read fails. -/
theorem historiesAgree_iff (hlive : ∀ row ∈ tables.live, tables.lineage (Entity.id row.entity) ≠ [])
    (limit : Option Nat) (ids : Option (List Uuid)) :
    HistoriesAgree tables ids (tables.allHistories limit) (fun id => tables.history id limit) ↔
      Bindable ids ∧ ∀ row ∈ tables.versions, Requested ids (Entity.id row.entity) → Readable row.entity := by
  constructor
  · rintro ⟨histories, hbulk, -⟩
    have hbindable := bindable_of_allHistories hbulk
    refine ⟨hbindable, fun row hrow hrequested => ?_⟩
    rw [allHistories_of_bindable hbindable, Except.map_eq_ok_iff] at hbulk
    obtain ⟨decoded, hdecoded, -⟩ := hbulk
    exact readable_of_mem_fromRows hdecoded (mem_versionsOf.mpr ⟨hrequested, row, hrow, rfl⟩)
  · rintro ⟨hbindable, hreadable⟩
    obtain ⟨decoded, hdecoded⟩ : ∃ decoded, fromRows (tables.versionsOf ids) = .ok decoded := by
      refine exists_fromRows fun version hversion => ?_
      obtain ⟨hrequested, row, hrow, rfl⟩ := mem_versionsOf.mp hversion
      exact hreadable row hrow hrequested
    have hbulk : tables.allHistories limit ids = .ok (decoded.foldl (groupVersion limit) ∅) := by
      rw [allHistories_of_bindable hbindable, hdecoded]
      rfl
    have hids : ∀ id, id ∈ decoded.map Entity.id ↔ Requested ids id ∧ tables.lineage id ≠ [] := by
      intro id
      rw [map_eq_of_fromRows (f := Entity.id) (g := Entity.id) (fun hrow => (Stored.fromRow_ok hrow).1)
        hdecoded, List.mem_map]
      constructor
      · rintro ⟨version, hversion, rfl⟩
        obtain ⟨hrequested, row, hrow, rfl⟩ := mem_versionsOf.mp hversion
        exact ⟨hrequested, List.ne_nil_of_mem (EntityTables.mem_lineage.mpr ⟨row, hrow, rfl, rfl⟩)⟩
      · rintro ⟨hrequested, hversions⟩
        obtain ⟨version, hversion⟩ := List.exists_mem_of_ne_nil _ hversions
        obtain ⟨row, hrow, rfl, rfl⟩ := EntityTables.mem_lineage.mp hversion
        exact ⟨_, mem_versionsOf.mpr ⟨hrequested, row, hrow, rfl⟩, rfl⟩
    have hmem : ∀ id, id ∈ decoded.foldl (groupVersion limit) ∅ ↔
        Requested ids id ∧ tables.lineage id ≠ [] := by
      intro id
      rw [← hids, Std.TreeMap.mem_iff_isSome_getElem?, getElem?_foldl_groupVersion]
      split
      next hmem => exact iff_of_true rfl hmem
      next hnot => exact iff_of_false Bool.false_ne_true hnot
    refine ⟨_, hbulk, fun id hrequested hversions => ?_, fun id hid => (hmem id).mp hid, ?_, ?_⟩
    · refine ⟨_, ?_, (getElem?_foldl_groupVersion limit decoded id).trans
        (if_pos ((hids id).mpr ⟨hrequested, hversions⟩))⟩
      have hshare := fromRows_filter hdecoded id
      rw [filter_versionsOf, if_pos hrequested] at hshare
      exact fromRows_limited hshare limit
    · rintro rfl row hrow
      exact (hmem _).mpr ⟨fun _ h => absurd h (Option.not_mem_none _), hlive row hrow⟩
    · rintro list rfl
      rw [← hbulk]
      exact allHistories_congr (fun _ => List.mem_dedup) (bindable_dedup hbindable) hbindable

/-! ### What is live has versions -/

def Versioned (tables : EntityTables E) : Prop :=
  ∀ row ∈ tables.live, tables.lineage (Entity.id row.entity) ≠ []

theorem Versioned.pushed {store : Store} {before after : EntityTables E} {versions : List E}
    {first latest : E} (hbefore : Versioned before)
    (h : Pushed store before versions first latest after) : Versioned after := by
  intro row hrow
  rw [h.lineage]
  rcases h.mem_live.mp hrow with ⟨hold, -⟩ | rfl
  · exact List.append_ne_nil_of_left_ne_nil (hbefore row hold) _
  · apply List.append_ne_nil_of_right_ne_nil
    exact List.ne_nil_of_mem (List.mem_filter.mpr ⟨h.latest_mem, decide_eq_true rfl⟩)

omit [Blake3] in
theorem Versioned.remove (h : Versioned tables) (id : Uuid) : Versioned (tables.remove id) := by
  intro row hrow
  obtain ⟨hold, hid⟩ := EntityTables.mem_live_remove.mp hrow
  rw [EntityTables.lineage_remove, if_neg hid]
  exact h row hold

omit [Blake3] in
theorem Versioned.stampAll (h : Versioned tables) (affected : List Uuid) (sequence : Nat) :
    Versioned (tables.stampAll affected sequence) := by
  intro row hrow
  obtain ⟨old, hold, rfl⟩ := EntityTables.mem_live_stampAll.mp hrow
  rw [EntityTables.lineage_stampAll]
  split <;> exact h old hold

end

section

variable [Blake3]

theorem versioned_execute {store : Store} (hinv : Versioned store.cards ∧ Versioned store.tags)
    (call : Call) : Versioned (execute store call).cards ∧ Versioned (execute store call).tags := by
  refine execute_preserves (fun state => Versioned state.cards ∧ Versioned state.tags) hinv
    (fun before item after _ hbefore h => ?_) fun written after hcommitted hwritten => ?_
  · rcases pushItem_cases h with ⟨_, _, _, _, rfl, hpushed, rfl⟩ | ⟨_, _, _, _, rfl, hpushed, rfl⟩ |
      ⟨_, rfl, -, -, rfl⟩ | ⟨_, rfl, -, -, -, -, rfl⟩
    · exact ⟨hbefore.1.pushed hpushed, hbefore.2⟩
    · exact ⟨hbefore.1, hbefore.2.pushed hpushed⟩
    · exact ⟨hbefore.1.remove _, hbefore.2⟩
    · exact ⟨hbefore.1, hbefore.2.remove _⟩
  · rw [hcommitted.cards_eq, hcommitted.tags_eq]
    exact ⟨hwritten.1.stampAll _ _, hwritten.2.stampAll _ _⟩

/-- **Bulk and single history reads** agree for cards, in every reachable store, exactly when one statement can
bind all listed ids. For tags all versions of the requested tags also have to verify without the repetitions in what
they imply. Which ids are listed is then all that matters. -/
theorem historiesAgree_run (calls : List Call) (limit : Option Nat) :
    let store := Run.after execute initSchema calls
    (∀ cardIds, HistoriesAgree store.cards cardIds (getAllCardHistories store limit)
        (fun id => getCardHistory store id limit) ↔ Bindable cardIds) ∧
      (∀ tagIds, HistoriesAgree store.tags tagIds (getAllTagHistories store limit)
          (fun id => getTagHistory store id limit) ↔
        Bindable tagIds ∧ ∀ row ∈ store.tags.versions, Requested tagIds row.entity.id →
          Entity.verify row.entity.normalized = true) ∧
      ∀ list other : List Uuid, (∀ id, id ∈ list ↔ id ∈ other) → Bindable (some list) → Bindable (some other) →
        getAllCardHistories store limit (some list) = getAllCardHistories store limit (some other) ∧
          getAllTagHistories store limit (some list) = getAllTagHistories store limit (some other) := by
  have hversioned : Versioned (Run.after execute initSchema calls).cards ∧
      Versioned (Run.after execute initSchema calls).tags :=
    Run.invariant (fun store : Store => Versioned store.cards ∧ Versioned store.tags)
      ⟨fun row hrow => absurd hrow (Table.not_mem_empty row),
        fun row hrow => absurd hrow (Table.not_mem_empty row)⟩
      (fun _ call hinv => versioned_execute hinv call) calls
  have hcards : StoredAll Readable (Run.after execute initSchema calls).cards :=
    Run.invariant (fun store : Store => StoredAll Readable store.cards) .empty
      (fun _ call hinv => readable_cards_execute hinv call) calls
  refine ⟨fun cardIds => ?_, fun tagIds => ?_, fun list other h hlist hother => ⟨?_, ?_⟩⟩
  · refine (historiesAgree_iff hversioned.1 limit cardIds).trans (and_iff_left ?_)
    exact fun row hrow _ => hcards.versions row hrow
  · refine (historiesAgree_iff hversioned.2 limit tagIds).trans ?_
    simp only [readable_tag_iff, Tag.entity_id]
  · exact allHistories_congr h hlist hother
  · exact allHistories_congr h hlist hother

end

/-- The bulk read of all tags fails on the one that names its parent twice, and the history of the other
tag can be read. -/
theorem not_historiesAgree_doubledTag :
    let _ := polynomialBlake3
    let store := Run.after execute initSchema
      [⟨.pushTagVersions [sampleTag 2 []], 0⟩, ⟨.pushTagVersions [doubledTag], 1⟩]
    ¬ HistoriesAgree store.tags none (getAllTagHistories store none)
        (fun id => getTagHistory store id none) ∧
      (getTagHistory store 2 none).toOption = some [sampleTag 2 []] := by
  intro _ store
  constructor
  · rintro ⟨histories, hbulk, -⟩
    have hnone : (getAllTagHistories store none none).toOption.isSome = false := by decide +kernel
    rw [hbulk] at hnone
    cases hnone
  · decide +kernel

end BlazeList
