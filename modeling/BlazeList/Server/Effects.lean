import BlazeList.Lib.Overlay
import BlazeList.Server.Write

/-!
# What a write changes

The effect of a push, a removal and a stamp on the rows of a pair of tables, on the current entity of
each id and on its line of versions.
-/

namespace BlazeList

variable {E : Type} [Stored E] {id : Uuid}

/-! ### A push -/

namespace Pushed

variable [Blake3] {store : Store} {before after : EntityTables E} {versions : List E}
  {first latest : E}

theorem mem_live (h : Pushed store before versions first latest after) {row : EntityRow E} :
    row ∈ after.live ↔
      row ∈ before.live ∧ Entity.id row.entity ≠ Entity.id latest ∨
        row = ⟨latest, 0, bucketOf (Entity.id latest)⟩ := by
  rw [h.live_eq, Table.mem_replace, liveConflict, not_or]
  constructor
  · rintro (⟨hrow, hid, -⟩ | hrow)
    · exact .inl ⟨hrow, hid⟩
    · exact .inr hrow
  · rintro (⟨hrow, hid⟩ | hrow)
    · exact .inl ⟨hrow, hid, fun hclash => hid (h.unclashed row hrow hclash)⟩
    · exact .inr hrow

theorem mem_versions (h : Pushed store before versions first latest after) {row : VersionRow E} :
    row ∈ after.versions ↔ row ∈ before.versions ∨ ∃ v ∈ versions, row = ⟨v, 0⟩ := by
  simp only [Table.mem_def, h.versions_rows, List.mem_append, List.mem_map, eq_comm]

theorem first_mem (h : Pushed store before versions first latest after) : first ∈ versions :=
  List.mem_of_head? h.head

theorem latest_mem (h : Pushed store before versions first latest after) : latest ∈ versions :=
  List.mem_of_getLast? h.last

theorem current (h : Pushed store before versions first latest after) :
    after.current = Function.update before.current (Entity.id latest) (some latest) := by
  funext x
  by_cases hx : x = Entity.id latest
  · subst hx
    rw [Function.update_self, EntityTables.current_eq_some_iff]
    exact ⟨_, h.mem_live.mpr (.inr rfl), rfl, rfl⟩
  · rw [Function.update_of_ne hx]
    ext entity
    simp only [EntityTables.current_eq_some_iff, h.mem_live]
    constructor
    · rintro ⟨row, ⟨hrow, -⟩ | rfl, rfl, hid⟩
      · exact ⟨row, hrow, rfl, hid⟩
      · exact absurd hid.symm hx
    · rintro ⟨row, hrow, rfl, hid⟩
      exact ⟨row, .inl ⟨hrow, fun heq => hx (hid.symm.trans heq)⟩, rfl, hid⟩

theorem lineage (h : Pushed store before versions first latest after) :
    after.lineage id = before.lineage id ++ versions.filter fun v => Entity.id v = id := by
  simp [EntityTables.lineage, h.versions_rows, List.filter_map, Function.comp_def]

end Pushed

namespace EntityTables

variable {tables : EntityTables E} {x : Uuid}

/-! ### A removal -/

theorem mem_live_remove {row : EntityRow E} :
    row ∈ (tables.remove id).live ↔ row ∈ tables.live ∧ Entity.id row.entity ≠ id := by
  simp [remove, Table.mem_delete]

theorem mem_versions_remove {row : VersionRow E} :
    row ∈ (tables.remove id).versions ↔ row ∈ tables.versions ∧ Entity.id row.entity ≠ id := by
  simp [remove, Table.mem_delete]

theorem current_remove : (tables.remove id).current = Function.update tables.current id none := by
  funext x
  by_cases hx : x = id
  · subst hx
    rw [Function.update_self, current_eq_none_iff]
    exact fun row hrow => (mem_live_remove.mp hrow).2
  · rw [Function.update_of_ne hx]
    ext entity
    simp only [current_eq_some_iff, mem_live_remove]
    constructor
    · rintro ⟨row, ⟨hrow, -⟩, rfl, hid⟩
      exact ⟨row, hrow, rfl, hid⟩
    · rintro ⟨row, hrow, rfl, hid⟩
      exact ⟨row, ⟨hrow, fun heq => hx (hid.symm.trans heq)⟩, rfl, hid⟩

theorem lineage_remove : (tables.remove id).lineage x = if x = id then [] else tables.lineage x := by
  simp only [lineage, remove, Table.rows_delete, List.filter_filter]
  split
  · rename_i hx
    subst hx
    simp
  · rename_i hx
    congr 1
    refine List.filter_congr fun row _ => ?_
    by_cases hid : Entity.id row.entity = x
    · simp [hid, hx]
    · simp [hid]

/-! ### A stamp -/

variable {sequence : Nat}

theorem mem_live_stamp {row : EntityRow E} :
    row ∈ (tables.stamp id sequence).live ↔ ∃ old ∈ tables.live, old.stamp id sequence = row := by
  simp only [stamp, Table.mem_update]

theorem mem_versions_stamp {row : VersionRow E} :
    row ∈ (tables.stamp id sequence).versions ↔
      ∃ old ∈ tables.versions, old.stamp id sequence = row := by
  simp only [stamp, Table.mem_update]

theorem current_stamp : (tables.stamp id sequence).current = tables.current := by
  funext x
  ext entity
  simp only [current_eq_some_iff, mem_live_stamp]
  constructor
  · rintro ⟨_, ⟨old, hold, rfl⟩, rfl, hid⟩
    exact ⟨old, hold, (old.stamp_entity id sequence).symm, hid⟩
  · rintro ⟨row, hrow, rfl, hid⟩
    exact ⟨_, ⟨row, hrow, rfl⟩, row.stamp_entity id sequence, hid⟩

theorem lineage_stamp : (tables.stamp id sequence).lineage x = tables.lineage x := by
  simp [lineage, stamp, List.filter_map, Function.comp_def]

end EntityTables

/-! ### The writes of an item

Only the last version of a chain stays as the current one. -/

def chainWrites (versions : List E) : List (Uuid × Option E) :=
  versions.getLast?.toList.map fun latest => (Entity.id latest, some latest)

def PushItem.cardWrites : PushItem → List (Uuid × Option Card)
  | .cards versions => chainWrites versions
  | .deleteCard id => [(id, none)]
  | .tags _ | .deleteTag _ => []

def PushItem.tagWrites : PushItem → List (Uuid × Option Tag)
  | .tags versions => chainWrites versions
  | .deleteTag id => [(id, none)]
  | .cards _ | .deleteCard _ => []

theorem Pushed.current_eq_applyAll [Blake3] {store : Store} {before after : EntityTables E}
    {versions : List E} {first latest : E} (h : Pushed store before versions first latest after) :
    after.current = Overlay.applyAll before.current (chainWrites versions) := by
  rw [h.current, chainWrites, h.last]
  rfl

end BlazeList
