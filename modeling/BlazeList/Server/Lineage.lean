import BlazeList.Server.Merkle
import Mathlib.Data.List.Chain

/-!
# Lines of versions

In runs whose chains carry a single id each, the versions of an entity form one line, in the order they
were accepted: from the zero hash, each one naming the hash of the one before, to the current entity.
-/

namespace BlazeList

section Tables

variable {E : Type} [Stored E]

structure LineageInvariant (tables : EntityTables E) : Prop where
  last : ∀ id, (tables.lineage id).getLast? = tables.current id
  linked : ∀ id, (tables.lineage id).IsChain Linked
  head : ∀ id, ∀ first ∈ (tables.lineage id).head?, Entity.ancestorHash first = zeroHash

theorem LineageInvariant.empty : LineageInvariant (EntityTables.empty : EntityTables E) where
  last id := by simp
  linked id := by simp
  head id := by simp

theorem LineageInvariant.remove {tables : EntityTables E} (hinv : LineageInvariant tables)
    (id : Uuid) : LineageInvariant (tables.remove id) := by
  refine ⟨fun x => ?_, fun x => ?_, fun x => ?_⟩
  all_goals
    rw [EntityTables.lineage_remove]
    by_cases hx : x = id
  · simp [hx, EntityTables.current_remove]
  · simp [hx, EntityTables.current_remove, hinv.last]
  · simp [hx]
  · simpa [hx] using hinv.linked x
  · simp [hx]
  · simpa [hx] using hinv.head x

theorem LineageInvariant.stampAll {tables : EntityTables E} (hinv : LineageInvariant tables)
    (ids : List Uuid) (sequence : Nat) : LineageInvariant (tables.stampAll ids sequence) := by
  refine ⟨fun id => ?_, fun id => ?_, fun id => ?_⟩
  · rw [EntityTables.lineage_stampAll, EntityTables.current_stampAll]
    exact hinv.last id
  · rw [EntityTables.lineage_stampAll]
    exact hinv.linked id
  · rw [EntityTables.lineage_stampAll]
    exact hinv.head id

variable [Blake3] {store : Store} {before after : EntityTables E} {versions : List E}
  {first latest : E}

/-- A chain of one entity is appended to its line, and to no other. -/
theorem Pushed.lineage_of_singleId (h : Pushed store before versions first latest after)
    (hsingle : SingleId versions) (id : Uuid) :
    after.lineage id =
      if id = Entity.id first then before.lineage id ++ versions else before.lineage id := by
  rw [h.lineage]
  split
  · rename_i hid
    rw [List.filter_eq_self.mpr]
    intro v hv
    simpa [hid] using hsingle v hv first h.first_mem
  · rename_i hid
    rw [List.filter_eq_nil_iff.mpr, List.append_nil]
    intro v hv heq
    exact hid ((of_decide_eq_true heq).symm.trans (hsingle v hv first h.first_mem))

theorem Pushed.lineageInvariant (h : Pushed store before versions first latest after)
    (hsingle : SingleId versions) (hinv : LineageInvariant before) : LineageInvariant after := by
  have hlatest : Entity.id latest = Entity.id first := hsingle latest h.latest_mem first h.first_mem
  refine ⟨fun id => ?_, fun id => ?_, fun id => ?_⟩
  all_goals
    rw [h.lineage_of_singleId hsingle]
    by_cases hid : id = Entity.id first
  · rw [if_pos hid, List.getLast?_append, h.last, h.current, hlatest, hid, Function.update_self]
    rfl
  · rw [if_neg hid, h.current, hlatest, Function.update_of_ne hid]
    exact hinv.last id
  · rw [if_pos hid, List.isChain_append]
    refine ⟨hinv.linked id, h.linked, fun x hx y hy => ?_⟩
    obtain rfl : first = y := Option.some.inj (h.head.symm.trans hy)
    have hcurrent : before.current (Entity.id first) = some x := by
      rw [← hid, ← hinv.last]
      exact hx
    have hancestor := h.ancestor
    rw [hcurrent] at hancestor
    exact hancestor
  · rw [if_neg hid]
    exact hinv.linked id
  · rw [if_pos hid]
    intro head hhead
    cases hbefore : before.lineage id with
    | nil =>
        have hcurrent : before.current (Entity.id first) = none := by
          rw [← hid, ← hinv.last, hbefore, List.getLast?_nil]
        rw [hbefore, List.nil_append, h.head] at hhead
        obtain rfl : first = head := Option.some.inj hhead
        have hancestor := h.ancestor
        rw [hcurrent] at hancestor
        exact hancestor
    | cons oldest rest =>
        rw [hbefore] at hhead
        exact hinv.head id head (by rw [hbefore]; exact hhead)
  · rw [if_neg hid]
    exact hinv.head id

end Tables

structure LineagesInvariant (store : Store) : Prop where
  cards : LineageInvariant store.cards
  tags : LineageInvariant store.tags

theorem lineagesInvariant_initSchema : LineagesInvariant initSchema := ⟨.empty, .empty⟩

variable [Blake3]

theorem LineagesInvariant.pushItem {store after : Store} {item : PushItem}
    (hinv : LineagesInvariant store) (hsingle : item.SingleId)
    (h : pushItem store item = .ok after) : LineagesInvariant after := by
  rcases pushItem_cases h with ⟨_, _, _, _, rfl, hpushed, rfl⟩ | ⟨_, _, _, _, rfl, hpushed, rfl⟩ |
    ⟨_, rfl, -, -, rfl⟩ | ⟨_, rfl, -, -, -, -, rfl⟩
  · exact ⟨hpushed.lineageInvariant hsingle hinv.cards, hinv.tags⟩
  · exact ⟨hinv.cards, hpushed.lineageInvariant hsingle hinv.tags⟩
  · exact ⟨hinv.cards.remove _, hinv.tags⟩
  · exact ⟨hinv.cards, hinv.tags.remove _⟩

theorem LineagesInvariant.execute {store : Store} {call : Call} (hinv : LineagesInvariant store)
    (hsingle : call.SingleId) : LineagesInvariant (execute store call) := by
  refine execute_preserves LineagesInvariant hinv
    (fun _ item _ hitem hbefore => hbefore.pushItem (hsingle item hitem))
    fun written after hcommitted hwritten => ⟨?_, ?_⟩
  · rw [hcommitted.cards_eq]
    exact hwritten.cards.stampAll _ _
  · rw [hcommitted.tags_eq]
    exact hwritten.tags.stampAll _ _

end BlazeList
