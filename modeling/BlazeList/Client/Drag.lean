import BlazeList.Client.Extremes
import Mathlib.Order.Interval.Finset.Basic
import Mathlib.Data.Int.Interval

/-!
# Dropping a dragged card

A drag ends on an edge of a card of the list. The position of the drop is one in the list without the
dragged card, which is where `move_card` looks for a place: the card lands on the edge it was shown on.
-/

namespace BlazeList

inductive DropEdge where
  | above
  | below
  deriving DecidableEq

/-- Where to insert the card `sourceId` when it is dropped on `edge` of `targetId`. -/
def dropPosition (filtered : List Card) (sourceId targetId : Uuid) (edge : DropEdge) :
    Option InsertPosition :=
  if sourceId = targetId then
    none
  else do
    let srcIdx ← filtered.findIdx? fun card => card.id = sourceId
    let tgtIdx ← filtered.findIdx? fun card => card.id = targetId
    let base := if tgtIdx > srcIdx then tgtIdx - 1 else tgtIdx
    let pos := match edge with
      | .above => base
      | .below => base + 1
    if pos = srcIdx then none else some (.at pos)

/-! ### What is to hold -/

def Occupies (ids : List Uuid) (sourceId targetId : Uuid) : DropEdge → Prop
  | .above => ids.idxOf sourceId + 1 = ids.idxOf targetId
  | .below => ids.idxOf targetId + 1 = ids.idxOf sourceId

def DropEdge.beside (edge : DropEdge) (sourceId targetId : Uuid) : List Uuid :=
  match edge with
  | .above => [sourceId, targetId]
  | .below => [targetId, sourceId]

/-- The source is taken out and put back at the edge of the target. -/
def reinserted (ids : List Uuid) (sourceId targetId : Uuid) (edge : DropEdge) : List Uuid :=
  (ids.filter (· ≠ sourceId)).flatMap fun id =>
    if id = targetId then edge.beside sourceId targetId else [id]

/-! ### Positions -/

section

variable {ids : List Uuid} {sourceId targetId : Uuid}

def baseIndex (ids : List Uuid) (sourceId targetId : Uuid) : Nat :=
  if ids.idxOf targetId > ids.idxOf sourceId then ids.idxOf targetId - 1 else ids.idxOf targetId

def dropIndex (ids : List Uuid) (sourceId targetId : Uuid) : DropEdge → Nat
  | .above => baseIndex ids sourceId targetId
  | .below => baseIndex ids sourceId targetId + 1

theorem findIdx?_id (cards : List Card) (id : Uuid) :
    cards.findIdx? (fun card => card.id = id) =
      if id ∈ cards.map Card.id then some ((cards.map Card.id).idxOf id) else none := by
  have hmap : cards.findIdx? (fun card => card.id = id) = (cards.map Card.id).idxOf? id := by
    rw [List.idxOf?, List.findIdx?_map]
    rfl
  rw [hmap]
  split
  · rename_i hmem
    obtain ⟨index, hindex⟩ := Option.isSome_iff_exists.mp (List.isSome_idxOf?.mpr hmem)
    rw [hindex, (List.findIdx?_eq_some_iff_findIdx_eq.mp hindex).2.symm]
    rfl
  · rename_i hmem
    exact List.idxOf?_eq_none_iff.mpr hmem

theorem dropPosition_eq (filtered : List Card) (sourceId targetId : Uuid) (edge : DropEdge) :
    dropPosition filtered sourceId targetId edge =
      if sourceId ≠ targetId ∧ sourceId ∈ filtered.map Card.id ∧ targetId ∈ filtered.map Card.id ∧
          dropIndex (filtered.map Card.id) sourceId targetId edge ≠
            (filtered.map Card.id).idxOf sourceId then
        some (.at (dropIndex (filtered.map Card.id) sourceId targetId edge))
      else
        none := by
  rw [dropPosition, findIdx?_id, findIdx?_id]
  by_cases hsame : sourceId = targetId
  · simp [hsame]
  by_cases hsource : sourceId ∈ filtered.map Card.id
  · by_cases htarget : targetId ∈ filtered.map Card.id
    · rw [if_neg hsame, if_pos hsource, if_pos htarget]
      simp only [ne_eq, hsame, hsource, htarget, not_false_eq_true, true_and]
      by_cases hmoves : dropIndex (filtered.map Card.id) sourceId targetId edge =
          (filtered.map Card.id).idxOf sourceId
      · rw [if_neg (not_not.mpr hmoves)]
        cases edge <;> exact if_pos hmoves
      · rw [if_pos hmoves]
        cases edge <;> exact if_neg hmoves
    · simp [htarget, Option.bind_eq_bind]
  · simp [hsource]

theorem idxOf_injective (htarget : targetId ∈ ids) (hne : sourceId ≠ targetId) :
    ids.idxOf sourceId ≠ ids.idxOf targetId := by
  intro heq
  apply hne
  have hlt : ids.idxOf targetId < ids.length := List.idxOf_lt_length_of_mem htarget
  have hget := List.getElem_idxOf hlt
  rw [← hget]
  have hsource := List.getElem_idxOf (heq ▸ hlt : ids.idxOf sourceId < ids.length)
  simp only [heq] at hsource
  exact hsource.symm

/-- The drop goes to the source's own place when it lies at the edge already. -/
theorem dropIndex_eq_iff (htarget : targetId ∈ ids) (hne : sourceId ≠ targetId) (edge : DropEdge) :
    dropIndex ids sourceId targetId edge = ids.idxOf sourceId ↔ Occupies ids sourceId targetId edge := by
  have hapart := idxOf_injective htarget hne
  cases edge <;> simp only [dropIndex, baseIndex, Occupies] <;> split <;> omega

/-- Without the source the target is at the base index. -/
theorem filter_ne_eq (hnodup : ids.Nodup) (hsource : sourceId ∈ ids) (htarget : targetId ∈ ids)
    (hne : sourceId ≠ targetId) :
    ∃ front back, ids.filter (· ≠ sourceId) = front ++ targetId :: back ∧
      front.length = baseIndex ids sourceId targetId := by
  obtain ⟨before, after, rfl⟩ := List.append_of_mem hsource
  obtain ⟨hbefore, hafter⟩ : sourceId ∉ before ∧ sourceId ∉ after := by
    rw [List.nodup_append', List.nodup_cons] at hnodup
    exact ⟨fun hmem => hnodup.2.2 hmem List.mem_cons_self, hnodup.2.1.1⟩
  have hkeep : ∀ part : List Uuid, sourceId ∉ part → part.filter (· ≠ sourceId) = part :=
    fun part hpart => List.filter_eq_self.mpr fun id hid =>
      decide_eq_true fun heq : id = sourceId => hpart (heq ▸ hid)
  have hfilter : (before ++ sourceId :: after).filter (· ≠ sourceId) = before ++ after := by
    rw [List.filter_append, List.filter_cons_of_neg (by simp), hkeep before hbefore,
      hkeep after hafter]
  have hsourceIdx : (before ++ sourceId :: after).idxOf sourceId = before.length := by
    rw [List.idxOf_append, if_neg hbefore, List.idxOf_cons_self, Nat.zero_add]
  rw [hfilter, baseIndex, hsourceIdx]
  rcases List.mem_append.mp htarget with hmem | hmem
  · obtain ⟨front, back, rfl⟩ := List.append_of_mem hmem
    have hfront : targetId ∉ front := by
      rw [List.append_assoc, List.nodup_append'] at hnodup
      exact fun hin => hnodup.2.2 hin (by simp)
    have htargetIdx : (front ++ targetId :: back ++ sourceId :: after).idxOf targetId =
        front.length := by
      rw [List.append_assoc, List.idxOf_append, if_neg hfront, List.cons_append,
        List.idxOf_cons_self, Nat.zero_add]
    refine ⟨front, back ++ after, by rw [List.append_assoc, List.cons_append], ?_⟩
    rw [htargetIdx, if_neg (by simp)]
  · obtain ⟨front, back, rfl⟩ :=
      List.append_of_mem ((List.mem_cons.mp hmem).resolve_left (Ne.symm hne))
    have hbeforeTarget : targetId ∉ before ++ sourceId :: front := by
      have hassoc : before ++ sourceId :: (front ++ targetId :: back) =
          before ++ sourceId :: front ++ targetId :: back := by simp
      rw [hassoc, List.nodup_append'] at hnodup
      exact fun hin => hnodup.2.2 hin List.mem_cons_self
    have htargetIdx : (before ++ sourceId :: (front ++ targetId :: back)).idxOf targetId =
        before.length + 1 + front.length := by
      have hassoc : before ++ sourceId :: (front ++ targetId :: back) =
          before ++ sourceId :: front ++ targetId :: back := by simp
      rw [hassoc, List.idxOf_append, if_neg hbeforeTarget, List.idxOf_cons_self, Nat.zero_add,
        List.length_append, List.length_cons]
      omega
    refine ⟨before ++ front, back, by rw [List.append_assoc], ?_⟩
    rw [htargetIdx, if_pos (by omega), List.length_append]
    omega

/-- Inserting at the drop index is putting the source at the edge of the target. -/
theorem insert_dropIndex (hnodup : ids.Nodup) (hsource : sourceId ∈ ids) (htarget : targetId ∈ ids)
    (hne : sourceId ≠ targetId) (edge : DropEdge) :
    let others := ids.filter (· ≠ sourceId)
    others.take (dropIndex ids sourceId targetId edge) ++
        sourceId :: others.drop (dropIndex ids sourceId targetId edge) =
      reinserted ids sourceId targetId edge := by
  intro others
  obtain ⟨front, back, hothers, hlength⟩ := filter_ne_eq hnodup hsource htarget hne
  have hsplit : (front ++ targetId :: back).Nodup := hothers ▸ hnodup.filter _
  rw [List.nodup_append', List.nodup_cons] at hsplit
  have hself : ∀ part : List Uuid, targetId ∉ part →
      (part.flatMap fun id => if id = targetId then edge.beside sourceId targetId else [id]) =
        part := by
    intro part hpart
    calc (part.flatMap fun id => if id = targetId then edge.beside sourceId targetId else [id])
        = part.flatMap fun id => [id] := List.flatMap_congr fun id hid =>
          if_neg fun heq : id = targetId => hpart (heq ▸ hid)
      _ = part := List.flatMap_singleton' part
  have hfront := hself front fun hmem => hsplit.2.2 hmem List.mem_cons_self
  have hback := hself back hsplit.2.1.1
  rw [reinserted, hothers, List.flatMap_append, List.flatMap_cons, hfront, hback, if_pos rfl]
  change others = _ at hothers
  rw [hothers]
  cases edge with
  | above =>
      rw [dropIndex, ← hlength, List.take_left, List.drop_left]
      rfl
  | below =>
      rw [dropIndex, ← hlength, List.take_length_add_append, List.drop_length_add_append]
      simp [DropEdge.beside]

end

/-! ### The drop -/

/-- There are only so many priorities strictly inside the range. -/
theorem Ordered.length_le {cards : List Card} (hordered : Ordered cards) :
    cards.length ≤ 2 ^ 64 - 2 := by
  have hnodup : (cards.map fun card => card.priority.val).Nodup :=
    List.pairwise_map.mpr (hordered.sorted.imp fun hlt => hlt.ne')
  have hsub : (cards.map fun card => card.priority.val).toFinset ⊆ Finset.Ioo i64Min i64Max := by
    intro value hvalue
    obtain ⟨card, hcard, rfl⟩ := List.mem_map.mp (List.mem_toFinset.mp hvalue)
    exact Finset.mem_Ioo.mpr (hordered.inside card hcard)
  calc cards.length
      = (cards.map fun card => card.priority.val).toFinset.card := by
        rw [List.toFinset_card_of_nodup hnodup, List.length_map]
    _ ≤ (Finset.Ioo i64Min i64Max).card := Finset.card_le_card hsub
    _ = 2 ^ 64 - 2 := by rw [Int.card_Ioo]; decide

theorem Ordered.length_others_lt {cards : List Card} (hordered : Ordered cards) {id : Uuid}
    (hmem : id ∈ cards.map Card.id) : (otherCards cards id).length < 2 ^ 64 - 2 := by
  obtain ⟨card, hcard, hid⟩ := List.mem_map.mp hmem
  have hlt : (otherCards cards id).length < cards.length :=
    List.length_filter_lt_length_iff_exists.mpr ⟨card, hcard, by simp [hid]⟩
  exact hlt.trans_le hordered.length_le

/-- **A drop lands where it was shown.** There is no position exactly when a card is missing, both are
the same, or the source is at the edge already. At the position there is, the move takes the source out
and puts it back at the edge of the target. -/
theorem drop_lands (randomRange : Int → Int) {filtered : List Card} (hordered : Ordered filtered)
    (sourceId targetId : Uuid) (edge : DropEdge) :
    (dropPosition filtered sourceId targetId edge = none ↔
      sourceId ∉ filtered.map Card.id ∨ targetId ∉ filtered.map Card.id ∨ sourceId = targetId ∨
        Occupies (filtered.map Card.id) sourceId targetId edge) ∧
    ∀ position, dropPosition filtered sourceId targetId edge = some position →
      ∃ card ∈ filtered, card.id = sourceId ∧
        let after := applyPlacement (otherCards filtered sourceId) card
          (moveCard randomRange filtered sourceId position)
        SortedDesc after ∧
          after.map Card.id = reinserted (filtered.map Card.id) sourceId targetId edge := by
  rw [dropPosition_eq]
  constructor
  · constructor
    · intro hnone
      by_contra hsome
      simp only [not_or, not_not] at hsome
      obtain ⟨hsource, htarget, hne, hfree⟩ := hsome
      rw [if_pos ⟨hne, hsource, htarget, mt (dropIndex_eq_iff htarget hne edge).mp hfree⟩] at hnone
      simp at hnone
    · intro hnone
      refine if_neg fun hsome => ?_
      obtain ⟨hne, hsource, htarget, hmoves⟩ := hsome
      rcases hnone with habsent | habsent | hsame | hoccupied
      · exact habsent hsource
      · exact habsent htarget
      · exact hne hsame
      · exact hmoves ((dropIndex_eq_iff htarget hne edge).mpr hoccupied)
  · intro position hposition
    split at hposition
    · rename_i hsome
      obtain ⟨hne, hsource, htarget, -⟩ := hsome
      obtain rfl := Option.some.inj hposition
      obtain ⟨card, hcard, hid⟩ := List.mem_map.mp hsource
      have hnew : ∀ other ∈ otherCards filtered sourceId, other.id ≠ card.id := fun other hother heq =>
        id_ne_of_mem_otherCards hother (heq.trans hid)
      obtain ⟨hafter, hids⟩ := applyPlacement_placeCard randomRange (hordered.others sourceId)
        (hordered.length_others_lt hsource) hnew
        (.at (dropIndex (filtered.map Card.id) sourceId targetId edge))
      refine ⟨card, hcard, hid, hafter.sorted, hids.trans ?_⟩
      have hothersIds : (otherCards filtered sourceId).map Card.id =
          (filtered.map Card.id).filter (· ≠ sourceId) := by
        rw [List.filter_map]
        rfl
      have hindex : dropIndex (filtered.map Card.id) sourceId targetId edge ≤
          (otherCards filtered sourceId).length := by
        obtain ⟨front, back, hothers, hlength⟩ := filter_ne_eq hordered.ids hsource htarget hne
        rw [← List.length_map (f := Card.id), hothersIds, hothers, List.length_append,
          List.length_cons, hlength]
        cases edge <;> simp only [dropIndex] <;> omega
      rw [InsertPosition.index, min_eq_left hindex, hothersIds, hid]
      exact insert_dropIndex hordered.ids hsource htarget hne edge
    · simp at hposition

/-- The lowest of three cards is dropped above the middle one. -/
theorem drop_lands_sample :
    dropPosition wideCards 1 2 .above = some (.at 1) ∧
      ∃ card ∈ wideCards, card.id = 1 ∧
        (applyPlacement (otherCards wideCards 1) card
          (moveCard (fun _ => 0) wideCards 1 (.at 1))).map Card.id = [3, 1, 2] := by
  have hordered : Ordered wideCards :=
    ⟨by rw [SortedDesc]; decide +kernel, by decide +kernel, by decide +kernel⟩
  have hposition : dropPosition wideCards 1 2 .above = some (.at 1) := by decide +kernel
  obtain ⟨card, hcard, hid, -, hids⟩ :=
    (drop_lands (fun _ => 0) hordered 1 2 .above).2 (.at 1) hposition
  refine ⟨hposition, card, hcard, hid, ?_⟩
  rw [hids]
  decide +kernel

end BlazeList
