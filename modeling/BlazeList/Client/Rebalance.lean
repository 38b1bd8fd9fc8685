import BlazeList.Client.ChangeSet
import BlazeList.Client.Spread
import BlazeList.Server.Reprioritize

/-!
# Pushing a rebalance

A rebalance is pushed as one batch: the shifted cards from the highest down and then the placed card, or
the placed card and then the shifted ones in no particular order. The server checks each priority against
what the items before have left, so the batch goes through when no item takes the place of a card whose
own item comes later.
-/

namespace BlazeList

/-! ### The shifted cards as writes -/

namespace PackedRun

/-- What is stored when the run is spread around the place of the card `id`: the cards under their
priorities, and maybe an old version of the placed card. -/
structure StoredAs (cards : List Card) (id : Uuid) (content : Uuid → Option I64) : Prop where
  stored : ∀ card ∈ cards, content card.id = some card.priority
  card_of : ∀ key priority, key ≠ id → content key = some priority →
    ∃ card ∈ cards, card.id = key ∧ card.priority = priority
  ids_nodup : (cards.map Card.id).Nodup
  absent : ∀ card ∈ cards, card.id ≠ id
  held_ne : ∀ card ∈ cards, content id ≠ some card.priority

variable {run : PackedRun} {cards : List Card} {insertIdx : Nat} {id : Uuid}
  {content : Uuid → Option I64}

theorem mem_shifted_iff {write : Uuid × I64} :
    write ∈ run.shifted ↔ ∃ (index : Nat) (card : Card), run.packed[index]? = some card ∧
      toI64 (run.target (run.slotOf index)) ≠ card.priority ∧
      write = (card.id, toI64 (run.target (run.slotOf index))) := by
  simp only [shifted, List.mem_filterMap, Prod.exists, List.mem_zipIdx_iff_getElem?]
  constructor
  · rintro ⟨card, index, hget, hwrite⟩
    split at hwrite
    · exact ⟨index, card, hget, ‹_›, (Option.some.inj hwrite).symm⟩
    · simp at hwrite
  · rintro ⟨index, card, hget, hne, rfl⟩
    exact ⟨card, index, hget, by rw [if_pos hne]⟩

theorem mem_cards {index : Nat} {card : Card} (hget : run.packed[index]? = some card) :
    card ∈ run.cards := by
  rw [PackedRun.cards, List.mem_append, List.mem_append]
  exact .inl (.inr (List.mem_of_getElem? hget))

theorem Around.mem_cards (haround : run.Around cards insertIdx) {index : Nat} {card : Card}
    (hget : run.packed[index]? = some card) : card ∈ cards :=
  haround.cards_eq ▸ PackedRun.mem_cards hget

theorem lt_length {index : Nat} {card : Card} (hget : run.packed[index]? = some card) :
    index < run.packed.length := (List.getElem?_eq_some_iff.mp hget).1

/-- Cards of the run with one id are one card, at one index. -/
theorem Around.index_eq (haround : run.Around cards insertIdx) (hcontent : StoredAs cards id content)
    {i j : Nat} {first second : Card} (hfirst : run.packed[i]? = some first)
    (hsecond : run.packed[j]? = some second) (hid : first.id = second.id) : i = j := by
  have hsame : first = second := List.inj_on_of_nodup_map hcontent.ids_nodup
    (haround.mem_cards hfirst) (haround.mem_cards hsecond) hid
  have hpriority := haround.priority_packed hfirst
  rw [hsame, haround.priority_packed hsecond] at hpriority
  omega

/-- A card is shifted unless its slot lands on it. -/
theorem Around.shifted_iff (haround : run.Around cards insertIdx) (hlength : cards.length < 2 ^ 64 - 2)
    {index : Nat} {card : Card} (hget : run.packed[index]? = some card) :
    toI64 (run.target (run.slotOf index)) ≠ card.priority ↔
      run.landing (run.slotOf index) ≠ index := by
  rw [← not_iff_not, not_not, not_not, ← haround.priority_eq_target_iff hget, Subtype.ext_iff,
    haround.toI64_target hlength (run.slotOf_le (lt_length hget))]
  exact eq_comm

theorem landing_injective {a b : Nat} (h : run.landing a = run.landing b) : a = b := by
  apply run.target_injective
  rw [target_eq, target_eq, h]

theorem Around.keys_nodup (haround : run.Around cards insertIdx) (hcontent : StoredAs cards id content)
    (priority : I64) : (((id, priority) :: run.shifted).map Prod.fst).Nodup := by
  rw [List.map_cons, List.nodup_cons]
  refine ⟨fun hmem => ?_, ?_⟩
  · obtain ⟨write, hwrite, hid⟩ := List.mem_map.mp hmem
    obtain ⟨index, card, hget, -, rfl⟩ := mem_shifted_iff.mp hwrite
    exact hcontent.absent card (haround.mem_cards hget) hid
  · have hids : (run.packed.map Card.id).Nodup := by
      refine hcontent.ids_nodup.sublist (List.Sublist.map Card.id ?_)
      rw [← haround.cards_eq, PackedRun.cards]
      exact (List.sublist_append_right run.above run.packed).trans (List.sublist_append_left _ _)
    refine hids.sublist ?_
    have hkeys : run.shifted.map Prod.fst = (run.packed.zipIdx.filter fun entry =>
        toI64 (run.target (run.slotOf entry.2)) ≠ entry.1.priority).map fun entry => entry.1.id := by
      rw [shifted, List.map_filterMap, ← List.filterMap_eq_map, ← List.filterMap_eq_filter,
        List.filterMap_filterMap]
      refine List.filterMap_congr fun entry _ => ?_
      by_cases hne : toI64 (run.target (run.slotOf entry.2)) ≠ entry.1.priority
      · simp [hne, Option.guard]
      · simp [hne, Option.guard]
    have hpacked : run.packed.map Card.id = run.packed.zipIdx.map fun entry => entry.1.id := by
      conv_lhs => rw [← List.zipIdx_map_fst 0 run.packed, List.map_map]
      rfl
    rw [hkeys, hpacked]
    exact List.filter_sublist.map _

/-- A card of the run is in the way of a slot when the slot lands on it. -/
theorem Around.passes_iff (haround : run.Around cards insertIdx) (hlength : cards.length < 2 ^ 64 - 2)
    (hcontent : StoredAs cards id content) {slot index : Nat} {card : Card}
    (hslot : slot ≤ run.packed.length) (hget : run.packed[index]? = some card)
    (hne : slot ≠ run.slotOf index) (key : Uuid) :
    Reassign.Passes content (key, toI64 (run.target slot))
        (card.id, toI64 (run.target (run.slotOf index))) ↔ run.landing slot ≠ index := by
  have hval := haround.toI64_target hlength hslot
  have hvalOf := haround.toI64_target hlength (run.slotOf_le (lt_length hget))
  have hother : toI64 (run.target (run.slotOf index)) ≠ toI64 (run.target slot) := by
    intro heq
    rw [Subtype.ext_iff, hval, hvalOf] at heq
    exact hne (run.target_injective heq).symm
  rw [Reassign.Passes, hcontent.stored card (haround.mem_cards hget), and_iff_left hother, Ne, Ne,
    ← haround.priority_eq_target_iff hget, Option.some.injEq, Subtype.ext_iff, hval]

section Outside

variable {writes : List (Uuid × I64)}

/-- The lower neighbour of the run is not written. -/
theorem Around.lower_not_written (haround : run.Around cards insertIdx)
    (hcontent : StoredAs cards id content)
    (hwrites : ∀ write, write ∈ writes ↔
      write = (id, toI64 (run.target run.slot)) ∨ write ∈ run.shifted)
    (hbelow : run.below ≠ []) {card : Card} (hcard : card ∈ cards)
    (hlower : card.priority.val = run.lower) : card.id ∉ writes.map Prod.fst := by
  intro hmem
  obtain ⟨write, hwrite, hid⟩ := List.mem_map.mp hmem
  rcases (hwrites write).mp hwrite with rfl | hshifted
  · exact hcontent.absent card hcard hid.symm
  · obtain ⟨index, other, hget, -, rfl⟩ := mem_shifted_iff.mp hshifted
    have hsame : other = card := List.inj_on_of_nodup_map hcontent.ids_nodup
      (haround.mem_cards hget) hcard hid
    have hbottom := haround.lower_le_bottom.2 hbelow
    have hpriority := haround.priority_packed hget
    have hlt := lt_length hget
    rw [hsame, hlower] at hpriority
    omega

/-- Whatever the slot of the card, something is written to the lowest one when that is off the run. -/
theorem Around.exists_write_lowest (haround : run.Around cards insertIdx)
    (hwrites : ∀ write, write ∈ writes ↔
      write = (id, toI64 (run.target run.slot)) ∨ write ∈ run.shifted)
    (hbelow : run.below ≠ [])
    (hval : (toI64 (run.target run.packed.length)).val = run.lower) :
    ∃ write ∈ writes, write.2 = toI64 (run.target run.packed.length) := by
  by_cases hslot : run.slot = run.packed.length
  · exact ⟨_, (hwrites _).mpr (.inl rfl), by rw [hslot]⟩
  · have hpos := haround.nonempty
    have hle := haround.slot_le
    have hgap := haround.below_gap hbelow
    have hslotOf : run.slotOf (run.packed.length - 1) = run.packed.length := by
      rw [slotOf, if_neg (by omega)]
      omega
    obtain ⟨last, hget⟩ : ∃ last, run.packed[run.packed.length - 1]? = some last :=
      ⟨_, List.getElem?_eq_getElem (by omega)⟩
    refine ⟨(last.id, toI64 (run.target run.packed.length)), (hwrites _).mpr (.inr ?_), rfl⟩
    refine mem_shifted_iff.mpr ⟨run.packed.length - 1, last, hget, ?_, by rw [hslotOf]⟩
    rw [hslotOf]
    intro heq
    rw [Subtype.ext_iff, hval, haround.priority_packed hget] at heq
    rw [haround.priorityAt_packed (by omega)] at hgap
    omega

/-- When the run does not fit, whoever takes the lowest slot meets the lower neighbour. -/
theorem Around.fits_of_outside (haround : run.Around cards insertIdx)
    (hlength : cards.length < 2 ^ 64 - 2) (hcontent : StoredAs cards id content)
    (hwrites : ∀ write, write ∈ writes ↔
      write = (id, toI64 (run.target run.slot)) ∨ write ∈ run.shifted)
    (houtside : ∀ write ∈ writes, Reassign.Outside content writes write.2) : run.Fits := by
  by_contra hfits
  rw [Fits, not_or, not_le] at hfits
  obtain ⟨hbelow, htight⟩ := hfits
  obtain ⟨card, rest, hcons⟩ := List.exists_cons_of_ne_nil hbelow
  have hlower : card.priority.val = run.lower := by
    rw [lower, hcons]
    rfl
  have hcard : card ∈ cards := by
    rw [← haround.cards_eq, PackedRun.cards, hcons]
    exact List.mem_append_right _ List.mem_cons_self
  have hval : (toI64 (run.target run.packed.length)).val = run.lower := by
    rw [haround.toI64_target hlength le_rfl, haround.target_last hlength htight]
  obtain ⟨write, hwrite, hwriteVal⟩ := haround.exists_write_lowest hwrites hbelow hval
  apply houtside write hwrite card.id
    (haround.lower_not_written hcontent hwrites hbelow hcard hlower)
  rw [hcontent.stored card hcard, hwriteVal]
  exact congrArg some (Subtype.ext (hlower.trans hval.symm))

/-- The slot that a write puts its card in. -/
theorem Around.slot_of_write (haround : run.Around cards insertIdx) (hlength : cards.length < 2 ^ 64 - 2)
    {write : Uuid × I64}
    (hwrite : write = (id, toI64 (run.target run.slot)) ∨ write ∈ run.shifted) :
    ∃ slot ≤ run.packed.length, write.2 = toI64 (run.target slot) ∧
      (slot = run.slot ∨ ∃ (index : Nat) (card : Card), run.packed[index]? = some card ∧
        run.landing slot ≠ index ∧ slot = run.slotOf index) := by
  rcases hwrite with rfl | hshifted
  · exact ⟨run.slot, haround.slot_le, rfl, .inl rfl⟩
  · obtain ⟨index, card, hget, hne, rfl⟩ := mem_shifted_iff.mp hshifted
    exact ⟨_, run.slotOf_le (lt_length hget), rfl,
      .inr ⟨index, card, hget, (haround.shifted_iff hlength hget).mp hne, rfl⟩⟩

theorem Around.outside_of_fits (haround : run.Around cards insertIdx) (hsorted : SortedDesc cards)
    (hlength : cards.length < 2 ^ 64 - 2) (hcontent : StoredAs cards id content)
    (hwrites : ∀ write, write ∈ writes ↔
      write = (id, toI64 (run.target run.slot)) ∨ write ∈ run.shifted)
    (hfits : run.Fits) : ∀ write ∈ writes, Reassign.Outside content writes write.2 := by
  intro write hwrite key hkey hstored
  obtain ⟨slot, hslot, hvalue, hfrom⟩ := haround.slot_of_write hlength ((hwrites write).mp hwrite)
  have hkeyNe : key ≠ id := by
    rintro rfl
    exact hkey (List.mem_map.mpr ⟨_, (hwrites _).mpr (.inl rfl), rfl⟩)
  obtain ⟨card, hcard, rfl, hpriority⟩ := hcontent.card_of key write.2 hkeyNe hstored
  have hval : card.priority.val = run.target slot := by
    rw [hpriority, hvalue, haround.toI64_target hlength hslot]
  obtain ⟨hlower, hupper, hinside⟩ := haround.target_bounds hlength hslot
  rcases haround.holder hsorted hcard (by omega) (by omega) with ⟨index, hget⟩ | ⟨hbelow, hedge⟩
  · -- a card of the run that lies there and does not move has this slot itself
    have hlands := (haround.priority_eq_target_iff hget slot).mp hval
    have hstays : run.landing (run.slotOf index) = index := by
      by_contra hmoves
      apply hkey
      refine List.mem_map.mpr ⟨_, (hwrites _).mpr (.inr (mem_shifted_iff.mpr
        ⟨index, card, hget, (haround.shifted_iff hlength hget).mpr hmoves, rfl⟩)), rfl⟩
    have hsame : slot = run.slotOf index := landing_injective (hlands.trans hstays.symm)
    rcases hfrom with hplaced | ⟨other, _, -, hmoves, hother⟩
    · exact run.slotOf_ne_slot index (hsame.symm.trans hplaced)
    · have hindex : other = index := run.slotOf_injective (hother.symm.trans hsame)
      exact hmoves (hindex ▸ hlands)
  · rcases hfits with hnone | hroom
    · exact hbelow hnone
    · have := hinside hroom
      omega

/-- The lowest slot is the only one that may lie on a card that does not move. -/
theorem Around.outside_iff (haround : run.Around cards insertIdx) (hsorted : SortedDesc cards)
    (hlength : cards.length < 2 ^ 64 - 2) (hcontent : StoredAs cards id content)
    (hwrites : ∀ write, write ∈ writes ↔
      write = (id, toI64 (run.target run.slot)) ∨ write ∈ run.shifted) :
    (∀ write ∈ writes, Reassign.Outside content writes write.2) ↔ run.Fits :=
  ⟨haround.fits_of_outside hlength hcontent hwrites,
    haround.outside_of_fits hsorted hlength hcontent hwrites⟩

end Outside

theorem Around.clear_inOrder_iff (haround : run.Around cards insertIdx) (hsorted : SortedDesc cards)
    (hlength : cards.length < 2 ^ 64 - 2) (hcontent : StoredAs cards id content) :
    Reassign.Clear content (run.shifted ++ [(id, toI64 (run.target run.slot))]) ↔
      run.ClearInOrder (content id) := by
  have hkeys := haround.keys_nodup hcontent (toI64 (run.target run.slot))
  have hperm : (run.shifted ++ [(id, toI64 (run.target run.slot))]).Perm
      ((id, toI64 (run.target run.slot)) :: run.shifted) := List.perm_append_comm
  have hwrites : ∀ write, write ∈ run.shifted ++ [(id, toI64 (run.target run.slot))] ↔
      write = (id, toI64 (run.target run.slot)) ∨ write ∈ run.shifted :=
    fun write => by rw [hperm.mem_iff, List.mem_cons]
  have houtside := haround.outside_iff hsorted hlength hcontent hwrites
  rw [Reassign.clear_iff ((hperm.map Prod.fst).nodup_iff.mpr hkeys), houtside, ClearInOrder,
    List.pairwise_append]
  simp only [List.pairwise_singleton, true_and, List.mem_singleton, forall_eq]
  refine and_congr_right fun _ => and_congr ?_ ?_
  · rw [shifted, List.pairwise_filterMap, List.pairwise_iff_getElem]
    simp only [List.length_zipIdx, List.getElem_zipIdx, Nat.zero_add, Option.ite_none_right_eq_some,
      Option.some.injEq]
    constructor
    · intro hpairs j hj i hij hlands
      have hget : run.packed[i]? = some run.packed[i] := List.getElem?_eq_getElem (by omega)
      have hgetj : run.packed[j]? = some run.packed[j] := List.getElem?_eq_getElem hj
      have hslots : run.slotOf i ≠ run.slotOf j := fun h => absurd (run.slotOf_injective h) hij.ne
      have hmoves : run.landing (run.slotOf i) ≠ i := by
        rw [hlands]
        omega
      have hmovesj : run.landing (run.slotOf j) ≠ j := by
        intro hstays
        exact hslots (landing_injective (hlands.trans hstays.symm))
      have hpasses := hpairs i j (by omega) hj hij _
        ⟨(haround.shifted_iff hlength hget).mpr hmoves, rfl⟩ _
        ⟨(haround.shifted_iff hlength hgetj).mpr hmovesj, rfl⟩
      exact (haround.passes_iff hlength hcontent (run.slotOf_le (by omega)) hgetj hslots _).mp
        hpasses hlands
    · rintro hclear i j hi hj hij _ ⟨-, rfl⟩ _ ⟨-, rfl⟩
      have hgetj : run.packed[j]? = some run.packed[j] := List.getElem?_eq_getElem hj
      exact (haround.passes_iff hlength hcontent (run.slotOf_le hi) hgetj
        (fun h => absurd (run.slotOf_injective h) hij.ne) _).mpr (hclear j hj i hij)
  · constructor
    · intro hpasses i hi hheld
      have hget : run.packed[i]? = some run.packed[i] := List.getElem?_eq_getElem hi
      obtain ⟨held, hheldEq, hval⟩ := Option.map_eq_some_iff.mp hheld
      have hheldVal : toI64 (run.target (run.slotOf i)) = held := by
        rw [Subtype.ext_iff, haround.toI64_target hlength (run.slotOf_le hi), hval]
      by_cases hstays : toI64 (run.target (run.slotOf i)) = run.packed[i].priority
      · apply hcontent.held_ne _ (haround.mem_cards hget)
        rw [hheldEq, ← hheldVal, hstays]
      · apply (hpasses _ (mem_shifted_iff.mpr ⟨i, _, hget, hstays, rfl⟩)).1
        rw [hheldEq, hheldVal]
    · intro hheld write hwrite
      obtain ⟨index, card, hget, -, rfl⟩ := mem_shifted_iff.mp hwrite
      have hval := haround.toI64_target hlength (run.slotOf_le (lt_length hget))
      constructor
      · intro hstored
        apply hheld index (lt_length hget)
        rw [hstored, Option.map_some, hval]
      · intro heq
        have hslots := congrArg Subtype.val heq
        rw [hval, haround.toI64_target hlength haround.slot_le] at hslots
        exact run.slotOf_ne_slot index (run.target_injective hslots).symm

theorem Around.clear_inAnyOrder_iff (haround : run.Around cards insertIdx)
    (hsorted : SortedDesc cards) (hlength : cards.length < 2 ^ 64 - 2)
    (hcontent : StoredAs cards id content) :
    (∀ others : List (Uuid × I64), others.Perm run.shifted →
        Reassign.Clear content ((id, toI64 (run.target run.slot)) :: others)) ↔
      run.ClearInAnyOrder := by
  have hwrites : ∀ write, write ∈ (id, toI64 (run.target run.slot)) :: run.shifted ↔
      write = (id, toI64 (run.target run.slot)) ∨ write ∈ run.shifted :=
    fun write => List.mem_cons
  have houtside := haround.outside_iff hsorted hlength hcontent hwrites
  rw [Reassign.forall_perm_clear_iff (haround.keys_nodup hcontent _), houtside, ClearInAnyOrder]
  refine and_congr_right fun _ => and_congr ?_ ?_
  · constructor
    · intro hpasses j hj hlands
      have hget : run.packed[j]? = some run.packed[j] := List.getElem?_eq_getElem hj
      have hmoves : run.landing (run.slotOf j) ≠ j := by
        intro hstays
        exact run.slotOf_ne_slot j (landing_injective (hstays.trans hlands.symm))
      have hpass := hpasses _ (mem_shifted_iff.mpr
        ⟨j, _, hget, (haround.shifted_iff hlength hget).mpr hmoves, rfl⟩)
      exact (haround.passes_iff hlength hcontent haround.slot_le hget
        (run.slotOf_ne_slot j).symm _).mp hpass hlands
    · intro hclear write hwrite
      obtain ⟨index, card, hget, -, rfl⟩ := mem_shifted_iff.mp hwrite
      exact (haround.passes_iff hlength hcontent haround.slot_le hget
        (run.slotOf_ne_slot index).symm _).mpr (hclear index (lt_length hget))
  · constructor
    · intro hpasses j hj i hi hij hlands
      have hgeti : run.packed[i]? = some run.packed[i] := List.getElem?_eq_getElem hi
      have hgetj : run.packed[j]? = some run.packed[j] := List.getElem?_eq_getElem hj
      have hslots : run.slotOf i ≠ run.slotOf j := fun h => hij (run.slotOf_injective h)
      have hmovesi : run.landing (run.slotOf i) ≠ i := by
        rw [hlands]
        exact fun h => hij (Int.ofNat_inj.mp h).symm
      have hmovesj : run.landing (run.slotOf j) ≠ j := by
        intro hstays
        exact hslots (landing_injective (hlands.trans hstays.symm))
      have hids : run.packed[i].id ≠ run.packed[j].id :=
        fun h => hij (haround.index_eq hcontent hgeti hgetj h)
      have hpass := hpasses _ (mem_shifted_iff.mpr
          ⟨i, _, hgeti, (haround.shifted_iff hlength hgeti).mpr hmovesi, rfl⟩) _
        (mem_shifted_iff.mpr ⟨j, _, hgetj, (haround.shifted_iff hlength hgetj).mpr hmovesj, rfl⟩)
        fun h => hids (congrArg Prod.fst h)
      exact (haround.passes_iff hlength hcontent (run.slotOf_le hi) hgetj hslots _).mp hpass hlands
    · intro hclear earlier hearlier later hlater hne
      obtain ⟨i, first, hgeti, -, rfl⟩ := mem_shifted_iff.mp hearlier
      obtain ⟨j, second, hgetj, -, rfl⟩ := mem_shifted_iff.mp hlater
      have hij : i ≠ j := by
        rintro rfl
        rw [hgeti, Option.some.injEq] at hgetj
        exact hne (by rw [hgetj])
      exact (haround.passes_iff hlength hcontent (run.slotOf_le (lt_length hgeti)) hgetj
        (fun h => hij (run.slotOf_injective h)) _).mpr
        (hclear j (lt_length hgetj) i (lt_length hgeti) hij)

end PackedRun

/-! ### Placements -/

def otherCards (cards : List Card) (id : Uuid) : List Card := cards.filter fun card => card.id ≠ id

theorem otherCards_sublist (cards : List Card) (id : Uuid) : (otherCards cards id).Sublist cards :=
  List.filter_sublist

theorem id_ne_of_mem_otherCards {cards : List Card} {id : Uuid} {other : Card}
    (h : other ∈ otherCards cards id) : other.id ≠ id := of_decide_eq_true (List.mem_filter.mp h).2

def insertIdx (cards : List Card) (position : InsertPosition) : Nat :=
  (boundsForPosition cards position).2.2

/-- The calls that look for a place of the card `id`: for a new card, for a card whose priority is taken,
and for a card that moves. -/
inductive Placing (randomRange : Int → Int) (cards : List Card) (id : Uuid) :
    InsertPosition → Placement → Prop where
  | new (position : InsertPosition) (hnew : ∀ card ∈ cards, card.id ≠ id) :
      Placing randomRange cards id position (placeCard randomRange cards position)
  | collision (desiredPriority : I64) :
      Placing randomRange cards id
        (.at ((otherCards cards id).findIdx fun card => card.priority.val ≤ desiredPriority.val))
        (resolveCollision randomRange (otherCards cards id) desiredPriority)
  | move (target : InsertPosition) :
      Placing randomRange cards id target (moveCard randomRange cards id target)

section Placements

variable {randomRange : Int → Int} {cards : List Card} {id : Uuid} {position : InsertPosition}
  {placement : Placement}

theorem Placing.eq_placeCard (h : Placing randomRange cards id position placement) :
    placement = placeCard randomRange (otherCards cards id) position := by
  cases h with
  | new _ hnew =>
      have hothers : otherCards cards id = cards :=
        List.filter_eq_self.mpr fun card hcard => decide_eq_true (hnew card hcard)
      rw [hothers]
  | collision => rfl
  | move => rfl

theorem insertIdx_le (cards : List Card) (position : InsertPosition) :
    insertIdx cards position ≤ cards.length := by
  cases position with
  | top => exact Nat.zero_le _
  | bottom => exact le_rfl
  | «at» index => exact min_le_right index cards.length

/-- Inside the list the bounds are the two neighbours. -/
theorem bounds_eq_gapAt (cards : List Card) (position : InsertPosition)
    (hpos : 0 < insertIdx cards position) (hlt : insertIdx cards position < cards.length) :
    (boundsForPosition cards position).1.val - (boundsForPosition cards position).2.1.val =
      gapAt cards (insertIdx cards position - 1) := by
  cases position with
  | top => exact absurd hpos (lt_irrefl 0)
  | bottom => exact absurd hlt (lt_irrefl cards.length)
  | «at» index =>
      simp only [insertIdx, boundsForPosition] at hpos hlt ⊢
      rw [if_neg (by omega), gapAt, Nat.sub_add_cancel hpos, priorityAt_getElem (by omega),
        priorityAt_getElem hlt, List.getElem?_eq_getElem (by omega), List.getElem?_eq_getElem hlt]
      rfl

/-- A capped gap is still a gap. -/
theorem gap_le_of_capEdgeBounds {upper lower : I64}
    (h : (capEdgeBounds upper lower).1.val - (capEdgeBounds upper lower).2.val ≤ 1) :
    upper.val - lower.val ≤ 1 := by
  have hupper := upper.property
  have hlower := lower.property
  unfold capEdgeBounds at h
  by_cases hsmall : upper.val - lower.val ≤ maxEdgeGap
  · rwa [if_pos hsmall] at h
  · rw [if_neg hsmall] at h
    dsimp only at h
    simp only [maxEdgeGap, not_le] at hsmall h
    by_cases htop : upper = i64MaxValue ∧ lower ≠ i64MinValue
    · -- only the upper bound is capped
      rw [if_pos htop, if_neg fun hbottom => htop.2 hbottom.1, toI64_val (by omega)] at h
      · omega
      · have hmax : upper.val = i64Max := congrArg Subtype.val htop.1
        omega
    · rw [if_neg htop] at h
      by_cases hbottom : lower = i64MinValue ∧ upper ≠ i64MaxValue
      · rw [if_pos hbottom, toI64_val _ (by omega)] at h
        · omega
        · have hmin : lower.val = i64Min := congrArg Subtype.val hbottom.1
          omega
      · rwa [if_neg hbottom] at h

/-- A rebalanced placement is the spread of the packed run around the place. -/
theorem placeCard_eq_rebalanced (hsorted : SortedDesc cards) {priority : I64}
    {shifted : List (Uuid × I64)}
    (h : placeCard randomRange cards position = .rebalanced priority shifted) :
    (packedRun cards (insertIdx cards position)).Around cards (insertIdx cards position) ∧
      priority = toI64 ((packedRun cards (insertIdx cards position)).target
        (packedRun cards (insertIdx cards position)).slot) ∧
      shifted = (packedRun cards (insertIdx cards position)).shifted := by
  have hplace : placeCard randomRange cards position =
      tryPlace randomRange cards
        (capEdgeBounds (boundsForPosition cards position).1 (boundsForPosition cards position).2.1).1
        (capEdgeBounds (boundsForPosition cards position).1 (boundsForPosition cards position).2.1).2
        (insertIdx cards position) := rfl
  rw [hplace, tryPlace] at h
  split at h
  · simp at h
  · rename_i hgap
    have htight := gap_le_of_capEdgeBounds (not_lt.mp hgap)
    have hne : cards ≠ [] := by
      rintro rfl
      simp [rebalance] at h
    have haround := packedRun_around hsorted hne (insertIdx_le cards position) fun hpos hlt => by
      rw [← bounds_eq_gapAt cards position hpos hlt]
      exact htight
    rw [rebalance_eq randomRange hne (insertIdx_le cards position) haround.framed] at h
    split at h
    · simp at h
    · obtain ⟨rfl, rfl⟩ := Placement.rebalanced.inj h
      exact ⟨haround, rfl, rfl⟩

/-- Each shifted card gets one new version with its new priority, in the order of the shifts. -/
theorem buildShiftedVersions_spec [Blake3] {shifted : List (Uuid × I64)} {time : DateTime}
    {siblings : List Card} (hnodup : (cards.map Card.id).Nodup)
    (hshifted : ∀ write ∈ shifted, ∃ card ∈ cards, card.id = write.1)
    (h : buildShiftedVersions shifted cards time = some siblings) :
    priorityWrites siblings = shifted ∧ ∀ version ∈ siblings, ∃ card ∈ cards, ∃ priority,
      card.next card.content priority card.tags card.blazed time card.dueDate = some version := by
  unfold buildShiftedVersions at h
  induction shifted generalizing siblings with
  | nil =>
      obtain rfl : siblings = [] := by simpa [pure] using h.symm
      exact ⟨rfl, fun version hversion => absurd hversion List.not_mem_nil⟩
  | cons write rest ih =>
      obtain ⟨card, hcard, hid⟩ := hshifted write List.mem_cons_self
      have hfind : cards.find? (fun other => decide (other.id = write.1)) = some card := by
        have hsome : (cards.find? fun other => decide (other.id = write.1)).isSome := by
          rw [List.find?_isSome]
          exact ⟨card, hcard, decide_eq_true hid⟩
        obtain ⟨found, hfound⟩ := Option.isSome_iff_exists.mp hsome
        have hholds := List.find?_some hfound
        have hfoundId : found.id = write.1 := of_decide_eq_true hholds
        rw [hfound, List.inj_on_of_nodup_map hnodup (List.mem_of_find?_eq_some hfound) hcard
          (hfoundId.trans hid.symm)]
      obtain ⟨id, priority⟩ := write
      rw [List.filterMap_cons_some (b := (card, priority)) (by simp only [hfind, Option.map_some]),
        List.mapM_cons] at h
      obtain ⟨version, hversion, h⟩ := Option.bind_eq_some_iff.mp h
      obtain ⟨versions, hversions, h⟩ := Option.bind_eq_some_iff.mp h
      obtain rfl := Option.some.inj h
      obtain ⟨hwrites, hnexts⟩ :=
        ih (fun other hother => hshifted other (List.mem_cons_of_mem _ hother)) hversions
      obtain ⟨-, hversionId, -, hversionPriority, -⟩ := Card.next_eq_some_iff.mp hversion
      constructor
      · rw [priorityWrites, List.map_cons, hversionId, hversionPriority, hid]
        exact congrArg _ hwrites
      · intro other hother
        rcases List.mem_cons.mp hother with rfl | hother
        · exact ⟨card, hcard, priority, hversion⟩
        · exact hnexts other hother

end Placements

/-! ### Acceptance -/

structure ShowsLive (store : Store) (cards : List Card) : Prop where
  perm : cards.Perm store.cards.entities
  sorted : SortedDesc cards
  length_lt : cards.length < 2 ^ 63

section Accepted

variable {store : Store} {cards : List Card}

theorem ShowsLive.mem_iff (h : ShowsLive store cards) {card : Card} :
    card ∈ cards ↔ ∃ row ∈ store.cards.live, row.entity = card :=
  h.perm.mem_iff.trans EntityTables.mem_entities

theorem ShowsLive.storedAs (h : ShowsLive store cards) (id : Uuid) :
    PackedRun.StoredAs (otherCards cards id) id store.priorities := by
  have hcurrent : ∀ card ∈ cards, store.cards.current card.id = some card := by
    intro card hcard
    obtain ⟨row, hrow, rfl⟩ := h.mem_iff.mp hcard
    exact EntityTables.current_of_mem hrow
  have hids : (cards.map Card.id).Nodup :=
    (h.perm.map Card.id).nodup_iff.mpr EntityTables.nodup_map_id
  refine
    { stored := fun card hcard => ?_
      card_of := fun key priority hkey hstored => ?_
      ids_nodup := hids.sublist ((otherCards_sublist _ _).map _)
      absent := fun card hcard => id_ne_of_mem_otherCards hcard
      held_ne := fun card hcard hheld => ?_ }
  · rw [Store.priorities, hcurrent card (List.mem_of_mem_filter hcard)]
    rfl
  · obtain ⟨card, hcard, hpriority⟩ := Option.map_eq_some_iff.mp hstored
    obtain ⟨row, hrow, rfl, hid⟩ := EntityTables.current_eq_some_iff.mp hcard
    refine ⟨row.entity, List.mem_filter.mpr ⟨h.mem_iff.mpr ⟨row, hrow, rfl⟩, ?_⟩, hid, hpriority⟩
    exact decide_eq_true fun heq => hkey (hid.symm.trans heq)
  · -- two live cards with one priority
    obtain ⟨held, hheldCurrent, hpriority⟩ := Option.map_eq_some_iff.mp hheld
    obtain ⟨row, hrow, rfl, hid⟩ := EntityTables.current_eq_some_iff.mp hheldCurrent
    obtain ⟨other, hother, rfl⟩ := h.mem_iff.mp (List.mem_of_mem_filter hcard)
    obtain rfl : row = other := Table.eq_of_conflict hrow hother (.inr hpriority)
    exact id_ne_of_mem_otherCards hcard hid

variable [Blake3]

/-- When the batch of a rebalanced placement is accepted. With the shifted cards in order and then the
placed one: when no card of the packed run is given the place of a card further down the run or of the
placed card. With the placed card first: when none is given the place of another card of the run. -/
theorem rebalanced_accepted_iff (randomRange : Int → Int) (hsound : SoundStore store)
    (hroom : store.rootState.sequence.val < 9223372036854775807) (hcards : ShowsLive store cards)
    {placed : Card} (hplaced : Continues store placed) {position : InsertPosition}
    {shifted : List (Uuid × I64)}
    (hplacing : Placing randomRange cards placed.id position (.rebalanced placed.priority shifted))
    {time : DateTime} {siblings : List Card}
    (hsiblings : buildShiftedVersions shifted (otherCards cards placed.id) time = some siblings)
    (now : Int) :
    let run := packedRun (otherCards cards placed.id)
      (insertIdx (otherCards cards placed.id) position)
    ((∃ after, pushBatch store (singles (siblings ++ [placed])) now = .ok after) ↔
        run.ClearInOrder (store.priorities placed.id)) ∧
      ((∀ order : List Card, order.Perm siblings →
          ∃ after, pushBatch store (singles (placed :: order)) now = .ok after) ↔
        run.ClearInAnyOrder) := by
  obtain ⟨others, hothers⟩ : ∃ others, others = otherCards cards placed.id := ⟨_, rfl⟩
  have hsorted : SortedDesc others := hothers ▸ hcards.sorted.filter _
  have hlength : others.length < 2 ^ 64 - 2 := by
    have hle : others.length ≤ cards.length := hothers ▸ List.length_filter_le _ _
    have := hcards.length_lt
    omega
  have hcontent : PackedRun.StoredAs others placed.id store.priorities :=
    hothers ▸ hcards.storedAs placed.id
  have hplace := hplacing.eq_placeCard.symm
  rw [← hothers] at hplace hsiblings ⊢
  obtain ⟨haround, hpriority, hshifted⟩ := placeCard_eq_rebalanced hsorted hplace
  intro run
  change run.Around others _ at haround
  change shifted = run.shifted at hshifted
  change placed.priority = toI64 (run.target run.slot) at hpriority
  have hknown : ∀ write ∈ shifted, ∃ card ∈ others, card.id = write.1 := by
    intro write hwrite
    obtain ⟨index, card, hget, -, rfl⟩ := PackedRun.mem_shifted_iff.mp (hshifted ▸ hwrite)
    exact ⟨card, haround.mem_cards hget, rfl⟩
  obtain ⟨hwrites, hnexts⟩ := buildShiftedVersions_spec hcontent.ids_nodup hknown hsiblings
  rw [hshifted] at hwrites
  have hcontinues : ∀ card ∈ siblings, Continues store card := by
    intro version hversion
    obtain ⟨card, hcard, priority, hnext⟩ := hnexts version hversion
    rw [hothers] at hcard
    obtain ⟨row, hrow, rfl⟩ := hcards.mem_iff.mp (List.mem_of_mem_filter hcard)
    exact hsound.continues_next hrow hnext
  have hkeys : (((placed :: siblings).map Card.id)).Nodup := by
    have hnodup := haround.keys_nodup hcontent placed.priority
    rw [← hwrites, priorityWrites, List.map_cons, List.map_map] at hnodup
    exact hnodup
  have hall : ∀ order : List Card, order.Perm (placed :: siblings) →
      ((∃ after, pushBatch store (singles order) now = .ok after) ↔
        Reassign.Clear store.priorities (priorityWrites order)) := by
    intro order hperm
    refine hsound.exists_pushBatch_iff hroom (fun card hcard => ?_)
      ((hperm.map Card.id).nodup_iff.mpr hkeys) now
    rcases List.mem_cons.mp (hperm.mem_iff.mp hcard) with rfl | hcard
    · exact hplaced
    · exact hcontinues card hcard
  constructor
  · rw [hall (siblings ++ [placed]) List.perm_append_comm,
      ← haround.clear_inOrder_iff hsorted hlength hcontent, ← hwrites, ← hpriority, priorityWrites,
      List.map_append]
    rfl
  · rw [← haround.clear_inAnyOrder_iff hsorted hlength hcontent, ← hwrites, ← hpriority]
    constructor
    · intro haccepted writes hperm
      have hcomp := congrFun (congrFun (List.eq_map_comp_perm fun card : Card =>
        (card.id, card.priority)) writes) siblings
      obtain ⟨order, rfl, horder⟩ := hcomp.mpr hperm
      exact (hall (placed :: order) (horder.cons placed)).mp (haccepted order horder)
    · intro hclear order horder
      exact (hall (placed :: order) (horder.cons placed)).mpr
        (hclear (priorityWrites order) (horder.map _))

end Accepted

/-! ### Samples -/

def seededStore (cards : List Card) : Store :=
  @Run.after Store Call (@execute polynomialBlake3) initSchema [⟨.pushBatch (singles cards), 0⟩]

def wideCards : List Card :=
  [sampleCard 3 ⟨3, by decide⟩, sampleCard 2 ⟨2, by decide⟩, sampleCard 1 ⟨1, one_mem_i64⟩]

def narrowCards : List Card :=
  [sampleCard 7 ⟨7, seven_mem_i64⟩, sampleCard 5 ⟨5, five_mem_i64⟩, sampleCard 4 ⟨4, by decide⟩,
    sampleCard 3 ⟨3, by decide⟩, sampleCard 1 ⟨-10, by decide⟩]

def placedCard (cards : List Card) (position : InsertPosition) : Card :=
  match placeCard (fun _ => 0) cards position with
  | .simple priority | .rebalanced priority _ => sampleCard 9 priority

def shiftedCards (cards : List Card) (position : InsertPosition) : List Card :=
  match placeCard (fun _ => 0) cards position with
  | .simple _ => []
  | .rebalanced _ shifted => (@buildShiftedVersions polynomialBlake3 shifted cards .epoch).getD []

theorem soundStore_wideCards : SoundStore (seededStore wideCards) := by
  have hbuilt : @BuiltRun polynomialBlake3 [⟨.pushBatch (singles wideCards), 0⟩] := by
    let _ := polynomialBlake3
    have htags : pushedTagIds [⟨.pushBatch (singles wideCards), 0⟩] = [] := by decide +kernel
    refine ⟨fun call hcall item hitem => ?_, by simp [htags]⟩
    rw [List.mem_singleton.mp hcall] at hitem
    simp only [Mutation.items, singles, wideCards, List.map_cons, List.map_nil, List.mem_cons,
      List.not_mem_nil, or_false] at hitem
    rcases hitem with rfl | rfl | rfl <;> exact sampleCard_built _ _
  exact @soundStore_run polynomialBlake3 _ hbuilt (by decide +kernel)

/-- With room to spare both layouts are accepted. -/
theorem rebalanced_accepted_sample :
    let _ := polynomialBlake3
    (∃ after, pushBatch (seededStore wideCards)
        (singles (shiftedCards wideCards (.at 1) ++ [placedCard wideCards (.at 1)])) 1 =
          .ok after) ∧
      ∀ order : List Card, order.Perm (shiftedCards wideCards (.at 1)) →
        ∃ after, pushBatch (seededStore wideCards)
          (singles (placedCard wideCards (.at 1) :: order)) 1 = .ok after := by
  intro _
  have hcards : ShowsLive (seededStore wideCards) wideCards := by
    refine ⟨?_, by simp [SortedDesc, wideCards, sampleCard, Card.first], by decide⟩
    have hentities : (seededStore wideCards).cards.entities = wideCards := by decide +kernel
    rw [hentities]
  have hplaced : Continues (seededStore wideCards) (placedCard wideCards (.at 1)) := by
    refine ⟨by decide +kernel, by decide +kernel, by decide +kernel, ?_, fun tag htag => ?_⟩
    · have hids : (seededStore wideCards).cards.versions.rows.all
          (fun row => row.entity.id ≠ (placedCard wideCards (.at 1)).id) = true := by decide +kernel
      exact fun row hrow hid => absurd hid (of_decide_eq_true (List.all_eq_true.mp hids row hrow))
    · have htags : (placedCard wideCards (.at 1)).tags = [] := by decide +kernel
      rw [htags] at htag
      exact absurd htag List.not_mem_nil
  obtain ⟨shifted, hplacement, hsiblings⟩ : ∃ shifted,
      placeCard (fun _ => 0) wideCards (.at 1) =
          .rebalanced (placedCard wideCards (.at 1)).priority shifted ∧
        buildShiftedVersions shifted (otherCards wideCards (placedCard wideCards (.at 1)).id)
          .epoch = some (shiftedCards wideCards (.at 1)) := by
    refine ⟨(packedRun wideCards 1).shifted, ?_, ?_⟩ <;> decide +kernel
  have hnew : ∀ card ∈ wideCards, card.id ≠ (placedCard wideCards (.at 1)).id := by
    have hids : wideCards.all (fun card => card.id ≠ (placedCard wideCards (.at 1)).id) = true := by
      decide +kernel
    exact fun card hcard => of_decide_eq_true (List.all_eq_true.mp hids card hcard)
  have hplacing : Placing (fun _ => 0) wideCards (placedCard wideCards (.at 1)).id (.at 1)
      (.rebalanced (placedCard wideCards (.at 1)).priority shifted) := by
    rw [← hplacement]
    exact .new (.at 1) hnew
  have haccepted := rebalanced_accepted_iff (fun _ => 0) soundStore_wideCards (by decide +kernel)
    hcards hplaced hplacing hsiblings 1
  exact ⟨haccepted.1.mpr (by decide +kernel), haccepted.2.mpr (by decide +kernel)⟩

/-- The highest shifted card is given the place of the next one, which still has it. -/
theorem not_rebalanced_accepted_narrow :
    let _ := polynomialBlake3
    let placed := placedCard narrowCards (.at 2)
    let siblings := shiftedCards narrowCards (.at 2)
    (seededStore narrowCards).cards.entities = narrowCards ∧
      placeCard (fun _ => 0) narrowCards (.at 2) = .rebalanced placed.priority
        [(5, ⟨4, by decide⟩), (4, ⟨-2, by decide⟩), (3, ⟨-5, by decide⟩)] ∧
      buildShiftedVersions [(5, ⟨4, by decide⟩), (4, ⟨-2, by decide⟩), (3, ⟨-5, by decide⟩)]
        narrowCards .epoch = some siblings ∧
      (pushBatch (seededStore narrowCards) (singles (siblings ++ [placed])) 1).map (fun _ => ()) =
        .error ⟨0, .domain (.duplicatePriority 4 ⟨4, by decide⟩)⟩ ∧
      (pushBatch (seededStore narrowCards) (singles (placed :: siblings)) 1).map (fun _ => ()) =
        .error ⟨1, .domain (.duplicatePriority 4 ⟨4, by decide⟩)⟩ := by
  decide +kernel

end BlazeList
