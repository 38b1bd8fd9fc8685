import Mathlib.Data.List.Nodup
import Mathlib.Logic.Function.Basic

/-!
# Unique values that change one by one

Keys hold values, no value twice. A list of writes gives new values to some keys in order, and a write
is refused while another key holds its value. Whether all of them go through depends on the old values,
the new values and the order.
-/

universe u v

namespace Reassign

variable {κ : Type u} {ν : Type v} [DecidableEq κ]

def Free (content : κ → Option ν) (write : κ × ν) : Prop :=
  ∀ key, key ≠ write.1 → content key ≠ some write.2

def Clear (content : κ → Option ν) : List (κ × ν) → Prop
  | [] => True
  | write :: rest =>
      Free content write ∧ Clear (Function.update content write.1 (some write.2)) rest

def Outside (content : κ → Option ν) (writes : List (κ × ν)) (value : ν) : Prop :=
  ∀ key, key ∉ writes.map Prod.fst → content key ≠ some value

/-- `later` is written after `earlier`, and stands in its way neither before nor after. -/
def Passes (content : κ → Option ν) (earlier later : κ × ν) : Prop :=
  content later.1 ≠ some earlier.2 ∧ later.2 ≠ earlier.2

/-- A list of writes to distinct keys goes through when no key outside it holds one of the values, and
no later write stands in the way of an earlier one. -/
theorem clear_iff {content : κ → Option ν} {writes : List (κ × ν)}
    (hnodup : (writes.map Prod.fst).Nodup) :
    Clear content writes ↔
      (∀ write ∈ writes, Outside content writes write.2) ∧ writes.Pairwise (Passes content) := by
  induction writes generalizing content with
  | nil => simp [Clear]
  | cons write rest ih =>
      obtain ⟨hfresh, hrest⟩ := List.nodup_cons.mp hnodup
      -- the first write changes nothing at the keys of the others
      have hcontent : ∀ other ∈ rest,
          Function.update content write.1 (some write.2) other.1 = content other.1 := by
        intro other hother
        apply Function.update_of_ne
        intro heq
        exact hfresh (heq ▸ List.mem_map_of_mem hother)
      have hpasses : rest.Pairwise (Passes (Function.update content write.1 (some write.2))) ↔
          rest.Pairwise (Passes content) := by
        refine List.Pairwise.iff_of_mem fun {earlier later} _ hlater => ?_
        rw [Passes, Passes, hcontent later hlater]
      rw [Clear, ih hrest, hpasses, List.pairwise_cons, List.forall_mem_cons]
      constructor
      · rintro ⟨hfree, houtside, hpairs⟩
        refine ⟨⟨fun key hkey => hfree key ?_, fun other hother key hkey => ?_⟩,
          fun later hlater => ⟨?_, ?_⟩, hpairs⟩
        · exact fun heq => hkey (heq ▸ List.mem_cons_self)
        · have hne : key ≠ write.1 := fun heq => hkey (heq ▸ List.mem_cons_self)
          have hvalue := houtside other hother key fun hmem => hkey (List.mem_cons_of_mem _ hmem)
          rwa [Function.update_of_ne hne] at hvalue
        · apply hfree
          exact fun heq => hfresh (heq ▸ List.mem_map_of_mem hlater)
        · intro heq
          have hvalue := houtside later hlater write.1 hfresh
          rw [Function.update_self] at hvalue
          exact hvalue (congrArg some heq.symm)
      · rintro ⟨⟨hfirst, houtside⟩, hfirstPasses, hpairs⟩
        refine ⟨fun key hkey => ?_, fun other hother key hkey => ?_, hpairs⟩
        · by_cases hmem : key ∈ rest.map Prod.fst
          · obtain ⟨later, hlater, rfl⟩ := List.mem_map.mp hmem
            exact (hfirstPasses later hlater).1
          · apply hfirst
            rw [List.map_cons, List.mem_cons, not_or]
            exact ⟨hkey, hmem⟩
        · by_cases heq : key = write.1
          · rw [heq, Function.update_self]
            exact fun h => (hfirstPasses other hother).2 (Option.some.inj h).symm
          · rw [Function.update_of_ne heq]
            apply houtside other hother
            rw [List.map_cons, List.mem_cons, not_or]
            exact ⟨heq, hkey⟩

/-- Pairwise in every order is pairwise without order. -/
theorem forall_perm_pairwise_iff {α : Type*} {r : α → α → Prop} {l : List α} (hnodup : l.Nodup) :
    (∀ l' : List α, l'.Perm l → l'.Pairwise r) ↔ ∀ a ∈ l, ∀ b ∈ l, a ≠ b → r a b := by
  constructor
  · intro hperms a ha b hb hne
    obtain ⟨before, after, rfl⟩ := List.append_of_mem ha
    have hb' : b ∈ before ++ after := by
      rw [List.mem_append, List.mem_cons] at hb
      rw [List.mem_append]
      exact hb.imp_right fun h => h.resolve_left hne.symm
    have hpairs := hperms (a :: (before ++ after)) List.perm_middle.symm
    exact (List.pairwise_cons.mp hpairs).1 b hb'
  · intro hpairs l' hperm
    refine (hperm.nodup_iff.mpr hnodup).pairwise_of_forall_ne fun a ha b hb hne => ?_
    exact hpairs a (hperm.mem_iff.mp ha) b (hperm.mem_iff.mp hb) hne

omit [DecidableEq κ] in
theorem Outside.congr {content : κ → Option ν} {writes others : List (κ × ν)} {value : ν}
    (h : Outside content writes value) (hmem : ∀ write, write ∈ writes → write ∈ others) :
    Outside content others value := by
  intro key hkey
  apply h
  intro hwritten
  obtain ⟨write, hwrite, rfl⟩ := List.mem_map.mp hwritten
  exact hkey (List.mem_map_of_mem (hmem write hwrite))

/-- One write first, and the others after it in any order. -/
theorem forall_perm_clear_iff {content : κ → Option ν} {write : κ × ν} {rest : List (κ × ν)}
    (hnodup : ((write :: rest).map Prod.fst).Nodup) :
    (∀ others, others.Perm rest → Clear content (write :: others)) ↔
      (∀ other ∈ write :: rest, Outside content (write :: rest) other.2) ∧
        (∀ later ∈ rest, Passes content write later) ∧
        ∀ earlier ∈ rest, ∀ later ∈ rest, earlier ≠ later → Passes content earlier later := by
  have hclear : ∀ others, others.Perm rest → (Clear content (write :: others) ↔
      (∀ other ∈ write :: rest, Outside content (write :: rest) other.2) ∧
        (∀ later ∈ rest, Passes content write later) ∧ others.Pairwise (Passes content)) := by
    intro others hperm
    have hcons : (write :: others).Perm (write :: rest) := hperm.cons write
    have houtside : (∀ other ∈ write :: others, Outside content (write :: others) other.2) ↔
        ∀ other ∈ write :: rest, Outside content (write :: rest) other.2 := by
      constructor
      · intro h other hother
        exact (h other (hcons.mem_iff.mpr hother)).congr fun w => hcons.mem_iff.mp
      · intro h other hother
        exact (h other (hcons.mem_iff.mp hother)).congr fun w => hcons.mem_iff.mpr
    rw [clear_iff ((hcons.map Prod.fst).nodup_iff.mpr hnodup), houtside, List.pairwise_cons]
    simp only [hperm.mem_iff]
  rw [← forall_perm_pairwise_iff (List.Nodup.of_map Prod.fst (List.nodup_cons.mp hnodup).2)]
  constructor
  · intro h
    obtain ⟨houtside, hfirst, -⟩ := (hclear rest (List.Perm.refl rest)).mp (h rest (List.Perm.refl rest))
    exact ⟨houtside, hfirst, fun others hperm => ((hclear others hperm).mp (h others hperm)).2.2⟩
  · rintro ⟨houtside, hfirst, hperms⟩ others hperm
    exact (hclear others hperm).mpr ⟨houtside, hfirst, hperms others hperm⟩

end Reassign
