import Mathlib.Logic.Function.Basic
import Mathlib.Tactic.Common

/-!
# Keyed updates

A write to a keyed collection sets or removes the value of one key. A list of writes replayed on top
of its own result changes nothing, since every key it touches ends with its last write either way.
-/

universe u v w

namespace Overlay

variable {κ : Type u} {ν : Type v} {μ : Type w} [DecidableEq κ]

def apply (content : κ → Option ν) (write : κ × Option ν) : κ → Option ν :=
  Function.update content write.1 write.2

def applyAll (content : κ → Option ν) (writes : List (κ × Option ν)) : κ → Option ν :=
  writes.foldl apply content

@[simp]
theorem applyAll_nil (content : κ → Option ν) : applyAll content [] = content := rfl

@[simp]
theorem applyAll_cons (content : κ → Option ν) (write : κ × Option ν)
    (writes : List (κ × Option ν)) :
    applyAll content (write :: writes) = applyAll (apply content write) writes := rfl

theorem applyAll_append (content : κ → Option ν) (first second : List (κ × Option ν)) :
    applyAll content (first ++ second) = applyAll (applyAll content first) second :=
  List.foldl_append

/-- A fold whose steps each act as some writes acts as all of them. -/
theorem view_foldl {σ ι : Type*} {view : σ → κ → Option ν} {step : σ → ι → σ}
    {writes : ι → List (κ × Option ν)}
    (hstep : ∀ state item, view (step state item) = applyAll (view state) (writes item))
    (state : σ) (items : List ι) :
    view (items.foldl step state) = applyAll (view state) (items.flatMap writes) := by
  induction items generalizing state with
  | nil => rfl
  | cons item items ih =>
      rw [List.foldl_cons, ih, hstep, List.flatMap_cons, applyAll_append]

theorem applyAll_flatMap_congr {ι : Type*} {f g : ι → List (κ × Option ν)} {items : List ι}
    (h : ∀ item ∈ items, ∀ content, applyAll content (f item) = applyAll content (g item))
    (content : κ → Option ν) :
    applyAll content (items.flatMap f) = applyAll content (items.flatMap g) := by
  induction items generalizing content with
  | nil => rfl
  | cons item items ih =>
      rw [List.flatMap_cons, List.flatMap_cons, applyAll_append, applyAll_append,
        h item List.mem_cons_self, ih fun other hother => h other (List.mem_cons_of_mem item hother)]

/-- A function of the values passes through the writes. -/
theorem map_applyAll (f : ν → μ) (content : κ → Option ν) (writes : List (κ × Option ν)) :
    (fun key => (applyAll content writes key).map f) =
      applyAll (fun key => (content key).map f)
        (writes.map fun write => (write.1, write.2.map f)) := by
  induction writes generalizing content with
  | nil => rfl
  | cons write writes ih =>
      rw [applyAll_cons, ih, List.map_cons, applyAll_cons]
      congr 1
      funext key
      by_cases hkey : key = write.1 <;> simp [apply, hkey]

theorem applyAll_of_untouched {content : κ → Option ν} {writes : List (κ × Option ν)} {key : κ}
    (hkey : key ∉ writes.map Prod.fst) : applyAll content writes key = content key := by
  induction writes generalizing content with
  | nil => rfl
  | cons write writes ih =>
      rw [List.map_cons, List.mem_cons, not_or] at hkey
      rw [applyAll_cons, ih hkey.2, apply, Function.update_of_ne hkey.1]

/-- A key that is touched ends with one of the values written to it. -/
theorem exists_write {writes : List (κ × Option ν)} {key : κ} (content : κ → Option ν)
    (hkey : key ∈ writes.map Prod.fst) :
    ∃ write ∈ writes, write.1 = key ∧ applyAll content writes key = write.2 := by
  induction writes generalizing content with
  | nil => cases hkey
  | cons write writes ih =>
      by_cases hlater : key ∈ writes.map Prod.fst
      · obtain ⟨last, hlast, hwrite⟩ := ih (apply content write) hlater
        exact ⟨last, List.mem_cons_of_mem write hlast, hwrite⟩
      · have hfirst : key = write.1 := (List.mem_cons.mp hkey).resolve_right hlater
        refine ⟨write, List.mem_cons_self, hfirst.symm, ?_⟩
        rw [applyAll_cons, applyAll_of_untouched hlater, apply, hfirst, Function.update_self]

/-- The result depends on the start only through the keys that no write touches. -/
theorem applyAll_congr {left right : κ → Option ν} {writes : List (κ × Option ν)}
    (hagree : ∀ key, key ∉ writes.map Prod.fst → left key = right key) :
    applyAll left writes = applyAll right writes := by
  induction writes generalizing left right with
  | nil =>
      funext key
      exact hagree key (by simp)
  | cons write writes ih =>
      rw [applyAll_cons, applyAll_cons]
      refine ih fun key hkey => ?_
      by_cases heq : key = write.1
      · subst heq
        simp [apply]
      · rw [apply, apply, Function.update_of_ne heq, Function.update_of_ne heq]
        exact hagree key (by simp [heq, hkey])

/-- Replaying the writes over their own result changes nothing. -/
theorem applyAll_applyAll (content : κ → Option ν) (writes : List (κ × Option ν)) :
    applyAll (applyAll content writes) writes = applyAll content writes :=
  applyAll_congr fun _ hkey => applyAll_of_untouched hkey

end Overlay
