import Mathlib.Data.List.Basic
import Mathlib.Data.Set.Image
import Mathlib.InformationTheory.Coding.UniquelyDecodable
import Mathlib.Tactic.Common

/-!
# Prefix codes

Encodings that can be read off the front of a longer string. A record that is written as the codes of
its fields, one after the other, is read back field by field.
-/

namespace BlazeList

open InformationTheory

variable {α β γ : Type*}

/-- The code of a valid value in front of a string determines the value and the string. -/
def PrefixFree (valid : Set α) (encode : α → List β) : Prop :=
  ∀ ⦃a : α⦄, a ∈ valid → ∀ ⦃b : α⦄, b ∈ valid → ∀ ⦃s t : List β⦄,
    encode a ++ s = encode b ++ t → a = b ∧ s = t

namespace PrefixFree

variable {valid : Set α} {encode : α → List β}

theorem injOn (hencode : PrefixFree valid encode) : Set.InjOn encode valid := by
  intro a ha b hb heq
  have happend : encode a ++ [] = encode b ++ [] := by rw [heq]
  exact (hencode ha hb happend).1

/-- Codes of one length that differ are prefix-free. -/
theorem of_length {n : ℕ} (hlength : ∀ a ∈ valid, (encode a).length = n)
    (hinjective : Set.InjOn encode valid) : PrefixFree valid encode := by
  intro a ha b hb s t heq
  have hsame : (encode a).length = (encode b).length := by rw [hlength a ha, hlength b hb]
  obtain ⟨hcode, hrest⟩ := List.append_inj heq hsame
  exact ⟨hinjective ha hb hcode, hrest⟩

theorem comp (hencode : PrefixFree valid encode) {f : γ → α} {domain : Set γ}
    (hmaps : Set.MapsTo f domain valid) (hinjective : Set.InjOn f domain) :
    PrefixFree domain (fun c => encode (f c)) := by
  intro a ha b hb s t heq
  obtain ⟨hf, hrest⟩ := hencode (hmaps ha) (hmaps hb) heq
  exact ⟨hinjective ha hb hf, hrest⟩

/-- A body of no fixed length, with its size in front of it. -/
theorem sized {size : α → ℕ} {sizes : Set ℕ} {code : ℕ → List β} (hcode : PrefixFree sizes code)
    (hsizes : Set.MapsTo size valid sizes)
    (hlength : ∀ ⦃a⦄, a ∈ valid → ∀ ⦃b⦄, b ∈ valid → size a = size b →
      (encode a).length = (encode b).length)
    (hinjective : Set.InjOn encode valid) :
    PrefixFree valid (fun a => code (size a) ++ encode a) := by
  intro a ha b hb s t heq
  dsimp only at heq
  rw [List.append_assoc, List.append_assoc] at heq
  obtain ⟨hsize, hbody⟩ := hcode (hsizes ha) (hsizes hb) heq
  obtain ⟨hencode, hrest⟩ := List.append_inj hbody (hlength ha hb hsize)
  exact ⟨hinjective ha hb hencode, hrest⟩

/-- A mark says whether a value follows. -/
theorem marked (hencode : PrefixFree valid encode) {absent present : β} (hmark : absent ≠ present) :
    PrefixFree {value : Option α | ∀ a ∈ value, a ∈ valid}
      (fun value => value.elim [absent] fun a => present :: encode a) := by
  intro a ha b hb s t heq
  cases a with
  | none =>
      cases b with
      | none => exact ⟨rfl, List.append_cancel_left heq⟩
      | some b => exact absurd (List.cons.inj heq).1 hmark
  | some a =>
      cases b with
      | none => exact absurd (List.cons.inj heq).1.symm hmark
      | some b =>
          obtain ⟨hvalue, hrest⟩ := hencode (ha a rfl) (hb b rfl) (List.cons.inj heq).2
          exact ⟨congrArg some hvalue, hrest⟩

end PrefixFree

/-- Words of one length can be told apart in a concatenation. -/
theorem uniquelyDecodable_of_length {words : Set (List β)} {n : ℕ} (hn : 0 < n)
    (hlength : ∀ word ∈ words, word.length = n) : UniquelyDecodable words := by
  intro left
  induction left with
  | nil =>
      intro right _ hright heq
      cases right with
      | nil => rfl
      | cons word rest =>
          have hword : word.length = n := hlength word (hright word List.mem_cons_self)
          have hempty := congrArg List.length heq
          simp only [List.flatten_nil, List.length_nil, List.flatten_cons,
            List.length_append] at hempty
          omega
  | cons first left ih =>
      intro right hleft hright heq
      have hfirst : first.length = n := hlength first (hleft first List.mem_cons_self)
      cases right with
      | nil =>
          have hempty := congrArg List.length heq
          simp only [List.flatten_nil, List.length_nil, List.flatten_cons,
            List.length_append] at hempty
          omega
      | cons word rest =>
          have hword : word.length = n := hlength word (hright word List.mem_cons_self)
          rw [List.flatten_cons, List.flatten_cons] at heq
          obtain ⟨rfl, hrest⟩ := List.append_inj heq (hfirst.trans hword.symm)
          have htail : left = rest :=
            ih rest (fun w hw => hleft w (List.mem_cons_of_mem _ hw))
              (fun w hw => hright w (List.mem_cons_of_mem _ hw)) hrest
          rw [htail]

theorem flatMap_injective_of_length {encode : α → List β} {n : ℕ} (hn : 0 < n)
    (hlength : ∀ a, (encode a).length = n) (hinjective : Function.Injective encode) :
    Function.Injective (List.flatMap encode) := by
  intro left right heq
  have hwords : UniquelyDecodable (Set.range encode) :=
    uniquelyDecodable_of_length hn (Set.forall_mem_range.mpr hlength)
  have hmap : left.map encode = right.map encode := by
    apply hwords
    · simp
    · simp
    · rw [← List.flatMap_def, ← List.flatMap_def]
      exact heq
  exact List.map_injective_iff.mpr hinjective hmap

theorem length_flatMap_of_length {encode : α → List β} {n : ℕ}
    (hlength : ∀ a, (encode a).length = n) (values : List α) :
    (values.flatMap encode).length = n * values.length := by
  induction values with
  | nil => simp
  | cons first rest ih =>
      rw [List.flatMap_cons, List.length_append, hlength, ih, List.length_cons]
      rw [Nat.mul_succ, Nat.add_comm]

end BlazeList
