import BlazeList.Lib.Search
import Mathlib.Data.Finset.Card
import Mathlib.Order.Lattice.Nat

/-!
# Breadth-first search

A queue of discovered nodes is worked off from the front, and what a node leads to is put at its end
unless it was discovered before. The nodes come out in the order of their distance from the start.
-/

universe u

namespace BreadthFirst

variable {α : Type u}

/-! ### Distance -/

section

variable (succ : α → List α) (start : α)

inductive Steps : α → Nat → Prop where
  | refl : Steps start 0
  | tail {a b : α} {n : Nat} (ha : Steps a n) (hb : b ∈ succ a) : Steps b (n + 1)

noncomputable def distance (a : α) : Nat := sInf {n | Steps succ start a n}

end

variable {succ : α → List α} {start a b : α} {n : Nat}

theorem Steps.distance_le (h : Steps succ start a n) : distance succ start a ≤ n := Nat.sInf_le h

theorem Steps.distance (h : Steps succ start a n) : Steps succ start a (distance succ start a) :=
  Nat.sInf_mem (s := {n | Steps succ start a n}) ⟨n, h⟩

theorem distance_start : distance succ start start = 0 := Nat.le_zero.mp Steps.refl.distance_le

theorem exists_steps_iff :
    (∃ n, Steps succ start a n) ↔ Relation.ReflTransGen (Search.Edge succ) start a := by
  constructor
  · rintro ⟨n, h⟩
    induction h with
    | refl => exact .refl
    | tail _ hb ih => exact ih.tail hb
  · intro h
    induction h with
    | refl => exact ⟨0, .refl⟩
    | tail _ hb ih =>
        obtain ⟨n, hn⟩ := ih
        exact ⟨n + 1, hn.tail hb⟩

/-! ### The frontier -/

/-- What holds between two rounds: the nodes so far, first those that were expanded and then those in the
queue, are in the order of their distance, and the queue spans at most two distances. -/
structure Frontier (succ : α → List α) (start : α) (expanded queue : List α) : Prop where
  nodup : (expanded ++ queue).Nodup
  start_mem : start ∈ expanded ++ queue
  sound : ∀ a ∈ expanded ++ queue, ∃ n, Steps succ start a n
  closed : ∀ a ∈ expanded, ∀ b ∈ succ a, b ∈ expanded ++ queue
  sorted : (expanded ++ queue).Pairwise fun a b => distance succ start a ≤ distance succ start b
  span : ∀ first rest, queue = first :: rest →
    ∀ b ∈ rest, distance succ start b ≤ distance succ start first + 1

namespace Frontier

variable {expanded rest fresh : List α}

theorem init : Frontier succ start [] [start] where
  nodup := List.nodup_singleton start
  start_mem := List.mem_singleton_self start
  sound a ha := ⟨0, List.mem_singleton.mp ha ▸ .refl⟩
  closed a ha := absurd ha List.not_mem_nil
  sorted := List.pairwise_singleton _ start
  span first rest hqueue b hb := by
    obtain ⟨-, rfl⟩ := List.cons.inj hqueue
    exact absurd hb List.not_mem_nil

theorem mem_expanded_of_le (h : Frontier succ start expanded (a :: rest)) (hb : b ∈ expanded ++ a :: rest)
    (hle : distance succ start b ≤ n) (hn : n < distance succ start a) : b ∈ expanded := by
  rcases List.mem_append.mp hb with hexpanded | hqueue
  · exact hexpanded
  · have hfront : distance succ start a ≤ distance succ start b := by
      rcases List.mem_cons.mp hqueue with rfl | hrest
      · exact le_rfl
      · exact (List.pairwise_cons.mp (List.pairwise_append.mp h.sorted).2.1).1 b hrest
    exact absurd (hfront.trans hle) (Nat.not_le_of_lt hn)

/-- Whatever is nearer than the front of the queue was expanded before it. -/
theorem mem_expanded (h : Frontier succ start expanded (a :: rest)) (hb : Steps succ start b n)
    (hn : n < distance succ start a) : b ∈ expanded := by
  induction hb with
  | refl => exact h.mem_expanded_of_le h.start_mem distance_start.le hn
  | tail hprev hb ih =>
      have hpath := hprev.tail hb
      exact h.mem_expanded_of_le (h.closed _ (ih (Nat.lt_of_succ_lt hn)) _ hb) hpath.distance_le hn

/-- A node that is discovered now is one edge farther than the node that leads to it. -/
theorem distance_eq (h : Frontier succ start expanded (a :: rest)) (hb : b ∈ succ a)
    (hfresh : b ∉ expanded ++ a :: rest) : distance succ start b = distance succ start a + 1 := by
  obtain ⟨n, ha⟩ := h.sound a (List.mem_append_right expanded List.mem_cons_self)
  have hpath := (ha.distance.tail hb).distance
  apply le_antisymm (ha.distance.tail hb).distance_le
  by_contra hlt
  generalize hd : distance succ start b = d at hpath hlt
  cases hpath with
  | refl => exact hfresh h.start_mem
  | tail hprev hb => exact hfresh (h.closed _ (h.mem_expanded hprev (by omega)) _ hb)

/-- The front of the queue is expanded, and what it discovers goes to the end of the queue. -/
theorem expand (h : Frontier succ start expanded (a :: rest)) (hnodup : fresh.Nodup)
    (hfresh : ∀ b, b ∈ fresh ↔ b ∈ succ a ∧ b ∉ expanded ++ a :: rest) :
    Frontier succ start (expanded ++ [a]) (rest ++ fresh) := by
  have hall : expanded ++ [a] ++ (rest ++ fresh) = expanded ++ a :: rest ++ fresh := by simp
  have hdistance : ∀ b ∈ fresh, distance succ start b = distance succ start a + 1 := by
    intro b hb
    exact h.distance_eq ((hfresh b).mp hb).1 ((hfresh b).mp hb).2
  have hsplit := List.pairwise_append.mp h.sorted
  have hqueue : ∀ b ∈ rest, distance succ start a ≤ distance succ start b :=
    (List.pairwise_cons.mp hsplit.2.1).1
  have hbefore : ∀ b ∈ expanded ++ a :: rest, distance succ start b ≤ distance succ start a + 1 := by
    intro b hb
    rcases List.mem_append.mp hb with hexpanded | hmem
    · exact (hsplit.2.2 b hexpanded a List.mem_cons_self).trans (Nat.le_succ _)
    · rcases List.mem_cons.mp hmem with rfl | hrest
      · exact Nat.le_succ _
      · exact h.span a rest rfl b hrest
  refine ⟨?_, ?_, ?_, ?_, ?_, ?_⟩
  · rw [hall]
    exact h.nodup.append hnodup fun b hb hnew => ((hfresh b).mp hnew).2 hb
  · rw [hall]
    exact List.mem_append_left fresh h.start_mem
  · rw [hall]
    intro b hb
    rcases List.mem_append.mp hb with hold | hnew
    · exact h.sound b hold
    · obtain ⟨n, ha⟩ := h.sound a (List.mem_append_right expanded List.mem_cons_self)
      exact ⟨n + 1, ha.tail ((hfresh b).mp hnew).1⟩
  · rw [hall]
    intro x hx b hb
    by_cases hold : b ∈ expanded ++ a :: rest
    · exact List.mem_append_left fresh hold
    · rcases List.mem_append.mp hx with hexpanded | hlast
      · exact absurd (h.closed x hexpanded b hb) hold
      · obtain rfl := List.mem_singleton.mp hlast
        exact List.mem_append_right _ ((hfresh b).mpr ⟨hb, hold⟩)
  · rw [hall]
    refine List.pairwise_append.mpr ⟨h.sorted, ?_, fun x hx b hb => ?_⟩
    · refine List.pairwise_of_forall_mem_list fun x hx b hb => ?_
      rw [hdistance x hx, hdistance b hb]
    · rw [hdistance b hb]
      exact hbefore x hx
  · intro first later hrest b hb
    have hfirst : distance succ start a ≤ distance succ start first := by
      rcases List.mem_append.mp (hrest ▸ List.mem_cons_self : first ∈ rest ++ fresh) with hold | hnew
      · exact hqueue first hold
      · exact (Nat.le_succ _).trans (hdistance first hnew).ge
    refine le_trans ?_ (Nat.succ_le_succ hfirst)
    rcases List.mem_append.mp (hrest ▸ List.mem_cons_of_mem first hb : b ∈ rest ++ fresh) with hold | hnew
    · exact h.span a rest rfl b hold
    · exact (hdistance b hnew).le

/-- With the queue empty, what was expanded is all that there is a path to. -/
theorem mem_iff (h : Frontier succ start expanded []) :
    a ∈ expanded ↔ Relation.ReflTransGen (Search.Edge succ) start a := by
  rw [← exists_steps_iff]
  have hall := List.append_nil expanded
  constructor
  · intro ha
    exact h.sound a (hall.symm ▸ ha)
  · rintro ⟨n, hn⟩
    induction hn with
    | refl => exact hall ▸ h.start_mem
    | tail _ hb ih => exact hall ▸ h.closed _ ih _ hb

end Frontier

/-! ### The queue -/

section

variable [DecidableEq α]

def enqueue (state : Finset α × List α) (b : α) : Finset α × List α :=
  if b ∈ state.1 then state else (insert b state.1, state.2 ++ [b])

theorem exists_foldl_enqueue (bs : List α) (state : Finset α × List α) :
    ∃ fresh, bs.foldl enqueue state = (state.1 ∪ fresh.toFinset, state.2 ++ fresh) ∧ fresh.Nodup ∧
      ∀ b, b ∈ fresh ↔ b ∈ bs ∧ b ∉ state.1 := by
  induction bs generalizing state with
  | nil => exact ⟨[], by simp, .nil, by simp⟩
  | cons first bs ih =>
      rw [List.foldl_cons, enqueue]
      by_cases hfirst : first ∈ state.1
      · rw [if_pos hfirst]
        obtain ⟨fresh, hfold, hnodup, hfresh⟩ := ih state
        refine ⟨fresh, hfold, hnodup, fun b => ?_⟩
        rw [hfresh, List.mem_cons]
        constructor
        · exact fun ⟨hb, hnot⟩ => ⟨.inr hb, hnot⟩
        · exact fun ⟨hb, hnot⟩ => ⟨hb.resolve_left fun heq => hnot (heq ▸ hfirst), hnot⟩
      · rw [if_neg hfirst]
        obtain ⟨fresh, hfold, hnodup, hfresh⟩ := ih (insert first state.1, state.2 ++ [first])
        have hnot : first ∉ fresh := fun hmem => ((hfresh first).mp hmem).2 (Finset.mem_insert_self _ _)
        refine ⟨first :: fresh, ?_, List.nodup_cons.mpr ⟨hnot, hnodup⟩, fun b => ?_⟩
        · rw [hfold, List.toFinset_cons, Finset.insert_union, Finset.union_insert, List.append_assoc]
          rfl
        · rw [List.mem_cons, hfresh, Finset.mem_insert, List.mem_cons, not_or]
          constructor
          · rintro (rfl | ⟨hb, -, hstate⟩)
            · exact ⟨.inl rfl, hfirst⟩
            · exact ⟨.inr hb, hstate⟩
          · rintro ⟨hb, hstate⟩
            by_cases heq : b = first
            · exact .inl heq
            · exact .inr ⟨hb.resolve_left heq, heq, hstate⟩

/-- A round takes a node out of the queue, and each node that it puts in is one node less to discover. -/
theorem measure_lt {nodes visited : Finset α} {a : α} {rest fresh : List α} (hnodup : fresh.Nodup)
    (hnodes : ∀ b ∈ fresh, b ∈ nodes) (hvisited : ∀ b ∈ fresh, b ∉ visited) :
    (nodes \ (visited ∪ fresh.toFinset)).card + (rest ++ fresh).length <
      (nodes \ visited).card + (a :: rest).length := by
  have hsub : fresh.toFinset ⊆ nodes \ visited := by
    intro b hb
    rw [List.mem_toFinset] at hb
    exact Finset.mem_sdiff.mpr ⟨hnodes b hb, hvisited b hb⟩
  have hcard : (nodes \ (visited ∪ fresh.toFinset)).card + fresh.length = (nodes \ visited).card := by
    have hsdiff : nodes \ (visited ∪ fresh.toFinset) = (nodes \ visited) \ fresh.toFinset :=
      sdiff_sdiff_left.symm
    rw [hsdiff, ← List.toFinset_card_of_nodup hnodup]
    exact Finset.card_sdiff_add_card_eq_card hsub
  rw [List.length_append, List.length_cons]
  omega

end

end BreadthFirst
