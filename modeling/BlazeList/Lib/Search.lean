import Mathlib.Data.Finset.Basic
import Mathlib.Algebra.BigOperators.Group.Finset.Basic
import Mathlib.Algebra.Ring.Nat
import Mathlib.Logic.Relation
import Mathlib.Logic.Function.Basic
import Mathlib.Order.Bounds.Defs
import Mathlib.Tactic.Common

/-!
# Graph search

A graph is given by its successor lists. Two searches are analysed by the invariant that each of
their steps keeps: a worklist that collects what is reachable, and a depth-first walk in three
colours that looks for a cycle. Neither invariant fixes how the visited set, the colours or the stack
are stored.
-/

universe u

namespace Search

variable {α : Type u} (succ : α → List α)

def Edge (a b : α) : Prop := b ∈ succ a

def ReachableFrom (roots : List α) (b : α) : Prop :=
  ∃ a ∈ roots, Relation.ReflTransGen (Edge succ) a b

def Closed (nodes : Set α) : Prop := ∀ a ∈ nodes, ∀ b ∈ succ a, b ∈ nodes

def Acyclic : Prop := ∀ a, ¬ Relation.TransGen (Edge succ) a a

/-- A simple cycle, written with its start repeated at the end. -/
structure IsCycle (cycle : List α) : Prop where
  two_le : 2 ≤ cycle.length
  closes : cycle.head? = cycle.getLast?
  edges : cycle.IsChain (Edge succ)
  nodup : cycle.dropLast.Nodup

variable {succ}

theorem IsCycle.not_acyclic {cycle : List α} (h : IsCycle succ cycle) : ¬ Acyclic succ := by
  obtain ⟨a, b, rest, rfl⟩ : ∃ a b rest, cycle = a :: b :: rest := by
    match cycle, h.two_le with
    | a :: b :: rest, _ => exact ⟨a, b, rest, rfl⟩
  have hlast : (b :: rest).getLast (List.cons_ne_nil b rest) = a := by
    have hcloses := h.closes
    rw [List.head?_cons, List.getLast?_cons_cons,
      List.getLast?_eq_some_getLast (List.cons_ne_nil b rest)] at hcloses
    exact (Option.some.inj hcloses).symm
  obtain ⟨hedge, hchain⟩ := List.isChain_cons_cons.mp h.edges
  intro hacyclic
  apply hacyclic a
  exact .head' hedge (List.relationReflTransGen_of_exists_isChain_cons rest hchain hlast)

theorem ReachableFrom.of_mem {roots : List α} {a : α} (ha : a ∈ roots) :
    ReachableFrom succ roots a :=
  ⟨a, ha, .refl⟩

theorem ReachableFrom.tail {roots : List α} {a b : α} (ha : ReachableFrom succ roots a)
    (hb : b ∈ succ a) : ReachableFrom succ roots b := by
  obtain ⟨root, hroot, hpath⟩ := ha
  exact ⟨root, hroot, hpath.tail hb⟩

theorem Closed.mem_of_reflTransGen {nodes : Set α} (hclosed : Closed succ nodes) {a b : α}
    (ha : a ∈ nodes) (hpath : Relation.ReflTransGen (Edge succ) a b) : b ∈ nodes := by
  induction hpath with
  | refl => exact ha
  | tail _ hedge ih => exact hclosed _ ih _ hedge

/-- What is reachable is the least closed set that holds the roots. -/
theorem Closed.mem_of_reachableFrom {nodes : Set α} (hclosed : Closed succ nodes)
    {roots : List α} (hroots : ∀ a ∈ roots, a ∈ nodes) {b : α}
    (hb : ReachableFrom succ roots b) : b ∈ nodes := by
  obtain ⟨a, ha, hpath⟩ := hb
  exact hclosed.mem_of_reflTransGen (hroots a ha) hpath

theorem isLeast_reachableFrom (roots : List α) :
    IsLeast {nodes : Set α | (∀ a ∈ roots, a ∈ nodes) ∧ Closed succ nodes}
      {b | ReachableFrom succ roots b} := by
  refine ⟨⟨fun a ha => .of_mem ha, fun a ha b hb => ?_⟩, fun nodes hnodes b hb => ?_⟩
  · exact ReachableFrom.tail ha hb
  · exact hnodes.2.mem_of_reachableFrom hnodes.1 hb

/-- A subgraph of an acyclic graph is acyclic. -/
theorem Acyclic.mono {succ' : α → List α} (hacyclic : Acyclic succ)
    (hsub : ∀ a b, b ∈ succ' a → b ∈ succ a) : Acyclic succ' :=
  fun a hcycle => hacyclic a (Relation.TransGen.mono (fun x y => hsub x y) a a hcycle)

/-! ### The worklist -/

/-- What holds between two rounds of a worklist search: every root and every successor of a visited
node is visited or waiting, and nothing else is. -/
structure Worklist (succ : α → List α) (roots : List α) (visited : Set α) (stack : List α) :
    Prop where
  roots_mem : ∀ a ∈ roots, a ∈ visited ∨ a ∈ stack
  edges_mem : ∀ a ∈ visited, ∀ b ∈ succ a, b ∈ visited ∨ b ∈ stack
  sound : ∀ a, a ∈ visited ∨ a ∈ stack → ReachableFrom succ roots a

namespace Worklist

variable {roots stack pushed : List α} {visited : Set α} {a : α}

theorem start (hstack : ∀ a, a ∈ stack ↔ a ∈ roots) : Worklist succ roots ∅ stack where
  roots_mem a ha := .inr ((hstack a).mpr ha)
  edges_mem a ha := absurd ha (Set.notMem_empty a)
  sound a ha := .of_mem ((hstack a).mp (ha.resolve_left (Set.notMem_empty a)))

/-- A node that was visited before is dropped. -/
theorem skip (h : Worklist succ roots visited (a :: stack)) (ha : a ∈ visited) :
    Worklist succ roots visited stack where
  roots_mem b hb := by
    rcases h.roots_mem b hb with hvisited | hmem
    · exact .inl hvisited
    · rcases List.mem_cons.mp hmem with rfl | hrest
      · exact .inl ha
      · exact .inr hrest
  edges_mem x hx b hb := by
    rcases h.edges_mem x hx b hb with hvisited | hmem
    · exact .inl hvisited
    · rcases List.mem_cons.mp hmem with rfl | hrest
      · exact .inl ha
      · exact .inr hrest
  sound b hb := h.sound b (hb.imp_right (List.mem_cons_of_mem a))

/-- A fresh node is visited, and those of its successors that are not visited yet wait. -/
theorem visit (h : Worklist succ roots visited (a :: stack))
    (hsub : ∀ b ∈ pushed, b ∈ succ a)
    (hall : ∀ b ∈ succ a, b ∈ insert a visited ∨ b ∈ pushed) :
    Worklist succ roots (insert a visited) (pushed ++ stack) where
  roots_mem b hb := by
    rcases h.roots_mem b hb with hvisited | hmem
    · exact .inl (Set.mem_insert_of_mem a hvisited)
    · rcases List.mem_cons.mp hmem with rfl | hrest
      · exact .inl (Set.mem_insert b visited)
      · exact .inr (List.mem_append_right pushed hrest)
  edges_mem x hx b hb := by
    rcases Set.mem_insert_iff.mp hx with rfl | hvisited
    · exact (hall b hb).imp_right (List.mem_append_left stack)
    · rcases h.edges_mem x hvisited b hb with hb | hmem
      · exact .inl (Set.mem_insert_of_mem a hb)
      · rcases List.mem_cons.mp hmem with rfl | hrest
        · exact .inl (Set.mem_insert b visited)
        · exact .inr (List.mem_append_right pushed hrest)
  sound b hb := by
    have ha := h.sound a (.inr List.mem_cons_self)
    rcases hb with hvisited | hmem
    · rcases Set.mem_insert_iff.mp hvisited with rfl | hvisited
      · exact ha
      · exact h.sound b (.inl hvisited)
    · rcases List.mem_append.mp hmem with hpushed | hrest
      · exact ha.tail (hsub b hpushed)
      · exact h.sound b (.inr (List.mem_cons_of_mem a hrest))

/-- An empty worklist leaves exactly the reachable nodes. -/
theorem mem_iff (h : Worklist succ roots visited []) (b : α) :
    b ∈ visited ↔ ReachableFrom succ roots b := by
  constructor
  · exact fun hb => h.sound b (.inl hb)
  · refine Closed.mem_of_reachableFrom (fun x hx y hy => ?_) fun x hx => ?_
    · exact (h.edges_mem x hx y hy).resolve_right List.not_mem_nil
    · exact (h.roots_mem x hx).resolve_right List.not_mem_nil

end Worklist

/-! ### The depth-first walk -/

inductive Color where
  | white
  | gray
  | black
  deriving DecidableEq, Repr

/-- Every successor of a node on the stack is still to be walked, is black, or is the node directly
above it. -/
def Pending (succ : α → List α) (color : α → Color) : Option α → List (α × List α) → Prop
  | _, [] => True
  | above, (node, rest) :: lower =>
      (∀ next ∈ succ node, next ∈ rest ∨ color next = .black ∨ above = some next) ∧
        Pending succ color (some node) lower

/-- The stack is the gray path, and black nodes are settled. An entry of the stack is a node and the
successors of it still to be walked. -/
structure Walk (succ : α → List α) (color : α → Color) (stack : List (α × List α)) : Prop where
  gray_iff : ∀ node, color node = .gray ↔ node ∈ stack.map Prod.fst
  nodup : (stack.map Prod.fst).Nodup
  path : stack.IsChain fun upper lower => upper.1 ∈ succ lower.1
  rest_sub : ∀ entry ∈ stack, ∀ next ∈ entry.2, next ∈ succ entry.1
  black_closed : ∀ node, color node = .black → ∀ next ∈ succ node, color next = .black
  black_acyclic : ∀ node, color node = .black → ¬ Relation.TransGen (Edge succ) node node

structure Dfs (succ : α → List α) (color : α → Color) (stack : List (α × List α)) : Prop
    extends Walk succ color stack where
  pending : Pending succ color none stack

theorem Pending.mono {color color' : α → Color} {stack : List (α × List α)} {above : Option α}
    (h : Pending succ color above stack)
    (hblack : ∀ node, color node = .black → color' node = .black) :
    Pending succ color' above stack := by
  induction stack generalizing above with
  | nil => trivial
  | cons entry lower ih =>
      obtain ⟨hentry, hlower⟩ := h
      refine ⟨fun next hnext => ?_, ih hlower⟩
      exact (hentry next hnext).imp_right (Or.imp_left (hblack next))

/-- Once the node above is black it need not be mentioned. -/
theorem Pending.forget {color : α → Color} {stack : List (α × List α)} {node : α}
    (h : Pending succ color (some node) stack) (hnode : color node = .black) :
    Pending succ color none stack := by
  cases stack with
  | nil => trivial
  | cons entry lower =>
      obtain ⟨hentry, hlower⟩ := h
      refine ⟨fun next hnext => ?_, hlower⟩
      rcases hentry next hnext with hrest | hblack | habove
      · exact .inl hrest
      · exact .inr (.inl hblack)
      · exact .inr (.inl (Option.some.inj habove ▸ hnode))

section Steps

variable {color color' : α → Color} {stack lower : List (α × List α)} {node next : α}
  {rest children : List α}

theorem Dfs.start (hwhite : ∀ node, color node = .white) : Dfs succ color [] where
  gray_iff node := by simp [hwhite]
  nodup := .nil
  path := .nil
  rest_sub := by simp
  black_closed node hnode := by simp [hwhite] at hnode
  black_acyclic node hnode := by simp [hwhite] at hnode
  pending := trivial

/-- A white node goes on top of the stack. -/
theorem Walk.enter (h : Walk succ color stack) (hwhite : color node = .white)
    (hchildren : ∀ next, next ∈ children ↔ next ∈ succ node)
    (hpath : ∀ top ∈ stack.head?, node ∈ succ top.1)
    (hpending : Pending succ color (some node) stack)
    (hcolor : ∀ x, color' x = open Classical in if x = node then .gray else color x) :
    Dfs succ color' ((node, children) :: stack) := by
  have hblack : ∀ x, color' x = .black ↔ color x = .black := by
    intro x
    rw [hcolor]
    by_cases hx : x = node <;> simp [hx, hwhite]
  have hnotGray : node ∉ stack.map Prod.fst := by
    rw [← h.gray_iff, hwhite]
    simp
  refine ⟨⟨fun x => ?_, ?_, ?_, ?_, ?_, ?_⟩, ?_⟩
  · rw [hcolor, List.map_cons, List.mem_cons, ← h.gray_iff]
    by_cases hx : x = node <;> simp [hx]
  · exact List.nodup_cons.mpr ⟨hnotGray, h.nodup⟩
  · exact List.isChain_cons.mpr ⟨hpath, h.path⟩
  · intro entry hentry x hx
    rcases List.mem_cons.mp hentry with rfl | hentry
    · exact (hchildren x).mp hx
    · exact h.rest_sub entry hentry x hx
  · exact fun x hx y hy => (hblack y).mpr (h.black_closed x ((hblack x).mp hx) y hy)
  · exact fun x hx => h.black_acyclic x ((hblack x).mp hx)
  · exact ⟨fun x hx => .inl ((hchildren x).mpr hx), hpending.mono fun x => (hblack x).mpr⟩

/-- The next successor of the node on top is taken off its entry. -/
theorem Walk.advance (h : Walk succ color ((node, next :: rest) :: lower)) :
    Walk succ color ((node, rest) :: lower) where
  gray_iff := h.gray_iff
  nodup := h.nodup
  path := List.isChain_cons.mpr (List.isChain_cons.mp h.path)
  rest_sub entry hentry x hx := by
    rcases List.mem_cons.mp hentry with rfl | hentry
    · exact h.rest_sub (node, next :: rest) List.mem_cons_self x (List.mem_cons_of_mem next hx)
    · exact h.rest_sub entry (List.mem_cons_of_mem _ hentry) x hx
  black_closed := h.black_closed
  black_acyclic := h.black_acyclic

/-- A black successor needs no second visit. -/
theorem Dfs.skip (h : Dfs succ color ((node, next :: rest) :: lower)) (hblack : color next = .black) :
    Dfs succ color ((node, rest) :: lower) := by
  obtain ⟨htop, hlower⟩ := h.pending
  refine ⟨h.toWalk.advance, fun x hx => ?_, hlower⟩
  rcases htop x hx with hmem | hx | habove
  · rcases List.mem_cons.mp hmem with rfl | hmem
    · exact .inr (.inl hblack)
    · exact .inl hmem
  · exact .inr (.inl hx)
  · simp at habove

/-- A white successor of the node on top is entered. -/
theorem Dfs.descend (h : Dfs succ color ((node, next :: rest) :: lower))
    (hwhite : color next = .white) (hchildren : ∀ x, x ∈ children ↔ x ∈ succ next)
    (hcolor : ∀ x, color' x = open Classical in if x = next then .gray else color x) :
    Dfs succ color' ((next, children) :: (node, rest) :: lower) := by
  have hedge : next ∈ succ node :=
    h.rest_sub (node, next :: rest) List.mem_cons_self next List.mem_cons_self
  obtain ⟨htop, hlower⟩ := h.pending
  refine h.toWalk.advance.enter hwhite hchildren (by simpa using hedge) ⟨fun x hx => ?_, hlower⟩ hcolor
  rcases htop x hx with hmem | hx | habove
  · rcases List.mem_cons.mp hmem with rfl | hmem
    · exact .inr (.inr rfl)
    · exact .inl hmem
  · exact .inr (.inl hx)
  · simp at habove

/-- A node whose successors are all black lies on no cycle: black nodes do not lead back to it. -/
theorem Walk.not_transGen_of_children_black (h : Walk succ color stack)
    (hnode : color node ≠ .black) (hchildren : ∀ x ∈ succ node, color x = .black) :
    ¬ Relation.TransGen (Edge succ) node node := by
  intro hcycle
  obtain ⟨x, hedge, hback⟩ := Relation.TransGen.head'_iff.mp hcycle
  have hclosed : Closed succ {y | color y = .black} := fun y hy z hz => h.black_closed y hy z hz
  exact hnode (hclosed.mem_of_reflTransGen (hchildren x hedge) hback)

/-- A node with nothing left to walk turns black and leaves the stack. -/
theorem Dfs.finish (h : Dfs succ color ((node, []) :: lower))
    (hcolor : ∀ x, color' x = open Classical in if x = node then .black else color x) :
    Dfs succ color' lower := by
  have hgray : color node = .gray := (h.gray_iff node).mpr (by simp)
  obtain ⟨htop, hlower⟩ := h.pending
  have hchildren : ∀ x ∈ succ node, color x = .black := by
    intro x hx
    rcases htop x hx with hmem | hx | habove
    · simp at hmem
    · exact hx
    · simp at habove
  have hblack : ∀ x, color x = .black → color' x = .black := by
    intro x hx
    rw [hcolor]
    split <;> simp [hx]
  have hnode : color' node = .black := by simp [hcolor]
  have hblack' : ∀ x, color' x = .black → x = node ∨ color x = .black := by
    intro x hx
    rw [hcolor] at hx
    split at hx
    · rename_i heq
      exact .inl heq
    · exact .inr hx
  obtain ⟨hnotMem, hnodup⟩ := List.nodup_cons.mp h.nodup
  refine ⟨⟨fun x => ?_, hnodup, (List.isChain_cons.mp h.path).2, ?_, ?_, ?_⟩,
    (hlower.mono hblack).forget hnode⟩
  · rw [hcolor]
    by_cases hx : x = node
    · subst hx
      simpa using hnotMem
    · rw [if_neg hx, h.gray_iff, List.map_cons, List.mem_cons]
      simp [hx]
  · exact fun entry hentry => h.rest_sub entry (List.mem_cons_of_mem _ hentry)
  · intro x hx y hy
    rcases hblack' x hx with rfl | hx
    · exact hblack y (hchildren y hy)
    · exact hblack y (h.black_closed x hx y hy)
  · intro x hx
    rcases hblack' x hx with rfl | hx
    · exact h.toWalk.not_transGen_of_children_black (by simp [hgray]) hchildren
    · exact h.black_acyclic x hx

/-- A gray successor closes a cycle: the part of the gray path that starts with it. -/
theorem Walk.isCycle (h : Walk succ color ((node, next :: rest) :: lower)) {before after : List α}
    (hpath : (node :: lower.map Prod.fst).reverse = before ++ next :: after) :
    IsCycle succ (next :: after ++ [next]) := by
  have hedge : next ∈ succ node :=
    h.rest_sub (node, next :: rest) List.mem_cons_self next List.mem_cons_self
  have hchain : (node :: lower.map Prod.fst).reverse.IsChain (Edge succ) := by
    rw [List.isChain_reverse, ← List.map_cons (f := Prod.fst) (a := (node, next :: rest)),
      List.isChain_map]
    exact h.path
  have hnodup : (node :: lower.map Prod.fst).reverse.Nodup := List.nodup_reverse.mpr h.nodup
  have hlast : (next :: after).getLast? = some node := by
    have hwhole : (before ++ next :: after).getLast? = some node := by
      rw [← hpath, List.getLast?_reverse, List.head?_cons]
    rwa [List.getLast?_append_of_ne_nil before (List.cons_ne_nil next after)] at hwhole
  rw [hpath] at hchain hnodup
  refine ⟨?_, ?_, ?_, ?_⟩
  · simp
  · rw [List.getLast?_concat, List.cons_append, List.head?_cons]
  · refine hchain.right_of_append.append (.singleton next) fun x hx y hy => ?_
    rw [hlast, Option.mem_some_iff] at hx
    rw [List.head?_cons, Option.mem_some_iff] at hy
    exact hx ▸ hy ▸ hedge
  · rw [List.dropLast_concat]
    exact hnodup.of_append_right

/-- When the walk is over and every node with a successor is black, there is no cycle. -/
theorem Dfs.acyclic (h : Dfs succ color []) (hall : ∀ node, succ node ≠ [] → color node = .black) :
    Acyclic succ := by
  intro node hcycle
  obtain ⟨x, hedge, -⟩ := Relation.TransGen.head'_iff.mp hcycle
  exact h.black_acyclic node (hall node (List.ne_nil_of_mem hedge)) hcycle

end Steps

/-! ### The walk ends

Each round takes one unit off the potential: the successors still to be walked, one for every entry
of the stack, and for every white node what entering it will add. -/

section Potential

variable [DecidableEq α]

def weight (succ : α → List α) (node : α) : Nat := (succ node).length + 1

def potential (succ : α → List α) (nodes : Finset α) (color : α → Color)
    (stack : List (α × List α)) : Nat :=
  (stack.map fun entry => entry.2.length + 1).sum +
    ∑ node ∈ nodes.filter (color · = .white), weight succ node

variable {nodes : Finset α} {color color' : α → Color} {stack lower : List (α × List α)}
  {node next : α} {rest children : List α}

omit [DecidableEq α] in
theorem potential_skip :
    potential succ nodes color ((node, rest) :: lower) + 1 =
      potential succ nodes color ((node, next :: rest) :: lower) := by
  simp only [potential, List.map_cons, List.sum_cons, List.length_cons]
  omega

/-- Blackening a gray node leaves the white ones alone. -/
theorem potential_finish (hgray : color node = .gray)
    (hcolor : ∀ x, color' x = if x = node then .black else color x) :
    potential succ nodes color' lower + 1 = potential succ nodes color ((node, []) :: lower) := by
  have hwhite : nodes.filter (color' · = .white) = nodes.filter (color · = .white) := by
    refine Finset.filter_congr fun x _ => ?_
    rw [hcolor]
    by_cases hx : x = node <;> simp [hx, hgray]
  simp only [potential, hwhite, List.map_cons, List.sum_cons, List.length_nil]
  omega

/-- Entering a white node moves its weight to the stack. -/
theorem potential_enter (hnode : node ∈ nodes) (hwhite : color node = .white)
    (hlength : children.length = (succ node).length)
    (hcolor : ∀ x, color' x = if x = node then .gray else color x) :
    potential succ nodes color' ((node, children) :: stack) = potential succ nodes color stack := by
  have herase : nodes.filter (color' · = .white) = (nodes.filter (color · = .white)).erase node := by
    ext x
    rw [Finset.mem_erase, Finset.mem_filter, Finset.mem_filter, hcolor]
    by_cases hx : x = node <;> simp [hx]
  have hmem : node ∈ nodes.filter (color · = .white) := Finset.mem_filter.mpr ⟨hnode, hwhite⟩
  have hsum := Finset.add_sum_erase _ (weight succ) hmem
  simp only [potential, herase, List.map_cons, List.sum_cons, hlength]
  simp only [weight] at hsum ⊢
  omega

end Potential

end Search
