import BlazeList.Lib.Search
import BlazeList.Protocol.Entity
import Mathlib.Algebra.Order.BigOperators.Group.Finset
import Mathlib.Tactic.Linarith

/-!
# The tag implication graph

`TagGraph` with its two searches: the transitive closure of a set of tags, and the depth-first walk
that reports a cycle. Both loops take fuel, and both are given enough of it to come to their end.
-/

namespace BlazeList

open Search (Color)

structure TagGraph where
  edges : Std.TreeMap Uuid (List Uuid)

structure TagImplicationCycle where
  cycle : List Uuid
  deriving DecidableEq

abbrev ColorMap := Std.TreeMap Uuid Color

namespace TagGraph

def fromPairs (pairs : List (Uuid × List Uuid)) : TagGraph := ⟨Std.TreeMap.ofList pairs⟩

def fromTags (tags : List Tag) : TagGraph :=
  ⟨tags.foldl (fun edges tag => edges.insert tag.id tag.implies) ∅⟩

variable (graph : TagGraph)

def upsert (id : Uuid) (implies : List Uuid) : TagGraph := ⟨graph.edges.insert id implies⟩

def impliesOf (id : Uuid) : List Uuid := graph.edges.getD id []

def sortedImplies (id : Uuid) : List Uuid := (graph.impliesOf id).insertionSort (· ≤ ·)

def edgeCount : Nat := (graph.edges.keys.map fun id => (graph.impliesOf id).length).sum

/-! ### Transitive closure -/

/-- The worklist loop, the top of the stack first. -/
def closureLoop : Nat → Std.TreeSet Uuid → List Uuid → Option (Std.TreeSet Uuid)
  | _, visited, [] => some visited
  | 0, _, _ :: _ => none
  | fuel + 1, visited, id :: stack =>
      if id ∈ visited then
        closureLoop fuel visited stack
      else
        let visited := visited.insert id
        let parents := (graph.impliesOf id).filter fun parent => parent ∉ visited
        closureLoop fuel visited (parents.reverse ++ stack)

def closureOf (roots : List Uuid) : Std.TreeSet Uuid :=
  (graph.closureLoop (roots.length + graph.edgeCount) ∅ roots.reverse).getD ∅

def missingForCard (currentTags : List Uuid) : List Uuid :=
  (graph.closureOf currentTags \ Std.TreeSet.ofList currentTags).toList

/-- The cards that lack tags under this graph, each with what it lacks. -/
def affectedCardsForChange (cards : List Card) : List (Uuid × List Uuid) :=
  (cards.filter fun card => graph.missingForCard card.tags ≠ []).map fun card =>
    (card.id, graph.missingForCard card.tags)

/-! ### Cycle detection -/

/-- The inner loop. A stack entry is a node and those of its parents that are still to be walked;
`path` holds the nodes of the stack, the top one last. -/
def walk : Nat → ColorMap → List (Uuid × List Uuid) → List Uuid →
    Option (Except TagImplicationCycle ColorMap)
  | _, color, [], _ => some (.ok color)
  | 0, _, _ :: _, _ => none
  | fuel + 1, color, (node, []) :: stack, path =>
      walk fuel (color.insert node .black) stack path.dropLast
  | fuel + 1, color, (node, next :: parents) :: stack, path =>
      match color.getD next .white with
      | .white =>
          walk fuel (color.insert next .gray)
            ((next, graph.sortedImplies next) :: (node, parents) :: stack) (path ++ [next])
      | .gray =>
          -- a back edge: `next` is on the current path
          some (.error ⟨path.drop ((path.idxOf? next).getD 0) ++ [next]⟩)
      | .black => walk fuel color ((node, parents) :: stack) path

def walkFrom : List Uuid → ColorMap → Option TagImplicationCycle
  | [], _ => none
  | start :: starts, color =>
      if color[start]? ≠ some .white then
        walkFrom starts color
      else
        match graph.walk (2 * graph.edgeCount + graph.edges.size) (color.insert start .gray)
          [(start, graph.sortedImplies start)] [start] with
        | some (.error cycle) => some cycle
        | some (.ok color) => walkFrom starts color
        | none => none

def detectCycle : Option TagImplicationCycle :=
  graph.walkFrom graph.edges.keys
    (graph.edges.keys.foldl (fun color id => color.insert id .white) ∅)

/-- The outer loop when its walks are given this much fuel, nothing when one of them runs out. -/
def walkFromWithin (fuel : Nat) : List Uuid → ColorMap → Option (Option TagImplicationCycle)
  | [], _ => some none
  | start :: starts, color =>
      if color[start]? ≠ some .white then
        walkFromWithin fuel starts color
      else
        match graph.walk fuel (color.insert start .gray)
          [(start, graph.sortedImplies start)] [start] with
        | some (.error cycle) => some (some cycle)
        | some (.ok color) => walkFromWithin fuel starts color
        | none => none

def detectCycleWithin (fuel : Nat) : Option (Option TagImplicationCycle) :=
  graph.walkFromWithin fuel graph.edges.keys
    (graph.edges.keys.foldl (fun color id => color.insert id .white) ∅)

variable {graph}

/-! ### What the lookups read -/

theorem impliesOf_eq (id : Uuid) : graph.impliesOf id = (graph.edges[id]?).getD [] :=
  Std.TreeMap.getD_eq_getD_getElem?

theorem impliesOf_upsert (id : Uuid) (implies : List Uuid) :
    (graph.upsert id implies).impliesOf = Function.update graph.impliesOf id implies := by
  funext other
  rw [impliesOf, upsert, Std.TreeMap.getD_insert]
  by_cases hid : id = other
  · subst hid
    rw [Function.update_self, if_pos (Std.LawfulEqCmp.compare_eq_iff_eq.mpr rfl)]
  · rw [Function.update_of_ne (Ne.symm hid), impliesOf,
      if_neg (mt Std.LawfulEqCmp.compare_eq_iff_eq.mp hid)]

theorem impliesOf_fromTags (tags : List Tag) (id : Uuid) :
    (fromTags tags).impliesOf id =
      ((tags.reverse.find? fun tag => tag.id = id).map Tag.implies).getD [] := by
  have hfold : ∀ (tags : List Tag) (edges : Std.TreeMap Uuid (List Uuid)),
      (tags.foldl (fun edges tag => edges.insert tag.id tag.implies) edges).getD id [] =
        ((tags.reverse.find? fun tag => tag.id = id).map Tag.implies).getD (edges.getD id []) := by
    intro tags
    induction tags with
    | nil => exact fun edges => rfl
    | cons tag rest ih =>
        intro edges
        rw [List.foldl_cons, ih, Std.TreeMap.getD_insert, List.reverse_cons, List.find?_append]
        cases hfind : rest.reverse.find? fun tag => tag.id = id with
        | some found => simp
        | none =>
            by_cases hid : tag.id = id
            · simp [hid]
            · simp [hid, Std.LawfulEqCmp.compare_eq_iff_eq]
  rw [impliesOf, fromTags, hfold, Std.TreeMap.getD_emptyc]

theorem pairwise_missingForCard (currentTags : List Uuid) :
    (graph.missingForCard currentTags).Pairwise (· < ·) :=
  Std.TreeSet.ordered_toList.imp compare_lt_iff_lt.mp

theorem nodup_missingForCard (currentTags : List Uuid) :
    (graph.missingForCard currentTags).Nodup :=
  (pairwise_missingForCard currentTags).imp ne_of_lt

theorem mem_keys_of_impliesOf {id parent : Uuid} (h : parent ∈ graph.impliesOf id) :
    id ∈ graph.edges.keys := by
  rw [Std.TreeMap.mem_keys]
  by_contra hmem
  rw [impliesOf, Std.TreeMap.getD_eq_fallback hmem] at h
  simp at h

@[simp]
theorem mem_sortedImplies {id parent : Uuid} :
    parent ∈ graph.sortedImplies id ↔ parent ∈ graph.impliesOf id :=
  (List.perm_insertionSort _ _).mem_iff

@[simp]
theorem length_sortedImplies (id : Uuid) :
    (graph.sortedImplies id).length = (graph.impliesOf id).length :=
  (List.perm_insertionSort _ _).length_eq

theorem nodup_keys (graph : TagGraph) : graph.edges.keys.Nodup := Std.TreeMap.nodup_keys

theorem sum_impliesOf (graph : TagGraph) :
    ∑ id ∈ graph.edges.keys.toFinset, (graph.impliesOf id).length = graph.edgeCount :=
  List.sum_toFinset _ graph.nodup_keys

/-! ### The closure is what is reachable -/

def closureMeasure (graph : TagGraph) (visited : Std.TreeSet Uuid) (stack : List Uuid) : Nat :=
  stack.length +
    ∑ id ∈ graph.edges.keys.toFinset.filter (· ∉ visited), (graph.impliesOf id).length

theorem mem_insert_iff {visited : Std.TreeSet Uuid} {id other : Uuid} :
    other ∈ visited.insert id ↔ other = id ∨ other ∈ visited := by
  rw [Std.TreeSet.mem_insert, Std.LawfulEqCmp.compare_eq_iff_eq, eq_comm]

theorem closureMeasure_visit {visited : Std.TreeSet Uuid} {id : Uuid} {stack pushed : List Uuid}
    (hid : id ∉ visited) (hpushed : pushed.length ≤ (graph.impliesOf id).length) :
    graph.closureMeasure (visited.insert id) (pushed ++ stack) <
      graph.closureMeasure visited (id :: stack) := by
  have herase : graph.edges.keys.toFinset.filter (· ∉ visited.insert id) =
      (graph.edges.keys.toFinset.filter (· ∉ visited)).erase id := by
    ext x
    simp only [Finset.mem_filter, Finset.mem_erase, mem_insert_iff, not_or, ne_eq]
    tauto
  unfold closureMeasure
  rw [herase, List.length_append, List.length_cons]
  by_cases hkey : id ∈ graph.edges.keys
  · have hmem : id ∈ graph.edges.keys.toFinset.filter (· ∉ visited) := by simp [hkey, hid]
    have hsum := Finset.add_sum_erase _ (fun id => (graph.impliesOf id).length) hmem
    omega
  · have hempty : graph.impliesOf id = [] :=
      List.eq_nil_iff_forall_not_mem.mpr fun parent hparent => hkey (mem_keys_of_impliesOf hparent)
    rw [hempty] at hpushed
    rw [Finset.erase_eq_of_notMem (by simp [hkey])]
    simp only [List.length_nil] at hpushed
    omega

theorem closureLoop_spec {fuel : Nat} {visited : Std.TreeSet Uuid} {roots stack : List Uuid}
    (hinv : Search.Worklist graph.impliesOf roots {id | id ∈ visited} stack)
    (hfuel : graph.closureMeasure visited stack ≤ fuel) :
    ∃ closure, graph.closureLoop fuel visited stack = some closure ∧
      ∀ id, id ∈ closure ↔ Search.ReachableFrom graph.impliesOf roots id := by
  induction fuel generalizing visited stack with
  | zero =>
      cases stack with
      | nil => exact ⟨visited, by simp [closureLoop], hinv.mem_iff⟩
      | cons id stack =>
          simp only [closureMeasure, List.length_cons] at hfuel
          omega
  | succ fuel ih =>
      cases stack with
      | nil => exact ⟨visited, by simp [closureLoop], hinv.mem_iff⟩
      | cons id stack =>
          unfold closureLoop
          split
          · rename_i hid
            apply ih (hinv.skip hid)
            simp only [closureMeasure, List.length_cons] at hfuel ⊢
            omega
          · rename_i hid
            obtain ⟨pushed, hpushed⟩ : ∃ pushed, pushed =
                ((graph.impliesOf id).filter fun parent => parent ∉ visited.insert id).reverse :=
              ⟨_, rfl⟩
            have hmem : ∀ b, b ∈ pushed ↔ b ∈ graph.impliesOf id ∧ b ∉ visited.insert id := by
              simp [hpushed]
            have hlength : pushed.length ≤ (graph.impliesOf id).length := by
              rw [hpushed, List.length_reverse]
              exact List.length_filter_le _ _
            have hset : {other | other ∈ visited.insert id} = insert id {other | other ∈ visited} :=
              Set.ext fun x => mem_insert_iff
            have hvisit : Search.Worklist graph.impliesOf roots
                {other | other ∈ visited.insert id} (pushed ++ stack) := by
              rw [hset]
              refine hinv.visit (fun b hb => ((hmem b).mp hb).1) fun b hb => ?_
              rw [← hset]
              by_cases hvisited : b ∈ visited.insert id
              · exact .inl hvisited
              · exact .inr ((hmem b).mpr ⟨hb, hvisited⟩)
            have hless : graph.closureMeasure (visited.insert id) (pushed ++ stack) <
                graph.closureMeasure visited (id :: stack) :=
              closureMeasure_visit hid hlength
            dsimp only
            rw [← hpushed]
            exact ih hvisit (by omega)

theorem worklist_start (roots : List Uuid) :
    Search.Worklist graph.impliesOf roots {id | id ∈ (∅ : Std.TreeSet Uuid)} roots.reverse := by
  have hempty : {id | id ∈ (∅ : Std.TreeSet Uuid)} = ∅ := by
    ext x
    simp
  rw [hempty]
  exact .start fun a => List.mem_reverse

theorem closureMeasure_start (graph : TagGraph) (roots : List Uuid) :
    graph.closureMeasure ∅ roots.reverse ≤ roots.length + graph.edgeCount := by
  rw [← graph.sum_impliesOf, closureMeasure, List.length_reverse]
  exact Nat.add_le_add_left (Finset.sum_le_sum_of_subset (Finset.filter_subset _ _)) _

theorem mem_closureOf {roots : List Uuid} {id : Uuid} :
    id ∈ graph.closureOf roots ↔ Search.ReachableFrom graph.impliesOf roots id := by
  obtain ⟨closure, hloop, hmem⟩ :=
    closureLoop_spec (worklist_start roots) (graph.closureMeasure_start roots)
  rw [closureOf, hloop]
  exact hmem id

/-- More fuel gives the same closure. -/
theorem closureLoop_mono {fuel fuel' : Nat} (hle : fuel ≤ fuel') {visited closure : Std.TreeSet Uuid}
    {stack : List Uuid} (h : graph.closureLoop fuel visited stack = some closure) :
    graph.closureLoop fuel' visited stack = some closure := by
  induction fuel generalizing fuel' visited stack with
  | zero =>
      cases stack with
      | nil => simpa only [closureLoop] using h
      | cons id stack => simp [closureLoop] at h
  | succ fuel ih =>
      obtain ⟨more, rfl⟩ : ∃ more, fuel' = more + 1 := ⟨fuel' - 1, by omega⟩
      cases stack with
      | nil => simpa only [closureLoop] using h
      | cons id stack =>
          unfold closureLoop at h ⊢
          split at h
          · rw [if_pos ‹_›]
            exact ih (by omega) h
          · rw [if_neg ‹_›]
            exact ih (by omega) h

theorem closureLoop_eq {roots : List Uuid} {fuel : Nat}
    (hfuel : roots.length + graph.edgeCount ≤ fuel) :
    graph.closureLoop fuel ∅ roots.reverse = some (graph.closureOf roots) := by
  obtain ⟨closure, hloop, -⟩ :=
    closureLoop_spec (worklist_start roots) (graph.closureMeasure_start roots)
  rw [closureOf, hloop, Option.getD_some]
  exact closureLoop_mono hfuel hloop

theorem mem_missingForCard {currentTags : List Uuid} {id : Uuid} :
    id ∈ graph.missingForCard currentTags ↔
      Search.ReachableFrom graph.impliesOf currentTags id ∧ id ∉ currentTags := by
  rw [missingForCard, Std.TreeSet.mem_toList, Std.TreeSet.mem_diff_iff, mem_closureOf,
    Std.TreeSet.mem_ofList]
  simp

/-- Nothing is missing exactly when the tags are closed. -/
theorem missingForCard_eq_nil_iff {currentTags : List Uuid} :
    graph.missingForCard currentTags = [] ↔
      Search.Closed graph.impliesOf {id | id ∈ currentTags} := by
  rw [List.eq_nil_iff_forall_not_mem]
  constructor
  · intro hnone a ha b hb
    by_contra hmissing
    exact hnone b (mem_missingForCard.mpr ⟨(Search.ReachableFrom.of_mem ha).tail hb, hmissing⟩)
  · intro hclosed id hid
    obtain ⟨hreach, hmissing⟩ := mem_missingForCard.mp hid
    exact hmissing (hclosed.mem_of_reachableFrom (fun a ha => ha) hreach)

theorem isLeast_closureOf (roots : List Uuid) :
    IsLeast {nodes : Set Uuid | (∀ id ∈ roots, id ∈ nodes) ∧ Search.Closed graph.impliesOf nodes}
      {id | id ∈ graph.closureOf roots} := by
  have hset : {id | id ∈ graph.closureOf roots} =
      {id | Search.ReachableFrom graph.impliesOf roots id} := by
    ext id
    exact mem_closureOf
  rw [hset]
  exact Search.isLeast_reachableFrom roots

/-- A card with the missing tags added has its whole closure. -/
theorem mem_append_missingForCard {currentTags : List Uuid} {id : Uuid} :
    id ∈ currentTags ++ graph.missingForCard currentTags ↔ id ∈ graph.closureOf currentTags := by
  rw [List.mem_append, mem_missingForCard, mem_closureOf]
  constructor
  · rintro (hmem | ⟨hreach, -⟩)
    · exact .of_mem hmem
    · exact hreach
  · intro hreach
    by_cases hmem : id ∈ currentTags
    · exact .inl hmem
    · exact .inr ⟨hreach, hmem⟩

theorem isLeast_append_missingForCard (graph : TagGraph) (currentTags : List Uuid) :
    IsLeast {nodes : Set Uuid |
        (∀ id ∈ currentTags, id ∈ nodes) ∧ Search.Closed graph.impliesOf nodes}
      {id | id ∈ currentTags ++ graph.missingForCard currentTags} := by
  have hset : {id | id ∈ currentTags ++ graph.missingForCard currentTags} =
      {id | id ∈ graph.closureOf currentTags} := by
    ext id
    exact mem_append_missingForCard
  rw [hset]
  exact isLeast_closureOf currentTags

/-- **The least repair.** The closure is what the roots reach, and the missing tags are the smallest
addition that closes a card's tags. -/
theorem closureOf_missingForCard_least (graph : TagGraph) (roots : List Uuid) :
    (∀ fuel, roots.length + graph.edgeCount ≤ fuel →
        graph.closureLoop fuel ∅ roots.reverse = some (graph.closureOf roots)) ∧
      (∀ id, id ∈ graph.closureOf roots ↔ Search.ReachableFrom graph.impliesOf roots id) ∧
      IsLeast {nodes : Set Uuid |
          (∀ id ∈ roots, id ∈ nodes) ∧ Search.Closed graph.impliesOf nodes}
        {id | id ∈ graph.closureOf roots} ∧
      (graph.missingForCard roots).Pairwise (· < ·) ∧
      (∀ id ∈ graph.missingForCard roots, id ∉ roots) ∧
      Search.Closed graph.impliesOf {id | id ∈ roots ++ graph.missingForCard roots} ∧
      (∀ nodes : Set Uuid, (∀ id ∈ roots, id ∈ nodes) → Search.Closed graph.impliesOf nodes →
        ∀ id ∈ graph.missingForCard roots, id ∈ nodes) ∧
      (graph.missingForCard roots = [] ↔ Search.Closed graph.impliesOf {id | id ∈ roots}) := by
  obtain ⟨⟨-, hclosed⟩, hleast⟩ := graph.isLeast_append_missingForCard roots
  refine ⟨fun fuel => closureLoop_eq, fun id => mem_closureOf, isLeast_closureOf roots,
    pairwise_missingForCard roots, fun id hid => (mem_missingForCard.mp hid).2, hclosed, ?_,
    missingForCard_eq_nil_iff⟩
  intro nodes hroots hnodes id hid
  apply hleast ⟨hroots, hnodes⟩
  exact List.mem_append_right roots hid

/-- A dangling target and a cycle: one tag pulls in both of the others. -/
theorem closureOf_missingForCard_least_cyclic :
    let graph := fromPairs [(0, [1]), (1, [2, 0])]
    graph.closureLoop 4 ∅ [0] = some (graph.closureOf [0]) ∧ graph.missingForCard [0] = [1, 2] :=
  ⟨(closureOf_missingForCard_least _ [0]).1 4 (by decide +kernel), by decide +kernel⟩

/-! ### The walk finds a cycle when there is one -/

def colorOf (color : ColorMap) (id : Uuid) : Color := color.getD id .white

theorem colorOf_insert (color : ColorMap) (id : Uuid) (c : Color) (x : Uuid) :
    colorOf (color.insert id c) x = if x = id then c else colorOf color x := by
  simp only [colorOf, Std.TreeMap.getD_insert, Std.LawfulEqCmp.compare_eq_iff_eq, eq_comm (a := id)]

def Grows (color color' : ColorMap) : Prop :=
  (∀ id ∈ color, id ∈ color') ∧ ∀ id, colorOf color id ≠ .white → colorOf color' id ≠ .white

theorem Grows.refl (color : ColorMap) : Grows color color := ⟨fun _ h => h, fun _ h => h⟩

theorem Grows.trans {a b c : ColorMap} (hab : Grows a b) (hbc : Grows b c) : Grows a c :=
  ⟨fun id hid => hbc.1 id (hab.1 id hid), fun id hid => hbc.2 id (hab.2 id hid)⟩

theorem Grows.insert {color : ColorMap} {id : Uuid} {c : Color} (hc : c ≠ .white) :
    Grows color (color.insert id c) := by
  refine ⟨fun x hx => Std.TreeMap.mem_insert.mpr (.inr hx), fun x hx => ?_⟩
  rw [colorOf_insert]
  split
  · exact hc
  · exact hx

def nodes (graph : TagGraph) : Finset Uuid :=
  graph.edges.keys.toFinset ∪ (graph.edges.keys.flatMap graph.impliesOf).toFinset

theorem mem_nodes_of_impliesOf {id parent : Uuid} (h : parent ∈ graph.impliesOf id) :
    parent ∈ graph.nodes :=
  Finset.mem_union_right _
    (List.mem_toFinset.mpr (List.mem_flatMap.mpr ⟨id, mem_keys_of_impliesOf h, h⟩))

theorem card_nodes_le (graph : TagGraph) :
    graph.nodes.card ≤ graph.edges.size + graph.edgeCount := by
  refine (Finset.card_union_le _ _).trans (Nat.add_le_add ?_ ?_)
  · rw [← Std.TreeMap.length_keys]
    exact List.toFinset_card_le _
  · apply (List.toFinset_card_le _).trans
    rw [List.length_flatMap]
    exact le_rfl

theorem sum_weight_nodes_le (graph : TagGraph) :
    ∑ id ∈ graph.nodes, Search.weight graph.impliesOf id ≤
      2 * graph.edgeCount + graph.edges.size := by
  have hsum : ∑ id ∈ graph.nodes, (graph.impliesOf id).length = graph.edgeCount := by
    rw [← graph.sum_impliesOf]
    refine (Finset.sum_subset Finset.subset_union_left fun id _ hid => ?_).symm
    rw [List.length_eq_zero_iff, List.eq_nil_iff_forall_not_mem]
    exact fun parent hparent => hid (List.mem_toFinset.mpr (mem_keys_of_impliesOf hparent))
  have hcard := graph.card_nodes_le
  simp only [Search.weight, Finset.sum_add_distrib, Finset.sum_const, nsmul_eq_mul, mul_one, hsum, Nat.cast_id]
  omega

abbrev rounds (graph : TagGraph) (color : ColorMap) (stack : List (Uuid × List Uuid)) : Nat :=
  Search.potential graph.impliesOf graph.nodes (colorOf color) stack

/-- What the cycle is cut out of the path with. -/
theorem split_at_idxOf {path : List Uuid} {next : Uuid} (hmem : next ∈ path) :
    ∃ before after, path = before ++ next :: after ∧
      path.drop ((path.idxOf? next).getD 0) = next :: after := by
  obtain ⟨i, hi⟩ := Option.isSome_iff_exists.mp (List.isSome_idxOf?.mpr hmem)
  obtain ⟨hlt, hget, -⟩ := List.idxOf?_eq_some_iff.mp hi
  have hdrop : path.drop i = next :: path.drop (i + 1) := by
    rw [List.drop_eq_getElem_cons hlt, hget]
  refine ⟨path.take i, path.drop (i + 1), ?_, ?_⟩
  · rw [← hdrop, List.take_append_drop]
  · rw [hi, Option.getD_some, hdrop]

theorem walk_spec {fuel : Nat} {color : ColorMap} {stack : List (Uuid × List Uuid)}
    (hdfs : Search.Dfs graph.impliesOf (colorOf color) stack)
    (hfuel : graph.rounds color stack ≤ fuel) {path : List Uuid}
    (hpath : path = (stack.map Prod.fst).reverse) :
    (∃ color', graph.walk fuel color stack path = some (.ok color') ∧ Grows color color' ∧
        Search.Dfs graph.impliesOf (colorOf color') []) ∨
      ∃ found, graph.walk fuel color stack path = some (.error found) ∧
        Search.IsCycle graph.impliesOf found.cycle := by
  induction fuel generalizing color stack path with
  | zero =>
      cases stack with
      | nil => exact .inl ⟨color, by simp [walk], .refl color, hdfs⟩
      | cons entry stack =>
          simp only [rounds, Search.potential, List.map_cons, List.sum_cons] at hfuel
          omega
  | succ fuel ih =>
      cases stack with
      | nil => exact .inl ⟨color, by simp [walk], .refl color, hdfs⟩
      | cons entry stack =>
          obtain ⟨node, children⟩ := entry
          cases children with
          | nil =>
              have hgray : colorOf color node = .gray := (hdfs.gray_iff node).mpr (by simp)
              have hblacken := colorOf_insert color node .black
              have hless : graph.rounds (color.insert node .black) stack + 1 =
                  graph.rounds color ((node, []) :: stack) :=
                Search.potential_finish hgray hblacken
              have hpop : path.dropLast = (stack.map Prod.fst).reverse := by
                rw [hpath, List.map_cons, List.reverse_cons, List.dropLast_concat]
              unfold walk
              have hgrows : Grows color (color.insert node .black) := .insert (by simp)
              refine (ih (hdfs.finish fun x => ?_) (by omega) hpop).imp_left ?_
              · rw [hblacken]
                congr
              · rintro ⟨color', hwalk, hgrows', hdone⟩
                exact ⟨color', hwalk, hgrows.trans hgrows', hdone⟩
          | cons next parents =>
              have hnext : next ∈ graph.impliesOf node :=
                hdfs.rest_sub (node, next :: parents) List.mem_cons_self next List.mem_cons_self
              have hskip : graph.rounds color ((node, parents) :: stack) + 1 =
                  graph.rounds color ((node, next :: parents) :: stack) :=
                Search.potential_skip
              unfold walk
              cases hcolor : color.getD next .white with
              | white =>
                  have hgraying := colorOf_insert color next .gray
                  have henter : graph.rounds (color.insert next .gray)
                      ((next, graph.sortedImplies next) :: (node, parents) :: stack) =
                      graph.rounds color ((node, parents) :: stack) :=
                    Search.potential_enter (mem_nodes_of_impliesOf hnext) hcolor
                      (length_sortedImplies next) hgraying
                  have hpush : path ++ [next] =
                      (((next, graph.sortedImplies next) :: (node, parents) :: stack).map
                        Prod.fst).reverse := by
                    rw [hpath, List.map_cons (a := (next, graph.sortedImplies next)), List.reverse_cons]
                    rfl
                  have hgrows : Grows color (color.insert next .gray) := .insert (by simp)
                  refine (ih (hdfs.descend hcolor (fun x => mem_sortedImplies) fun x => ?_)
                    (by omega) hpush).imp_left ?_
                  · rw [hgraying]
                    congr
                  · rintro ⟨color', hwalk, hgrows', hdone⟩
                    exact ⟨color', hwalk, hgrows.trans hgrows', hdone⟩
              | gray =>
                  -- the path holds exactly the gray nodes, so `next` is found on it
                  have hmem : next ∈ path := by
                    rw [hpath, List.mem_reverse]
                    exact (hdfs.gray_iff next).mp hcolor
                  obtain ⟨before, after, hsplit, hdrop⟩ := split_at_idxOf hmem
                  refine .inr ⟨_, rfl, ?_⟩
                  rw [hdrop]
                  exact hdfs.isCycle (hpath.symm.trans hsplit)
              | black => exact ih (hdfs.skip hcolor) (by omega) hpath

/-- The fuel that every walk of the outer loop gets. -/
theorem rounds_le (color : ColorMap) :
    graph.rounds color [] ≤ 2 * graph.edgeCount + graph.edges.size := by
  refine le_trans ?_ graph.sum_weight_nodes_le
  simpa [rounds, Search.potential] using
    Finset.sum_le_sum_of_subset (f := Search.weight graph.impliesOf)
      (Finset.filter_subset (colorOf color · = .white) graph.nodes)

/-- The outer loop ends within its fuel, with nothing and a finished walk, or with a cycle. -/
theorem walkFromWithin_spec {fuel : Nat} (hfuel : 2 * graph.edgeCount + graph.edges.size ≤ fuel)
    {starts : List Uuid} {color : ColorMap}
    (hdfs : Search.Dfs graph.impliesOf (colorOf color) []) (hkeys : ∀ id ∈ starts, id ∈ color)
    (hnodes : ∀ id ∈ starts, id ∈ graph.nodes) :
    (graph.walkFromWithin fuel starts color = some none ∧ ∃ color', Grows color color' ∧
        Search.Dfs graph.impliesOf (colorOf color') [] ∧
        ∀ id ∈ starts, colorOf color' id ≠ .white) ∨
      ∃ found, graph.walkFromWithin fuel starts color = some (some found) ∧
        Search.IsCycle graph.impliesOf found.cycle := by
  induction starts generalizing color with
  | nil => exact .inl ⟨rfl, color, .refl color, hdfs, by simp⟩
  | cons start starts ih =>
      have hstart : color[start]? = some (colorOf color start) := by
        rw [colorOf, Std.TreeMap.getElem?_eq_some_getD (hkeys start List.mem_cons_self)]
      have hkeys' : ∀ id ∈ starts, id ∈ color := fun id hid => hkeys id (List.mem_cons_of_mem _ hid)
      have hnodes' : ∀ id ∈ starts, id ∈ graph.nodes :=
        fun id hid => hnodes id (List.mem_cons_of_mem _ hid)
      unfold walkFromWithin
      rw [hstart]
      by_cases hwhite : colorOf color start = .white
      · rw [if_neg (by simp [hwhite])]
        have hgraying := colorOf_insert color start .gray
        have hgrows : Grows color (color.insert start .gray) := .insert (by simp)
        have henter : graph.rounds (color.insert start .gray) [(start, graph.sortedImplies start)] =
            graph.rounds color [] :=
          Search.potential_enter (hnodes start List.mem_cons_self) hwhite
            (length_sortedImplies start) hgraying
        have hentered : Search.Dfs graph.impliesOf (colorOf (color.insert start .gray))
            [(start, graph.sortedImplies start)] := by
          refine hdfs.toWalk.enter hwhite (fun x => mem_sortedImplies) (by simp) trivial fun x => ?_
          rw [hgraying]
          congr
        have hbound := henter.trans_le ((rounds_le color).trans hfuel)
        have hpath : [start] = ([(start, graph.sortedImplies start)].map Prod.fst).reverse := rfl
        rcases walk_spec hentered hbound hpath with
          ⟨color', hwalk, hgrows', hdone⟩ | ⟨found, hwalk, hcycle⟩
        · rw [hwalk]
          have hgrows'' := hgrows.trans hgrows'
          apply (ih hdone (fun id hid => hgrows''.1 id (hkeys' id hid)) hnodes').imp_left
          rintro ⟨hnone, color'', hgrows₂, hdone', hall⟩
          refine ⟨hnone, color'', hgrows''.trans hgrows₂, hdone', fun id hid => ?_⟩
          rcases List.mem_cons.mp hid with rfl | hid
          · exact (hgrows'.trans hgrows₂).2 id (by simp [hgraying])
          · exact hall id hid
        · rw [hwalk]
          exact .inr ⟨found, rfl, hcycle⟩
      · rw [if_pos (by simpa using hwhite)]
        apply (ih hdfs hkeys' hnodes').imp_left
        rintro ⟨hnone, color', hgrows, hdone, hall⟩
        refine ⟨hnone, color', hgrows, hdone, fun id hid => ?_⟩
        rcases List.mem_cons.mp hid with rfl | hid
        · exact hgrows.2 id hwhite
        · exact hall id hid

/-- All keys start out white, and so does everything else. -/
theorem initial_color (keys : List Uuid) (color : ColorMap)
    (hwhite : ∀ id, colorOf color id = .white) :
    (∀ id, colorOf (keys.foldl (fun color id => color.insert id .white) color) id = .white) ∧
      ∀ id, id ∈ keys ∨ id ∈ color →
        id ∈ keys.foldl (fun color id => color.insert id .white) color := by
  induction keys generalizing color with
  | nil => exact ⟨hwhite, by simp⟩
  | cons key keys ih =>
      have hnext : ∀ id, colorOf (color.insert key .white) id = .white := by
        intro id
        rw [colorOf_insert]
        split
        · rfl
        · exact hwhite id
      obtain ⟨hcolor, hmem⟩ := ih (color.insert key .white) hnext
      refine ⟨hcolor, fun id hid => hmem id ?_⟩
      rw [Std.TreeMap.mem_insert, Std.LawfulEqCmp.compare_eq_iff_eq]
      rcases hid with hid | hid
      · rcases List.mem_cons.mp hid with rfl | hid
        · exact .inr (.inl rfl)
        · exact .inl hid
      · exact .inr (.inr hid)

theorem walk_mono {fuel fuel' : Nat} (hle : fuel ≤ fuel') {color : ColorMap}
    {stack : List (Uuid × List Uuid)} {path : List Uuid}
    {outcome : Except TagImplicationCycle ColorMap}
    (h : graph.walk fuel color stack path = some outcome) :
    graph.walk fuel' color stack path = some outcome := by
  induction fuel generalizing fuel' color stack path with
  | zero =>
      cases stack with
      | nil => simpa only [walk] using h
      | cons entry stack => simp [walk] at h
  | succ fuel ih =>
      obtain ⟨more, rfl⟩ : ∃ more, fuel' = more + 1 := ⟨fuel' - 1, by omega⟩
      match stack with
      | [] => simpa only [walk] using h
      | (node, []) :: stack =>
          unfold walk at h ⊢
          exact ih (by omega) h
      | (node, next :: parents) :: stack =>
          unfold walk at h ⊢
          cases hcolor : color.getD next .white with
          | white =>
              rw [hcolor] at h
              exact ih (by omega) h
          | gray =>
              rw [hcolor] at h
              exact h
          | black =>
              rw [hcolor] at h
              exact ih (by omega) h

theorem walkFromWithin_mono {fuel fuel' : Nat} (hle : fuel ≤ fuel') {starts : List Uuid}
    {color : ColorMap} {answer : Option TagImplicationCycle}
    (h : graph.walkFromWithin fuel starts color = some answer) :
    graph.walkFromWithin fuel' starts color = some answer := by
  induction starts generalizing color with
  | nil => exact h
  | cons start starts ih =>
      unfold walkFromWithin at h ⊢
      split at h
      · rw [if_pos ‹_›]
        exact ih h
      · rw [if_neg ‹_›]
        cases hwalk : graph.walk fuel (color.insert start .gray)
            [(start, graph.sortedImplies start)] [start] with
        | none => simp [hwalk] at h
        | some outcome =>
            rw [hwalk] at h
            rw [walk_mono hle hwalk]
            cases outcome with
            | error found => exact h
            | ok color => exact ih h

/-- With an answer in reach, the outer loop gives it. -/
theorem walkFrom_eq {starts : List Uuid} {color : ColorMap} {answer : Option TagImplicationCycle}
    (h : graph.walkFromWithin (2 * graph.edgeCount + graph.edges.size) starts color =
      some answer) : graph.walkFrom starts color = answer := by
  induction starts generalizing color with
  | nil => exact Option.some.inj h
  | cons start starts ih =>
      unfold walkFromWithin at h
      unfold walkFrom
      split at h
      · rw [if_pos ‹_›]
        exact ih h
      · rw [if_neg ‹_›]
        cases hwalk : graph.walk (2 * graph.edgeCount + graph.edges.size) (color.insert start .gray)
            [(start, graph.sortedImplies start)] [start] with
        | none => simp [hwalk] at h
        | some outcome =>
            rw [hwalk] at h
            cases outcome with
            | error found => exact Option.some.inj h
            | ok color => exact ih h

/-- The search ends, with nothing on an acyclic graph and with a cycle on any other. -/
theorem detectCycleWithin_spec (graph : TagGraph) {fuel : Nat}
    (hfuel : 2 * graph.edgeCount + graph.edges.size ≤ fuel) :
    (graph.detectCycleWithin fuel = some none ∧ Search.Acyclic graph.impliesOf) ∨
      ∃ found, graph.detectCycleWithin fuel = some (some found) ∧
        Search.IsCycle graph.impliesOf found.cycle := by
  obtain ⟨hwhite, hmem⟩ := initial_color graph.edges.keys ∅ (fun id => by simp [colorOf])
  have hstart : Search.Dfs graph.impliesOf
      (colorOf (graph.edges.keys.foldl (fun color id => color.insert id .white) ∅)) [] :=
    Search.Dfs.start hwhite
  refine (walkFromWithin_spec hfuel hstart (fun id hid => hmem id (.inl hid))
    fun id hid => Finset.mem_union_left _ (List.mem_toFinset.mpr hid)).imp_left ?_
  rintro ⟨hnone, color, -, hdone, hall⟩
  refine ⟨hnone, hdone.acyclic fun id hid => ?_⟩
  obtain ⟨parent, hparent⟩ := List.exists_mem_of_ne_nil _ hid
  have hnotWhite := hall id (mem_keys_of_impliesOf hparent)
  have hnotGray : colorOf color id ≠ .gray := fun hgray => by
    simpa using (hdone.gray_iff id).mp hgray
  cases hcolor : colorOf color id with
  | white => exact absurd hcolor hnotWhite
  | gray => exact absurd hcolor hnotGray
  | black => rfl

theorem detectCycleWithin_eq {fuel : Nat}
    (hfuel : 2 * graph.edgeCount + graph.edges.size ≤ fuel) :
    graph.detectCycleWithin fuel = some graph.detectCycle := by
  obtain ⟨answer, hanswer⟩ : ∃ answer,
      graph.detectCycleWithin (2 * graph.edgeCount + graph.edges.size) = some answer := by
    rcases graph.detectCycleWithin_spec le_rfl with ⟨hnone, -⟩ | ⟨found, hsome, -⟩
    · exact ⟨none, hnone⟩
    · exact ⟨some found, hsome⟩
  have hdetect : graph.detectCycle = answer := walkFrom_eq hanswer
  rw [hdetect]
  exact walkFromWithin_mono hfuel hanswer

theorem detectCycle_cases (graph : TagGraph) :
    (graph.detectCycle = none ∧ Search.Acyclic graph.impliesOf) ∨
      ∃ found, graph.detectCycle = some found ∧ Search.IsCycle graph.impliesOf found.cycle := by
  have hspec := graph.detectCycleWithin_spec le_rfl
  rw [detectCycleWithin_eq le_rfl] at hspec
  simpa only [Option.some.injEq] using hspec

/-- `detect_cycle` answers `None` exactly on the acyclic graphs. -/
theorem detectCycle_eq_none_iff : graph.detectCycle = none ↔ Search.Acyclic graph.impliesOf := by
  rcases graph.detectCycle_cases with ⟨hnone, hacyclic⟩ | ⟨found, hsome, hcycle⟩
  · exact iff_of_true hnone hacyclic
  · exact iff_of_false (by simp [hsome]) hcycle.not_acyclic

/-- **Cycle detection.** The search comes to its end, finds nothing exactly when there is no cycle,
and what it reports is a simple cycle. -/
theorem detectCycle_sound_complete (graph : TagGraph) :
    (∀ fuel, 2 * graph.edgeCount + graph.edges.size ≤ fuel →
        graph.detectCycleWithin fuel = some graph.detectCycle) ∧
      (graph.detectCycle = none ↔ Search.Acyclic graph.impliesOf) ∧
      ∀ found, graph.detectCycle = some found →
        2 ≤ found.cycle.length ∧ found.cycle.head? = found.cycle.getLast? ∧
          found.cycle.IsChain (Search.Edge graph.impliesOf) ∧ found.cycle.dropLast.Nodup := by
  refine ⟨fun fuel => detectCycleWithin_eq, detectCycle_eq_none_iff, fun found hfound => ?_⟩
  rcases graph.detectCycle_cases with ⟨hnone, -⟩ | ⟨other, hsome, hcycle⟩
  · simp [hnone] at hfound
  · obtain rfl : other = found := Option.some.inj (hsome.symm.trans hfound)
    exact ⟨hcycle.two_le, hcycle.closes, hcycle.edges, hcycle.nodup⟩

theorem detectCycle_sound_complete_selfLoop :
    let graph := fromPairs [(0, [1]), (1, [2, 1, 1])]
    graph.detectCycleWithin 10 = some graph.detectCycle ∧ graph.detectCycle = some ⟨[1, 1]⟩ ∧
      [1, 1].IsChain (Search.Edge graph.impliesOf) := by
  have hfound : (fromPairs [(0, [1]), (1, [2, 1, 1])]).detectCycle = some ⟨[1, 1]⟩ := by
    decide +kernel
  obtain ⟨hends, -, hcycle⟩ := detectCycle_sound_complete (fromPairs [(0, [1]), (1, [2, 1, 1])])
  exact ⟨hends 10 (by decide +kernel), hfound, (hcycle _ hfound).2.2.1⟩

end TagGraph

end BlazeList
