import Mathlib.Data.List.Chain
import MinimalSsa.Proofs.Dominance

/-!
# The dominator tree in all its views

An analysis holds its tree three times: as the table of parents, as lists of children, and
as the list of pairs it answers with. The second and the third are read off the first while
going through the order of the search, so both list what the table says, block by block.
Climbing from a block goes back in the order, and only the head has nowhere to climb to.

* `Parents.adopt`, `Parents.getElem?_foldl_adopt`: the children lists, one block at a time.
* `Dominance.childrenOf_eq_filter`: the children of a block are a part of the order.
* `Dominance.lookup_tree`: the pairs as a map.
* `Dominance.Climbs`: a path that goes from a block, parent by parent, to the head.
* `Dominance.SpanningTree`, `Dominance.compute_spanningTree`: the views agree, and are a
  tree of the reached blocks with the head as its root.
-/

namespace MinimalSsa

/-! ## Lists of children -/

namespace Parents

variable {parents : Parents} {positions : Positions} {block parent : BlockId}

/-- Enter one block in the list of its parent. -/
def adopt (parents : Parents) (children : Array (List BlockId)) (block : BlockId) :
    Array (List BlockId) :=
  match parents.parent? block with
  | some parent => children.modify parent (· ++ [block])
  | none => children

theorem children_eq_foldl (parents : Parents) (order : List BlockId) :
    parents.children order = order.foldl parents.adopt (Array.replicate parents.size []) :=
  rfl

theorem size_adopt (parents : Parents) (children : Array (List BlockId)) (block : BlockId) :
    (parents.adopt children block).size = children.size := by
  unfold adopt
  split
  · exact Array.size_modify
  · rfl

/-- Each block has its own list of children. -/
theorem size_children (parents : Parents) (order : List BlockId) :
    (parents.children order).size = parents.size := by
  rw [children_eq_foldl]
  refine List.foldlRecOn order _
    (motive := fun children : Array (List BlockId) => children.size = parents.size)
    Array.size_replicate fun children hsize block _ => ?_
  rw [size_adopt, hsize]

/-- A list gets the blocks whose parent it belongs to. -/
theorem getElem?_adopt {children : Array (List BlockId)} (hparent : parent < children.size) :
    (parents.adopt children block)[parent]?.getD [] =
      children[parent]?.getD [] ++
        if parents.parent? block = some parent then [block] else [] := by
  unfold adopt
  split
  · next other hother =>
    rw [Array.getElem?_modify, Array.getElem?_eq_getElem hparent, hother]
    by_cases heq : other = parent <;> simp [heq]
  · next hnone => simp [hnone]

/-- Entering the blocks of a list one after the other keeps their order. -/
theorem getElem?_foldl_adopt {children : Array (List BlockId)} {blocks : List BlockId}
    (hparent : parent < children.size) :
    (blocks.foldl parents.adopt children)[parent]?.getD [] =
      children[parent]?.getD [] ++
        blocks.filter fun block => parents.parent? block == some parent := by
  induction blocks generalizing children with
  | nil => simp
  | cons block blocks ih =>
    rw [List.foldl_cons, ih (by rwa [size_adopt]), getElem?_adopt hparent, List.append_assoc]
    by_cases heq : parents.parent? block = some parent <;> simp [heq]

/-! ## Pairs -/

/-- Blocks paired with their parents are a map that answers like the table. -/
theorem lookup_pairs (parents : Parents) (blocks : List BlockId) (block : BlockId) :
    (blocks.filterMap fun other => (parents.parent? other).map (other, ·)).lookup block =
      if block ∈ blocks then parents.parent? block else none := by
  induction blocks with
  | nil => rfl
  | cons first blocks ih =>
    by_cases heq : block = first
    · subst heq
      cases hparent : parents.parent? block with
      | none => simp [hparent, ih]
      | some parent => simp [hparent]
    · cases hparent : parents.parent? first with
      | none => simp [hparent, ih, heq]
      | some parent => simp [hparent, ih, heq, List.lookup_cons, beq_eq_false_iff_ne.mpr heq]

/-- Its keys are the blocks with a parent. -/
theorem keys_pairs (parents : Parents) (blocks : List BlockId) :
    (blocks.filterMap fun other => (parents.parent? other).map (other, ·)).map Prod.fst =
      blocks.filter fun block => (parents.parent? block).isSome := by
  induction blocks with
  | nil => rfl
  | cons first blocks ih =>
    cases hparent : parents.parent? first with
    | none => simp [hparent, ih]
    | some parent => simp [hparent, ih]

/-! ## Chains -/

/-- A chain goes from child to parent. -/
theorem isChain_chainUpTo (parents : Parents) (count : Nat) (block : BlockId) :
    (parents.chainUpTo count block).IsChain fun child parent =>
      parents.parent? child = some parent := by
  induction count generalizing block with
  | zero => exact List.isChain_nil
  | succ count ih =>
    rw [chainUpTo]
    cases hparent : parents.parent? block with
    | none => exact List.isChain_singleton block
    | some parent =>
      refine List.isChain_cons.mpr ⟨fun next hnext => ?_, ih parent⟩
      cases count with
      | zero => simp [chainUpTo] at hnext
      | succ count =>
        obtain rfl : parent = next := by simpa [chainUpTo] using hnext
        exact hparent

/-- It ends where there is no parent, unless it was cut off before. -/
theorem Forest.exists_top (h : parents.Forest positions) {count : Nat}
    (hcount : positions.rank block < count) :
    ∃ top, (parents.chainUpTo count block).getLast? = some top ∧
      parents.parent? top = none := by
  induction count generalizing block with
  | zero => exact absurd hcount (Nat.not_lt_zero _)
  | succ count ih =>
    rw [chainUpTo]
    cases hparent : parents.parent? block with
    | none => exact ⟨block, rfl, hparent⟩
    | some parent =>
      have hlt := h block parent hparent
      obtain ⟨top, hlast, htop⟩ := ih (Nat.lt_of_lt_of_le hlt (Nat.le_of_lt_succ hcount))
      refine ⟨top, ?_, htop⟩
      rw [List.getLast?_cons, hlast, Option.getD_some]

end Parents

namespace Dominance

variable {graph : Graph} {head block : BlockId} {order : List BlockId}

/-! ## The views of one analysis -/

section Views

variable (hsearch : graph.Searched head order)

include hsearch

/-- Only reached blocks have a parent, and only reached blocks are one. -/
theorem reaches_of_parent {parent : BlockId}
    (h : (ofOrder graph head order).immediateDominator? block = some parent) :
    graph.Reaches head block ∧ graph.Reaches head parent := by
  have hdom := ((immediateDominator?_eq_some_iff hsearch).mp h).1.2
  exact ⟨hdom.1, hdom.reaches⟩

/-- The children of a block are the blocks with this parent, in the order of the search. -/
theorem childrenOf_eq_filter (parent : BlockId) :
    (ofOrder graph head order).childrenOf parent = order.filter fun block =>
      (ofOrder graph head order).immediateDominator? block == some parent := by
  have hsize := (Graph.parents_isDominatorTree hsearch).size_eq
  show ((graph.parents head order).children order)[parent]?.getD [] = _
  rw [Parents.children_eq_foldl]
  by_cases hparent : parent < graph.size
  · rw [Parents.getElem?_foldl_adopt (by simpa [hsize] using hparent)]
    simp [hsize, hparent, immediateDominator?, ofOrder]
  · -- a block that does not exist has no list, and is no parent
    have hnone : (order.foldl (graph.parents head order).adopt
        (Array.replicate (graph.parents head order).size []))[parent]? = none := by
      refine Array.getElem?_eq_none ?_
      rw [← Parents.children_eq_foldl, Parents.size_children, hsize]
      exact Nat.le_of_not_lt hparent
    rw [hnone, Option.getD_none]
    refine (List.filter_eq_nil_iff.mpr fun block _ hblock => hparent ?_).symm
    have hreach := (reaches_of_parent hsearch (beq_iff_eq.mp hblock)).2
    exact hsearch.lt_size ((hsearch.mem_iff parent).mpr hreach)

/-- The pairs of the tree are a map that answers like the table. -/
theorem lookup_tree (block : BlockId) :
    (ofOrder graph head order).tree.lookup block =
      (ofOrder graph head order).immediateDominator? block := by
  rw [tree, Parents.lookup_pairs]
  split
  · rfl
  · next hblock =>
    refine ((immediateDominator?_eq_none_iff hsearch).mpr (.inr fun hreach => ?_)).symm
    exact hblock ((hsearch.mem_iff block).mpr hreach)

theorem mem_keys_tree_iff :
    block ∈ (ofOrder graph head order).tree.map Prod.fst ↔
      graph.Reaches head block ∧ block ≠ head := by
  rw [tree, Parents.keys_pairs, List.mem_filter]
  show block ∈ order ∧ ((graph.parents head order).parent? block).isSome ↔ _
  rw [(Graph.parents_isDominatorTree hsearch).isSome_iff, hsearch.mem_iff]
  tauto

end Views

/-- `path` goes from `block`, parent by parent, to the head. -/
structure Climbs (dominance : Dominance) (block : BlockId) (path : List BlockId) : Prop where
  first : path.head? = some block
  step : path.IsChain fun child parent => dominance.immediateDominator? child = some parent
  last : path.getLast? = some dominance.head

section Chains

variable (hsearch : graph.Searched head order) (hblock : graph.Reaches head block)

include hsearch hblock

/-- The chain of a reached block is not cut off by its bound. -/
theorem chainUpTo_eq_chain {count : Nat} (hcount : graph.size ≤ count) :
    (ofOrder graph head order).parents.chainUpTo count block =
      (ofOrder graph head order).parents.chain block := by
  have htree := Graph.parents_isDominatorTree hsearch
  have hrank := hsearch.rank_lt_size ((hsearch.mem_iff block).mpr hblock)
  exact htree.forest.chainUpTo_eq (Nat.lt_of_lt_of_le hrank hcount)
    (Nat.lt_of_lt_of_eq hrank htree.size_eq.symm)

/-- It leads to the head. -/
theorem climbs_chain : (ofOrder graph head order).Climbs block
    ((ofOrder graph head order).parents.chain block) := by
  have htree := Graph.parents_isDominatorTree hsearch
  have hrank := hsearch.rank_lt_size ((hsearch.mem_iff block).mpr hblock)
  obtain ⟨top, hlast, htop⟩ := htree.forest.exists_top hrank
  rw [← chainUpTo_eq_chain hsearch hblock (Nat.le_refl graph.size)]
  constructor
  case first =>
    obtain ⟨size, hsize⟩ := Nat.exists_eq_add_of_lt (Nat.zero_lt_of_lt hrank)
    rw [hsize, Parents.chainUpTo, List.head?_cons]
  case step => exact Parents.isChain_chainUpTo _ graph.size block
  case last =>
    -- what is above a reached block is reached, and then only the head has no parent
    have habove := Parents.above_of_mem_chainUpTo (List.mem_of_getLast? hlast)
    have hreach := ((htree.above_iff top block hblock).mp habove).reaches
    have hroot : top = head :=
      ((immediateDominator?_eq_none_iff hsearch).mp htop).resolve_right (not_not.mpr hreach)
    exact hlast.trans (congrArg some hroot)

end Chains

/-! ## The tree -/

/-- The views of an analysis agree, and are a tree of the reached blocks: the head is its
root, and every other block has a parent earlier in the order of the search, is once among
the children of that parent and nowhere else, and has one pair that says the same. Climbing
from a reached block ends at the head. -/
structure SpanningTree (dominance : Dominance) (graph : Graph) (head : BlockId)
    (order : List BlockId) : Prop where
  parent : ∀ block, graph.Reaches head block → block ≠ head →
    ∃ parent, dominance.immediateDominator? block = some parent ∧
      graph.Reaches head parent ∧ order.idxOf parent < order.idxOf block
  count_children : ∀ block parent, (dominance.childrenOf parent).count block =
    if dominance.immediateDominator? block = some parent then 1 else 0
  along_children : ∀ parent, Along order (dominance.childrenOf parent)
  outside : ∀ block, block = head ∨ ¬ graph.Reaches head block →
    dominance.immediateDominator? block = none ∧
      ∀ parent, block ∉ dominance.childrenOf parent
  nodup_tree : (dominance.tree.map Prod.fst).Nodup
  mem_tree_iff : ∀ block,
    block ∈ dominance.tree.map Prod.fst ↔ graph.Reaches head block ∧ block ≠ head
  lookup_tree : ∀ block, dominance.tree.lookup block = dominance.immediateDominator? block
  /-- This path is what `Dominance.dominates` goes through, and no bound cuts it off. -/
  climbs : ∀ block, graph.Reaches head block →
    dominance.Climbs block (dominance.parents.chain block) ∧
      ∀ count, graph.size ≤ count →
        dominance.parents.chainUpTo count block = dominance.parents.chain block

theorem spanningTree_ofOrder (hsearch : graph.Searched head order) :
    (ofOrder graph head order).SpanningTree graph head order := by
  have htree := Graph.parents_isDominatorTree hsearch
  have hnone : ∀ block, block = head ∨ ¬ graph.Reaches head block →
      (ofOrder graph head order).immediateDominator? block = none := fun block =>
    (immediateDominator?_eq_none_iff hsearch).mpr
  constructor
  case parent =>
    intro block hblock hne
    obtain ⟨parent, hparent⟩ := Option.isSome_iff_exists.mp
      ((htree.isSome_iff block).mpr ⟨hne, hblock⟩)
    have hreach := (reaches_of_parent hsearch hparent).2
    have hlt := htree.forest block parent hparent
    rw [hsearch.rank_eq ((hsearch.mem_iff parent).mpr hreach),
      hsearch.rank_eq ((hsearch.mem_iff block).mpr hblock)] at hlt
    exact ⟨parent, hparent, hreach, hlt⟩
  case count_children =>
    intro block parent
    rw [childrenOf_eq_filter hsearch]
    split
    · next hparent =>
      refine List.count_eq_one_of_mem (hsearch.nodup.filter _) ?_
      refine List.mem_filter.mpr ⟨?_, beq_iff_eq.mpr hparent⟩
      exact (hsearch.mem_iff block).mpr (reaches_of_parent hsearch hparent).1
    · next hparent =>
      refine List.count_eq_zero.mpr fun hmem => hparent ?_
      exact beq_iff_eq.mp (List.mem_filter.mp hmem).2
  case along_children =>
    intro parent
    rw [childrenOf_eq_filter hsearch]
    exact .of_sublist List.filter_sublist hsearch.nodup
  case outside =>
    intro block hblock
    refine ⟨hnone block hblock, fun parent hmem => ?_⟩
    rw [childrenOf_eq_filter hsearch, List.mem_filter, hnone block hblock] at hmem
    exact absurd hmem.2 (by simp)
  case nodup_tree =>
    rw [tree, Parents.keys_pairs]
    exact hsearch.nodup.filter _
  case mem_tree_iff => exact fun block => mem_keys_tree_iff hsearch
  case lookup_tree => exact lookup_tree hsearch
  case climbs =>
    exact fun block hblock => ⟨climbs_chain hsearch hblock, fun count =>
      chainUpTo_eq_chain hsearch hblock⟩

/-- The analysis of an existing block of a method with consistent edges holds a tree of the
blocks reached from there, the same in every view. -/
theorem compute_spanningTree (method : Method) (head : BlockId)
    (hverify : method.verify = .ok ()) (hhead : head < method.size) :
    ∃ dominance order, compute method.graph head = .ok dominance ∧
      method.graph.reversePostorder head = .ok order ∧
      dominance.SpanningTree method.graph head order := by
  have hmirrored := (Method.verify_eq_ok_iff.mp hverify).mirrored
  rw [← Graph.size_graph] at hhead
  obtain ⟨order, hsearch, horder, hok⟩ := compute_eq_ok hmirrored hhead
  exact ⟨_, order, hok, horder, spanningTree_ofOrder hsearch⟩

theorem compute_spanningTree_crossedLoop :
    crossedLoop.verify = .ok () ∧ 0 < crossedLoop.size ∧
      ∃ dominance, compute crossedLoop.graph 0 = .ok dominance ∧
        crossedLoop.graph.reversePostorder 0 = .ok [0, 1, 3, 2] ∧
        dominance.SpanningTree crossedLoop.graph 0 [0, 1, 3, 2] := by
  have hwalk : crossedLoop.graph.reversePostorder 0 = .ok [0, 1, 3, 2] := by decide +kernel
  obtain ⟨dominance, order, hok, horder, htree⟩ :=
    compute_spanningTree crossedLoop 0 rfl (by decide)
  obtain rfl := Except.ok.inj (hwalk.symm.trans horder)
  exact ⟨rfl, by decide, dominance, hok, horder, htree⟩

end Dominance

end MinimalSsa
