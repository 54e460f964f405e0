import MinimalSsa.Method.Shape
import MinimalSsa.Proofs.Retarget

/-!
# Methods have the shape they were built from

A method is built from successor lists by retargeting its blocks in turn, each to the
plainest terminator with its targets. When a block's turn comes no predecessor list names
it yet, so retargeting takes nothing out and puts the block at the end of the lists of its
targets. Predecessors therefore come in the order of the blocks, each as often as it leads
to the list's own block.

* `Method.Realises`: a method against the successor lists it was built from.
* `Method.Consistent.retargetAll_eq`: several blocks in turn.
* `Method.getElem?_foldl_gather`: the targets of a block, gathered from a list of edges.
* `Method.ofSuccessors_realises`: both ways to build a method.
-/

namespace MinimalSsa

namespace Method

variable {method : Method} {block : BlockId} {lists : List (List BlockId)}

/-! ## Successor lists -/

/-- A new block has no edges. -/
theorem edges_withBlocks (name : String) (count : Nat) (block : BlockId) :
    (withBlocks name count).graph.successors block = [] ∧
      (withBlocks name count).graph.predecessors block = [] := by
  simp only [Graph.successors, Graph.predecessors, graph, withBlocks, Array.getElem?_map]
  by_cases hblock : block < max count 1
  · rw [Array.getElem?_replicate, if_pos hblock]
    exact ⟨rfl, rfl⟩
  · rw [Array.getElem?_replicate, if_neg hblock]
    exact ⟨rfl, rfl⟩

theorem consistent_withBlocks (name : String) (count : Nat) :
    (withBlocks name count).Consistent := by
  rw [consistent_iff]
  refine ⟨fun source target htarget => ?_, fun head hhead => ?_, fun source target => ?_⟩
  · rw [(edges_withBlocks name count source).1] at htarget
    exact absurd htarget List.not_mem_nil
  · rw [List.mem_singleton.mp hhead, Graph.size_graph]
    exact Nat.lt_of_lt_of_eq (Nat.le_max_right count 1) Array.size_replicate.symm
  · rw [(edges_withBlocks name count source).1, (edges_withBlocks name count target).2]
    rfl

/-- A block that no predecessor list names is put at the end of those of its targets. -/
theorem predecessors_rewire_of_fresh {target : BlockId} (htarget : target < method.size)
    (hfresh : ∀ pred ∈ method.graph.predecessors target, pred < block)
    (terminator : Terminator) :
    (method.rewire block terminator).graph.predecessors target =
      method.graph.predecessors target ++
        List.replicate (terminator.targets.count target) block := by
  rw [predecessors_rewire htarget, relisted, List.filter_eq_self.mpr]
  intro pred hpred
  simpa using Nat.ne_of_lt (hfresh pred hpred)

/-- Retargeting blocks in turn gives each its targets, and lengthens the predecessor lists
in the order of the blocks. -/
theorem Consistent.retargetAll_eq {block : Nat} (h : method.Consistent)
    (hroom : block + lists.length ≤ method.size)
    (htargets : ∀ targets ∈ lists, ∀ target ∈ targets, target < method.size)
    (hfresh : ∀ target < method.size, ∀ pred ∈ method.graph.predecessors target, pred < block) :
    ∃ after, method.retargetAll block lists = { method := after } ∧ after.Consistent ∧
      after.size = method.size ∧ after.heads = method.heads ∧
      (∀ source, after.graph.successors source =
        if source < block then method.graph.successors source
        else (lists[source - block]?).getD (method.graph.successors source)) ∧
      ∀ target < method.size, after.graph.predecessors target =
        method.graph.predecessors target ++
          (lists.zipIdx block).flatMap fun (targets, source) =>
            List.replicate (targets.count target) source := by
  induction lists generalizing method block with
  | nil => exact ⟨method, rfl, h, rfl, rfl, by simp, by simp⟩
  | cons targets lists ih =>
    obtain ⟨hfirst, hrest⟩ := List.forall_mem_cons.mp htargets
    rw [List.length_cons] at hroom
    have hblock : block < method.size := by omega
    rw [← Terminator.targets_ofTargets targets] at hfirst
    have hpreds : ∀ target < method.size,
        (method.rewire block (.ofTargets targets)).graph.predecessors target =
          method.graph.predecessors target ++ List.replicate (targets.count target) block := by
      intro target htarget
      rw [predecessors_rewire_of_fresh htarget (hfresh target htarget),
        Terminator.targets_ofTargets]
    have hroom' : block + 1 + lists.length ≤ (method.rewire block (.ofTargets targets)).size := by
      rw [size_rewire]
      omega
    have hfresh' : ∀ target < (method.rewire block (.ofTargets targets)).size,
        ∀ pred ∈ (method.rewire block (.ofTargets targets)).graph.predecessors target,
          pred < block + 1 := by
      intro target htarget pred hpred
      rw [size_rewire] at htarget
      rw [hpreds target htarget] at hpred
      rcases List.mem_append.mp hpred with hpred | hpred
      · exact Nat.lt_succ_of_lt (hfresh target htarget pred hpred)
      · exact Nat.lt_succ_of_le (Nat.le_of_eq (List.eq_of_mem_replicate hpred))
    obtain ⟨after, hafter, hconsistent, hsize, hheads, hsuccs, hlists⟩ :=
      ih (h.rewire hblock hfirst) hroom' (by simpa using hrest) hfresh'
    refine ⟨after, ?_, hconsistent, hsize.trans (size_rewire ..), hheads, fun source => ?_,
      fun target htarget => ?_⟩
    · rw [retargetAll, h.retarget_eq hblock hfirst]
      exact hafter
    · rw [hsuccs, successors_rewire hblock, Terminator.targets_ofTargets]
      rcases Nat.lt_trichotomy source block with hlt | rfl | hgt
      · rw [if_pos (Nat.lt_succ_of_lt hlt), if_neg (Nat.ne_of_lt hlt), if_pos hlt]
      · rw [if_pos (Nat.lt_succ_self _), if_pos rfl, if_neg (Nat.lt_irrefl _), Nat.sub_self]
        rfl
      · obtain ⟨later, rfl⟩ := Nat.exists_eq_add_of_lt hgt
        have hindex : block + later + 1 - block = later + 1 := by omega
        have hrest : block + later + 1 - (block + 1) = later := by omega
        rw [if_neg (show ¬ block + later + 1 < block + 1 by omega),
          if_neg (show ¬ block + later + 1 = block by omega),
          if_neg (show ¬ block + later + 1 < block by omega), hindex, hrest,
          List.getElem?_cons_succ]
    · rw [hlists target (by rwa [size_rewire]), hpreds target htarget, List.zipIdx_cons,
        List.flatMap_cons, List.append_assoc]

/-- A method with the blocks and edges that successor lists ask for: control enters at the
first block, both sides of all edges agree, and the predecessors of a block come in order,
each as often as it has the block in its list. -/
structure Realises (method : Method) (lists : List (List BlockId)) : Prop where
  size_eq : method.size = lists.length
  heads_eq : method.heads = [0]
  verify_eq : method.verify = .ok ()
  successors_eq : ∀ block, method.successors block = lists[block]?.getD []
  predecessors_eq : ∀ block < lists.length, method.predecessors block =
    .ok (lists.zipIdx.flatMap fun (targets, source) =>
      List.replicate (targets.count block) source)

theorem exists_realises (name : String) (hne : lists ≠ [])
    (htargets : ∀ targets ∈ lists, ∀ target ∈ targets, target < lists.length) :
    ∃ method, ofSuccessors name lists = .ok method ∧ method.Realises lists := by
  have hsize : (withBlocks name lists.length).size = lists.length := by
    have hpos := List.length_pos_iff.mpr hne
    simp only [size, withBlocks, Array.size_replicate]
    omega
  have hroom : 0 + lists.length ≤ (withBlocks name lists.length).size := by
    omega
  obtain ⟨after, hafter, hconsistent, hsame, hheads, hsuccs, hpreds⟩ :=
    (consistent_withBlocks name lists.length).retargetAll_eq hroom (by rwa [hsize]) (by
      intro target _ pred hpred
      rw [(edges_withBlocks name lists.length target).2] at hpred
      exact absurd hpred List.not_mem_nil)
  refine ⟨after, by simp only [ofSuccessors, hafter], ?_⟩
  constructor
  case size_eq => rw [hsame, hsize]
  case heads_eq => exact hheads
  case verify_eq => exact verify_eq_ok_iff.mpr hconsistent
  case successors_eq =>
    intro block
    rw [← Graph.successors_graph, hsuccs, if_neg (Nat.not_lt_zero block), Nat.sub_zero,
      (edges_withBlocks name lists.length block).1]
  case predecessors_eq =>
    intro block hblock
    have hlt : block < after.size := by rwa [hsame, hsize]
    have hlisted := hpreds block (by rwa [hsize])
    rw [(edges_withBlocks name lists.length block).2, List.nil_append] at hlisted
    have hok : after.predecessors block = .ok (after.blocks[block]).preds := by
      simp only [predecessors, Array.getElem?_eq_getElem hlt]
    rw [hok, ← Graph.predecessors_graph hok, hlisted]

/-! ## Edges -/

/-- Edges that are gathered one after the other lengthen the list of their source. -/
theorem getElem?_foldl_gather (edges : List (BlockId × BlockId))
    (table : Array (List BlockId)) (block : BlockId) :
    (edges.foldl (fun table (source, target) => table.modify source (· ++ [target]))
      table)[block]? = table[block]?.map (· ++ (edges.filter (·.1 == block)).map Prod.snd) := by
  induction edges generalizing table with
  | nil => simp
  | cons edge edges ih =>
    obtain ⟨source, target⟩ := edge
    rw [List.foldl_cons, ih, Array.getElem?_modify]
    by_cases hsource : source = block
    · subst hsource
      rw [if_pos rfl, Option.map_map, List.filter_cons_of_pos (by simp), List.map_cons]
      refine congrArg (Option.map · _) (funext fun targets => ?_)
      exact List.append_assoc targets [target] _
    · rw [if_neg hsource, List.filter_cons_of_neg (by simpa using hsource)]

/-- The targets of each of `count` blocks, in the order of the edges. -/
def targetLists (count : Nat) (edges : List (BlockId × BlockId)) : List (List BlockId) :=
  (List.range count).map fun block => (edges.filter (·.1 == block)).map Prod.snd

theorem gatherTargets_eq_ok {count : Nat} {edges : List (BlockId × BlockId)}
    (h : ∀ edge ∈ edges, edge.1 < count) :
    ∃ table, gatherTargets count edges = .ok table ∧ table.toList = targetLists count edges := by
  have hfind : edges.find? (fun (source, _) => count ≤ source) = none := by
    rw [List.find?_eq_none]
    intro edge hedge
    simpa using h edge hedge
  refine ⟨_, by rw [gatherTargets, hfind], List.ext_getElem? fun block => ?_⟩
  rw [Array.getElem?_toList, getElem?_foldl_gather, targetLists, List.getElem?_map,
    Array.getElem?_replicate]
  by_cases hblock : block < count
  · rw [if_pos hblock, List.getElem?_range hblock]
    rfl
  · rw [if_neg hblock, List.getElem?_eq_none (by simpa using hblock)]
    rfl

/-! ## Both ways to build a method -/

/-- Successor lists with existing targets are realised by the method built from them, and
edges between existing blocks by the lists of their targets. -/
theorem ofSuccessors_realises (name : String) :
    (∀ lists : List (List BlockId), lists ≠ [] →
      (∀ targets ∈ lists, ∀ target ∈ targets, target < lists.length) →
        ∃ method, ofSuccessors name lists = .ok method ∧ method.Realises lists) ∧
    ∀ (count : Nat) (edges : List (BlockId × BlockId)), 1 ≤ count →
      (∀ edge ∈ edges, edge.1 < count ∧ edge.2 < count) →
        ofEdges name count edges = ofSuccessors name (targetLists count edges) ∧
        ∃ method, ofEdges name count edges = .ok method ∧
          method.Realises (targetLists count edges) := by
  refine ⟨fun lists => exists_realises name, fun count edges hcount hedges => ?_⟩
  obtain ⟨table, htable, hlists⟩ := gatherTargets_eq_ok fun edge hedge => (hedges edge hedge).1
  have hsame : ofEdges name count edges = ofSuccessors name (targetLists count edges) := by
    rw [ofEdges, htable, ← hlists]
  have hlength : (targetLists count edges).length = count := by simp [targetLists]
  refine ⟨hsame, ?_⟩
  rw [hsame]
  refine exists_realises name (List.ne_nil_of_length_pos (by omega)) ?_
  intro targets htargets target htarget
  obtain ⟨block, -, rfl⟩ := List.mem_map.mp htargets
  obtain ⟨edge, hedge, rfl⟩ := List.mem_map.mp htarget
  rw [hlength]
  exact (hedges edge (List.mem_filter.mp hedge).1).2

/-- Block 0 switches to itself, to block 1 and in two cases to block 2, to which both branches
of block 1 lead. -/
theorem ofSuccessors_realises_tangle :
    (∃ method, ofSuccessors "tangle" [[2, 0, 2, 1], [2, 2], []] = .ok method ∧
      method.verify = .ok () ∧ method.successors 0 = [2, 0, 2, 1] ∧
      method.predecessors 2 = .ok [0, 0, 1, 1]) ∧
    ofEdges "tangle" 3 [(1, 2), (0, 2), (0, 0), (1, 2), (0, 2), (0, 1)] =
      ofSuccessors "tangle" [[2, 0, 2, 1], [2, 2], []] := by
  obtain ⟨hlists, hedges⟩ := ofSuccessors_realises "tangle"
  obtain ⟨method, hok, hshape⟩ := hlists [[2, 0, 2, 1], [2, 2], []] (by decide) (by decide)
  refine ⟨⟨method, hok, hshape.verify_eq, hshape.successors_eq 0, ?_⟩, ?_⟩
  · exact hshape.predecessors_eq 2 (by decide)
  · exact (hedges 3 [(1, 2), (0, 2), (0, 0), (1, 2), (0, 2), (0, 1)] (by decide) (by decide)).1

end Method

end MinimalSsa
