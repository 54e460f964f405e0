import Mathlib.Logic.Function.Iterate
import MinimalSsa.Method.Edit
import MinimalSsa.Proofs.Edges

/-!
# What retargeting does to the edges

Retargeting a block takes out one edge for each old target and puts in one for each new
target, also where targets repeat, are shared by the two terminators, or are the block
itself. On a method with consistent edges the net effect is simple: every predecessor list
loses all its entries for the block and gets one at its end for each time it is a new target.

* `Method.editEach_eq`: an edit at each of several existing blocks is a sequence of changes.
* `Method.foldl_modifyBlock`: a block is changed as often as it is listed.
* `Method.rewire`: the net effect of retargeting, block by block; `Method.relist`: what it
  does to predecessor lists alone.
* `Method.Consistent.retarget_eq`: retargeting has this effect and does not fail.
* `Method.Consistent.rewire`: edges stay consistent.
-/

namespace MinimalSsa

/-! ## One predecessor list -/

/-- A list of predecessors with one of them taken out and put at the end `count` times. -/
def relisted (block : BlockId) (count : Nat) (preds : List BlockId) : List BlockId :=
  preds.filter (· ≠ block) ++ List.replicate count block

/-- Only the count of that one changes. -/
theorem count_relisted (block other : BlockId) (count : Nat) (preds : List BlockId) :
    (relisted block count preds).count other =
      if other = block then count else preds.count other := by
  rw [relisted, List.count_append, List.count_replicate]
  by_cases heq : other = block
  · subst heq
    have hnone : (preds.filter (· ≠ other)).count other = 0 := List.count_eq_zero.mpr (by simp)
    rw [hnone]
    simp
  · have hkeep : (preds.filter (· ≠ block)).count other = preds.count other :=
      List.count_filter (by simpa using heq)
    rw [hkeep]
    simp [heq, Ne.symm heq]

namespace Block

/-- The block at `place` once `block` has a new terminator: among the predecessors `block` is
taken out and put at the end, once for each time `place` is a target. -/
def rewired (found : Block) (place block : BlockId) (terminator : Terminator) : Block :=
  { found with
    preds := relisted block (terminator.targets.count place) found.preds
    terminator := if place = block then terminator else found.terminator }

/-- Recording an edge several times lists its source as often at the end. -/
theorem iterate_addPred (block : Block) (pred : BlockId) (count : Nat) :
    (·.addPred pred)^[count] block =
      { block with preds := block.preds ++ List.replicate count pred } := by
  induction count generalizing block with
  | zero => simp
  | succ count ih =>
    rw [Function.iterate_succ_apply, ih, addPred, List.replicate_succ, List.append_assoc,
      List.singleton_append]

/-- Forgetting an edge as often as it is listed, or more often, leaves the other sources. -/
theorem iterate_removePred (block : Block) (pred : BlockId) {count : Nat}
    (h : block.preds.count pred ≤ count) :
    (·.removePred pred)^[count] block =
      { block with preds := block.preds.filter (· ≠ pred) } := by
  induction count generalizing block with
  | zero =>
    have hnone : pred ∉ block.preds := List.count_eq_zero.mp (Nat.le_zero.mp h)
    have hall : block.preds.filter (· ≠ pred) = block.preds :=
      List.filter_eq_self.mpr fun other hother => by
        simpa using fun heq : other = pred => hnone (heq ▸ hother)
    rw [hall]
    rfl
  | succ count ih =>
    have hle : (block.removePred pred).preds.count pred ≤ count := by
      show (block.preds.erase pred).count pred ≤ count
      rw [List.count_erase_self]
      omega
    -- the first entry is gone and the filter would have dropped it
    have hfilter : (block.preds.erase pred).filter (· ≠ pred) =
        block.preds.filter (· ≠ pred) := by
      rw [← List.erase_filter, List.erase_of_not_mem (by simp)]
    rw [Function.iterate_succ_apply, ih _ hle]
    show { block with preds := (block.preds.erase pred).filter (· ≠ pred) } = _
    rw [hfilter]

end Block

namespace Method

variable {method : Method} {block : BlockId} {terminator : Terminator}
variable {targets : List BlockId}

/-! ## Several blocks -/

/-- Editing at existing blocks changes one after the other. -/
theorem editEach_eq {edit : Method → BlockId → Except Fault Method} {change : Block → Block}
    (hedit : ∀ (method : Method), ∀ block < method.size,
      edit method block = .ok (method.modifyBlock block change))
    (htargets : ∀ target ∈ targets, target < method.size) :
    method.editEach edit targets =
      { method := targets.foldl (fun method block => method.modifyBlock block change) method } := by
  induction targets generalizing method with
  | nil => rfl
  | cons target targets ih =>
    obtain ⟨hfirst, hrest⟩ := List.forall_mem_cons.mp htargets
    rw [editEach, hedit method target hfirst, List.foldl_cons]
    exact ih fun other hother => by simpa using hrest other hother

/-- Each block is changed as often as it is listed. -/
theorem foldl_modifyBlock (method : Method) (change : Block → Block)
    (targets : List BlockId) :
    targets.foldl (fun method block => method.modifyBlock block change) method =
      { method with
        blocks := method.blocks.mapIdx fun block => change^[targets.count block] } := by
  induction targets generalizing method with
  | nil =>
    show method = { method with blocks := method.blocks.mapIdx fun _ => id }
    have hsame : (method.blocks.mapIdx fun _ => id) = method.blocks :=
      Array.ext_getElem? fun block => by simp
    rw [hsame]
  | cons target targets ih =>
    rw [List.foldl_cons, ih]
    show ({ method with blocks := _ } : Method) = { method with blocks := _ }
    congr 1
    apply Array.ext_getElem?
    intro block
    rw [Array.getElem?_mapIdx, Array.getElem?_mapIdx, getElem?_modifyBlock]
    by_cases heq : target = block
    · subst heq
      rw [if_pos rfl, Option.map_map, List.count_cons_self]
      rfl
    · rw [if_neg heq, List.count_cons_of_ne heq]

/-- Edges to existing blocks are recorded as often as they are listed. -/
theorem connectAll_eq (pred : BlockId) (htargets : ∀ target ∈ targets, target < method.size) :
    method.connectAll pred targets = { method := { method with
      blocks := method.blocks.mapIdx fun block =>
        (·.addPred pred)^[targets.count block] } } := by
  have hedit : ∀ (method : Method), ∀ block < method.size,
      method.connect pred block = .ok (method.modifyBlock block (·.addPred pred)) :=
    fun method block hlt => if_pos (decide_eq_true hlt)
  rw [connectAll, editEach_eq hedit htargets, foldl_modifyBlock]

/-- And forgotten as often. -/
theorem disconnectAll_eq (pred : BlockId)
    (htargets : ∀ target ∈ targets, target < method.size) :
    method.disconnectAll pred targets = { method := { method with
      blocks := method.blocks.mapIdx fun block =>
        (·.removePred pred)^[targets.count block] } } := by
  have hedit : ∀ (method : Method), ∀ block < method.size,
      method.disconnect pred block = .ok (method.modifyBlock block (·.removePred pred)) :=
    fun method block hlt => if_pos (decide_eq_true hlt)
  rw [disconnectAll, editEach_eq hedit htargets, foldl_modifyBlock]

/-! ## Retargeting -/

/-- The method with the edges of one block replaced by those of a terminator. -/
def rewire (method : Method) (block : BlockId) (terminator : Terminator) : Method :=
  { method with
    blocks := method.blocks.mapIdx fun place found => found.rewired place block terminator }

@[simp] theorem size_rewire (method : Method) (block : BlockId) (terminator : Terminator) :
    (method.rewire block terminator).size = method.size := by
  simp [size, rewire]

theorem getElem?_rewire (method : Method) (block : BlockId) (terminator : Terminator)
    (place : BlockId) :
    (method.rewire block terminator).blocks[place]? =
      method.blocks[place]?.map (·.rewired place block terminator) :=
  Array.getElem?_mapIdx

theorem successors_rewire (hblock : block < method.size) (terminator : Terminator)
    (source : BlockId) :
    (method.rewire block terminator).graph.successors source =
      if source = block then terminator.targets else method.graph.successors source := by
  rw [Graph.successors_graph, Graph.successors_graph, successors, successors, getElem?_rewire]
  by_cases heq : source = block
  · subst heq
    rw [if_pos rfl, Array.getElem?_eq_getElem hblock, Option.map_some, Block.rewired, if_pos rfl]
  · rw [if_neg heq]
    cases method.blocks[source]? with
    | none => rfl
    | some found => simp [Block.rewired, heq]

theorem predecessors_rewire {target : BlockId} (htarget : target < method.size)
    (block : BlockId) (terminator : Terminator) :
    (method.rewire block terminator).graph.predecessors target =
      relisted block (terminator.targets.count target) (method.graph.predecessors target) := by
  have hfound : method.blocks[target]? = some method.blocks[target] :=
    Array.getElem?_eq_getElem htarget
  simp only [Graph.predecessors, graph, Array.getElem?_map, getElem?_rewire, hfound,
    Option.map_some, Block.node, Block.rewired]

/-- The method with one block taken out of all predecessor lists and put at the end of a list
once for each time the list's own block is among the targets. Terminators stay. -/
def relist (method : Method) (block : BlockId) (targets : List BlockId) : Method :=
  { method with
    blocks := method.blocks.mapIdx fun other found =>
      { found with preds := relisted block (targets.count other) found.preds } }

@[simp] theorem size_relist (method : Method) (block : BlockId) (targets : List BlockId) :
    (method.relist block targets).size = method.size := by
  simp [size, relist]

theorem getElem?_relist (method : Method) (block : BlockId) (targets : List BlockId)
    (other : BlockId) :
    (method.relist block targets).blocks[other]? = method.blocks[other]?.map fun found =>
      { found with preds := relisted block (targets.count other) found.preds } := by
  rw [relist, Array.getElem?_mapIdx]

/-- Rewiring is relisting and then exchanging the terminator. -/
theorem modifyBlock_relist (method : Method) (block : BlockId) (terminator : Terminator) :
    (method.relist block terminator.targets).modifyBlock block (·.setTerminator terminator) =
      method.rewire block terminator := by
  show ({ method with blocks := _ } : Method) = { method with blocks := _ }
  congr 1
  apply Array.ext_getElem?
  intro other
  rw [Array.getElem?_modify, getElem?_relist, Array.getElem?_mapIdx]
  cases method.blocks[other]? with
  | none => simp
  | some found =>
    by_cases heq : block = other
    · subst heq
      simp [Block.setTerminator, Block.rewired]
    · simp [heq, Ne.symm heq, Block.rewired]

namespace Consistent

/-- Taking out the old edges of a block and putting in new ones relists it. -/
theorem reconnect_eq (h : method.Consistent) {found : Block}
    (hfound : method.blocks[block]? = some found)
    (htargets : ∀ target ∈ targets, target < method.size) :
    (method.disconnectAll block found.terminator.targets).fault = none ∧
      (method.disconnectAll block found.terminator.targets).method.connectAll block targets =
        { method := method.relist block targets } := by
  -- all old edges are taken out and all new ones put in, since their targets exist
  have hold : ∀ target ∈ found.terminator.targets, target < method.size := fun target hmem =>
    h.present _ (mem_references_of_block hfound (.inl hmem))
  rw [disconnectAll_eq block hold]
  refine ⟨rfl, ?_⟩
  rw [connectAll_eq block (by simpa [size] using htargets)]
  show Edit.mk _ none = Edit.mk _ none
  congr 1
  show ({ method with blocks := _ } : Method) = { method with blocks := _ }
  congr 1
  apply Array.ext_getElem?
  intro other
  rw [Array.getElem?_mapIdx, Array.getElem?_mapIdx, Array.getElem?_mapIdx]
  cases hother : method.blocks[other]? with
  | none => simp
  | some present =>
    -- a list held the block as often as it was a target
    have hcount : present.preds.count block ≤ found.terminator.targets.count other := by
      have hbalanced := h.balanced block other
      simp only [outCount, inCount, hfound, hother] at hbalanced
      exact Nat.le_of_eq hbalanced.symm
    simp only [Option.map_some, Block.iterate_removePred present block hcount,
      Block.iterate_addPred, relisted]

/-- Retargeting an existing block to existing targets rewires it, and does not fail. -/
theorem retarget_eq (h : method.Consistent) (hblock : block < method.size)
    (htargets : ∀ target ∈ terminator.targets, target < method.size) :
    method.retarget block terminator = { method := method.rewire block terminator } := by
  obtain ⟨found, hfound⟩ : ∃ found, method.blocks[block]? = some found :=
    ⟨_, Array.getElem?_eq_getElem hblock⟩
  obtain ⟨hfault, hjoined⟩ := h.reconnect_eq hfound htargets
  simp only [retarget, hfound, hfault, hjoined, modifyBlock_relist]

/-- Rewiring keeps edges consistent. -/
theorem rewire (h : method.Consistent) (hblock : block < method.size)
    (htargets : ∀ target ∈ terminator.targets, target < method.size) :
    (method.rewire block terminator).Consistent := by
  obtain ⟨hsuccs, hheads, hbalanced⟩ := consistent_iff.mp h
  rw [Graph.size_graph] at hsuccs hheads
  rw [consistent_iff, Graph.size_graph, size_rewire]
  have hlt : ∀ source, ∀ target ∈ (method.rewire block terminator).graph.successors source,
      target < method.size := by
    intro source target htarget
    rw [successors_rewire hblock] at htarget
    split at htarget
    · exact htargets target htarget
    · exact hsuccs source target htarget
  refine ⟨hlt, hheads, fun source target => ?_⟩
  by_cases htarget : target < method.size
  · rw [successors_rewire hblock, predecessors_rewire htarget, count_relisted]
    by_cases heq : source = block
    · rw [if_pos heq, if_pos heq]
    · rw [if_neg heq, if_neg heq, hbalanced]
  · -- a block that does not exist is no target and has no predecessors
    have hsize : (method.rewire block terminator).graph.size ≤ target := by
      rw [Graph.size_graph, size_rewire]
      exact Nat.le_of_not_lt htarget
    have hpreds : (method.rewire block terminator).graph.predecessors target = [] := by
      rw [Graph.predecessors, Array.getElem?_eq_none hsize]
    rw [hpreds, List.count_nil, List.count_eq_zero]
    exact fun hmem => htarget (hlt source target hmem)

end Consistent

end Method

end MinimalSsa
