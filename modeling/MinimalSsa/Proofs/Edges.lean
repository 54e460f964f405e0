import Mathlib.Tactic.ByContra
import MinimalSsa.Graph
import MinimalSsa.Method.Edges

/-!
# What the edge check guarantees

`Method.verify` is a search for a first defect. Seen from outside it is a
decision: it answers `.ok` exactly for the methods with `Method.Consistent`
edges. On the graph of such a method the two sides of every edge mirror each
other, and that is all that analyses of control flow rely on.

* `Method.verify_eq_ok_iff`: the check decides consistency.
* `Graph.Mirrored`: edges lead to blocks of the graph, and a block is a predecessor
  exactly of its successors.
* `Method.Consistent.mirrored`: the graph of a consistent method is mirrored.
* `Method.consistent_iff`: nothing but the graph and the heads matters.
-/

namespace MinimalSsa

/-- Edges lead to blocks of the graph and are known on both of their sides. -/
structure Graph.Mirrored (graph : Graph) : Prop where
  target_lt : ∀ source target, target ∈ graph.successors source → target < graph.size
  pred_iff : ∀ source target,
    source ∈ graph.predecessors target ↔ target ∈ graph.successors source

/-- Only blocks of the graph have successors. -/
theorem Graph.source_lt {graph : Graph} {source target : BlockId}
    (h : target ∈ graph.successors source) : source < graph.size := by
  by_contra hge
  have hnone : graph.nodes[source]? = none := Array.getElem?_eq_none (Nat.le_of_not_lt hge)
  simp [Graph.successors, hnone] at h

namespace Method

variable {method : Method}

/-! ## References -/

/-- The blocks of a method are listed with their positions. -/
theorem mem_indexedBlocks_iff {found : Block} {block : BlockId} :
    (found, block) ∈ method.indexedBlocks ↔ method.blocks[block]? = some found := by
  rw [indexedBlocks, List.mem_zipIdx_iff_getElem?, Array.getElem?_toList]

/-- A block refers to its targets and its predecessors. -/
theorem mem_references_of_block {block target : BlockId} {found : Block}
    (hfound : method.blocks[block]? = some found)
    (h : target ∈ found.terminator.targets ∨ target ∈ found.preds) :
    (block, target) ∈ method.references := by
  refine List.mem_append_left _ (List.mem_flatMap.mpr ⟨(found, block), ?_, ?_⟩)
  · exact mem_indexedBlocks_iff.mpr hfound
  · exact List.mem_map.mpr ⟨target, List.mem_append.mpr h, rfl⟩

theorem mem_references_of_head {head : BlockId} (h : head ∈ method.heads) :
    (head, head) ∈ method.references :=
  List.mem_append_right _ (List.mem_map.mpr ⟨head, h, rfl⟩)

/-- There are no other references. -/
theorem of_mem_references {reference : BlockId × BlockId}
    (h : reference ∈ method.references) :
    (∃ found, method.blocks[reference.1]? = some found ∧
      (reference.2 ∈ found.terminator.targets ∨ reference.2 ∈ found.preds)) ∨
      reference.2 ∈ method.heads := by
  rcases List.mem_append.mp h with h | h
  · obtain ⟨⟨found, block⟩, hentry, hmem⟩ := List.mem_flatMap.mp h
    obtain ⟨target, htarget, rfl⟩ := List.mem_map.mp hmem
    exact .inl ⟨found, mem_indexedBlocks_iff.mp hentry, List.mem_append.mp htarget⟩
  · obtain ⟨head, hhead, rfl⟩ := List.mem_map.mp h
    exact .inr hhead

/-! ## The check as a decision -/

theorem missingReference?_eq_none_iff :
    method.missingReference? = none ↔
      ∀ reference ∈ method.references, reference.2 < method.size := by
  rw [missingReference?, List.find?_eq_none]
  refine forall₂_congr fun reference _ => ?_
  simp [hasBlock]

theorem unbalancedEdge?_eq_none_iff :
    method.unbalancedEdge? = none ↔
      ∀ source < method.size, ∀ target < method.size,
        method.outCount source target = method.inCount source target := by
  simp [unbalancedEdge?, List.findSome?_eq_none_iff, List.find?_eq_none]

/-- Both counts are taken from the graph. -/
theorem outCount_eq_count (source target : BlockId) :
    method.outCount source target = (method.graph.successors source).count target := by
  rw [Graph.successors_graph, outCount, successors]
  cases method.blocks[source]? with
  | none => rfl
  | some found => rfl

theorem inCount_eq_count (source target : BlockId) :
    method.inCount source target = (method.graph.predecessors target).count source := by
  simp only [inCount, Graph.predecessors, graph, Array.getElem?_map]
  cases method.blocks[target]? with
  | none => rfl
  | some found => rfl

/-- An edge is listed on the left side only where its source has it for a target. -/
theorem outCount_pos_iff {source target : BlockId} :
    0 < method.outCount source target ↔ target ∈ method.graph.successors source := by
  rw [outCount_eq_count]
  exact List.count_pos_iff

/-- An edge is listed on the right side only where its target has it for a predecessor. -/
theorem inCount_pos_iff {source target : BlockId} :
    0 < method.inCount source target ↔ source ∈ method.graph.predecessors target := by
  rw [inCount_eq_count]
  exact List.count_pos_iff

/-- Where every reference exists, the targets of a block do. -/
theorem target_lt_of_present
    (h : ∀ reference ∈ method.references, reference.2 < method.size)
    {source target : BlockId} (hedge : 0 < method.outCount source target) :
    target < method.size := by
  rw [outCount_pos_iff, Graph.successors_graph, successors] at hedge
  cases hfound : method.blocks[source]? with
  | none => simp [hfound] at hedge
  | some found =>
    rw [hfound] at hedge
    exact h _ (mem_references_of_block hfound (.inl hedge))

/-- Where every reference exists, the predecessors of a block do. -/
theorem source_lt_of_present
    (h : ∀ reference ∈ method.references, reference.2 < method.size)
    {source target : BlockId} (hedge : 0 < method.inCount source target) :
    source < method.size := by
  rw [inCount] at hedge
  cases hfound : method.blocks[target]? with
  | none => simp [hfound] at hedge
  | some found =>
    rw [hfound] at hedge
    exact h _ (mem_references_of_block hfound (.inr (List.count_pos_iff.mp hedge)))

/-- So an edge that is listed unequally is one between blocks of the method. -/
theorem lt_size_of_ne (h : ∀ reference ∈ method.references, reference.2 < method.size)
    {source target : BlockId}
    (hne : method.outCount source target ≠ method.inCount source target) :
    source < method.size ∧ target < method.size := by
  by_cases hout : 0 < method.outCount source target
  · have hsource := Graph.source_lt (outCount_pos_iff.mp hout)
    rw [Graph.size_graph] at hsource
    exact ⟨hsource, target_lt_of_present h hout⟩
  · have hin : 0 < method.inCount source target := by omega
    refine ⟨source_lt_of_present h hin, ?_⟩
    by_contra hge
    have hnone : method.blocks[target]? = none := Array.getElem?_eq_none (Nat.le_of_not_lt hge)
    simp [inCount, hnone] at hin

/-- The check passes exactly the methods with consistent edges. -/
theorem verify_eq_ok_iff : method.verify = .ok () ↔ method.Consistent := by
  have hsplit : method.verify = .ok () ↔
      method.missingReference? = none ∧ method.unbalancedEdge? = none := by
    rw [verify]
    split <;> rename_i hmissing
    · simp [hmissing]
    · split <;> rename_i hedge <;> simp [hmissing, hedge]
  rw [hsplit, missingReference?_eq_none_iff, unbalancedEdge?_eq_none_iff]
  constructor
  · rintro ⟨hpresent, hbalanced⟩
    refine ⟨hpresent, fun source target => ?_⟩
    by_contra hne
    obtain ⟨hsource, htarget⟩ := lt_size_of_ne hpresent hne
    exact hne (hbalanced source hsource target htarget)
  · rintro ⟨hpresent, hbalanced⟩
    exact ⟨hpresent, fun source _ target _ => hbalanced source target⟩

namespace Consistent

/-- On the graph of a consistent method the sides of every edge agree. -/
theorem mirrored (h : method.Consistent) : method.graph.Mirrored where
  target_lt source target hedge := by
    rw [Graph.size_graph]
    exact target_lt_of_present h.present (outCount_pos_iff.mpr hedge)
  pred_iff source target := by
    rw [← inCount_pos_iff, ← outCount_pos_iff, h.balanced source target]

/-- The heads of a consistent method exist. -/
theorem head_lt (h : method.Consistent) : ∀ head ∈ method.heads, head < method.graph.size := by
  intro head hhead
  rw [Graph.size_graph]
  exact h.present _ (mem_references_of_head hhead)

/-- Consistency looks at the heads as a set. -/
theorem of_heads (h : method.Consistent) {heads : List BlockId}
    (hsub : ∀ head ∈ heads, head ∈ method.heads) :
    ({ method with heads := heads } : Method).Consistent where
  present reference href := by
    rcases of_mem_references href with ⟨found, hfound, hmem⟩ | hmem
    · exact h.present _ (mem_references_of_block hfound hmem)
    · exact h.present (reference.2, reference.2) (mem_references_of_head (hsub _ hmem))
  balanced := h.balanced

end Consistent

/-- Consistency is a matter of the graph and the heads. -/
theorem consistent_iff : method.Consistent ↔
    (∀ source, ∀ target ∈ method.graph.successors source, target < method.graph.size) ∧
    (∀ head ∈ method.heads, head < method.graph.size) ∧
    ∀ source target, (method.graph.successors source).count target =
      (method.graph.predecessors target).count source := by
  simp only [← outCount_eq_count, ← inCount_eq_count]
  constructor
  · intro h
    exact ⟨h.mirrored.target_lt, h.head_lt, h.balanced⟩
  · rintro ⟨htarget, hhead, hbalanced⟩
    refine ⟨fun reference href => ?_, hbalanced⟩
    rw [← Graph.size_graph]
    rcases of_mem_references href with ⟨found, hfound, hmem | hmem⟩ | hmem
    · refine htarget reference.1 reference.2 ?_
      rwa [Graph.successors_graph, successors, hfound]
    · -- a listed predecessor has the block for a target, so it exists
      have hin : 0 < method.inCount reference.2 reference.1 := by
        rw [inCount, hfound]
        exact List.count_pos_iff.mpr hmem
      rw [← hbalanced, outCount_pos_iff] at hin
      exact Graph.source_lt hin
    · exact hhead reference.2 hmem

theorem Consistent.congr {other : Method} (h : method.Consistent)
    (hgraph : other.graph = method.graph) (hheads : other.heads = method.heads) :
    other.Consistent := by
  rw [consistent_iff, hgraph, hheads]
  exact consistent_iff.mp h

end Method

end MinimalSsa
