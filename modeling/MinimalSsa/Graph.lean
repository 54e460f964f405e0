import MinimalSsa.Method

/-!
# Flow graphs

The edges of a method and nothing else, each known from both sides: `succs`
from the terminators, `preds` from the stored predecessor lists. All analyses of
control flow are functions of this graph, so code that is added to a block
without touching edges cannot change their answers.

* `Method.graph`: the graph of a method.
* `Graph.Walk`: a walk along successors, with the blocks it visits.
* `Graph.Reaches`, `Graph.Dominates`: reachability and dominance by walks. An
  unreachable block is dominated by nothing.
-/

namespace MinimalSsa

/-- The edges at one block: where it leads and what leads to it. -/
structure Node where
  succs : List BlockId
  preds : List BlockId
  deriving DecidableEq, Inhabited

/-- The edges of a method, block by block. -/
structure Graph where
  nodes : Array Node
  deriving DecidableEq, Inhabited

/-- The edges at one block of a method. -/
def Block.node (block : Block) : Node where
  succs := block.terminator.targets
  preds := block.preds

/-- The graph of a method. -/
def Method.graph (method : Method) : Graph where
  nodes := method.blocks.map Block.node

namespace Graph

/-- The number of blocks. -/
def size (graph : Graph) : Nat :=
  graph.nodes.size

/-- The successors of a block; none for a block that does not exist. -/
def successors (graph : Graph) (block : BlockId) : List BlockId :=
  match graph.nodes[block]? with
  | some node => node.succs
  | none => []

/-- The predecessors of a block; none for a block that does not exist. -/
def predecessors (graph : Graph) (block : BlockId) : List BlockId :=
  match graph.nodes[block]? with
  | some node => node.preds
  | none => []

@[simp] theorem size_graph (method : Method) : method.graph.size = method.size := by
  simp [size, Method.graph, Method.size]

/-- A method and its graph have the same successors. -/
theorem successors_graph (method : Method) (block : BlockId) :
    method.graph.successors block = method.successors block := by
  simp only [successors, Method.successors, Method.graph, Array.getElem?_map]
  cases method.blocks[block]? with
  | none => rfl
  | some found => rfl

/-- A method and its graph have the same predecessors. -/
theorem predecessors_graph {method : Method} {block : BlockId} {preds : List BlockId}
    (h : method.predecessors block = .ok preds) :
    method.graph.predecessors block = preds := by
  simp only [Method.predecessors] at h
  simp only [predecessors, Method.graph, Array.getElem?_map]
  cases hfound : method.blocks[block]? with
  | none => simp [hfound] at h
  | some found =>
    rw [hfound] at h
    exact Except.ok.inj h

/-! ## Walks -/

/-- `graph.Walk source target visited`: control can go from `source` to `target`
along successors, visiting exactly the blocks `visited`, both ends included. -/
inductive Walk (graph : Graph) : BlockId → BlockId → List BlockId → Prop where
  | here (block : BlockId) : Walk graph block block [block]
  | step {source next target : BlockId} {visited : List BlockId} :
      next ∈ graph.successors source → Walk graph next target visited →
      Walk graph source target (source :: visited)

/-- Some walk leads from `source` to `target`. -/
def Reaches (graph : Graph) (source target : BlockId) : Prop :=
  ∃ visited, graph.Walk source target visited

/-- `dominator` is on every walk from `head` to `block`, and there is one. -/
def Dominates (graph : Graph) (head dominator block : BlockId) : Prop :=
  graph.Reaches head block ∧ ∀ visited, graph.Walk head block visited → dominator ∈ visited

end Graph

end MinimalSsa
