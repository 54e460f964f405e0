import MinimalSsa.Dominance.Parents

/-!
# Dominance frontiers

The frontier of a block is where its dominance ends: the blocks it does not
strictly dominate that have a predecessor it does dominate. They are found from
the other side. For an edge into a block, walk up the dominator tree from the
source of the edge to the parent of the block; the block is in the frontier of
everything passed on the way. A head has no parent, so a walk from an edge into
a head passes the head itself.

* `Parents.passed`: the blocks passed for one edge.
* `Graph.frontiers`: the table of all frontiers, each in the order of the search.
-/

namespace MinimalSsa

/-- The blocks passed from `pred` up to, and without, the parent of `block`. -/
def Parents.passed (parents : Parents) (block pred : BlockId) : List BlockId :=
  (parents.chain pred).takeWhile fun runner => some runner != parents.parent? block

namespace Frontiers

/-- List `block` in the frontier of `runner`, once. -/
def record (block : BlockId) (frontiers : Array (List BlockId)) (runner : BlockId) :
    Array (List BlockId) :=
  frontiers.modify runner fun frontier =>
    if frontier.contains block then frontier else frontier ++ [block]

/-- Record `block` for its incoming edges. Edges from blocks that the order does
not list are left out. -/
def recordBlock (graph : Graph) (positions : Positions) (parents : Parents)
    (frontiers : Array (List BlockId)) (block : BlockId) : Array (List BlockId) :=
  let sources := (graph.predecessors block).filter fun pred =>
    (positions.position? pred).isSome
  (sources.flatMap (parents.passed block)).foldl (record block) frontiers

end Frontiers

/-- The frontiers of all blocks. -/
def Graph.frontiers (graph : Graph) (order : List BlockId) (parents : Parents) :
    Array (List BlockId) :=
  order.foldl
    (Frontiers.recordBlock graph (Positions.ofOrder graph.size order) parents)
    (Array.replicate graph.size [])

end MinimalSsa
