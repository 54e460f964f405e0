import MinimalSsa.Graph
import MinimalSsa.Graph.BlockSet

/-!
# Reachability around a removed block

Which blocks a head reaches once one block is taken out of the graph. A block
dominates exactly those that its removal cuts off.

* `Graph.flood`: spread from a stack of blocks, never entering the removed one.
* `Graph.reachableWithout`: the blocks that `head` reaches that way.
-/

namespace MinimalSsa

namespace Graph

/-- Spread over the graph: `scan` holds successors yet to look at, `stack` blocks
met whose successors come later, `found` everything met so far. -/
def flood (graph : Graph) (removed : Option BlockId) :
    List BlockId → List BlockId → BlockSet → Except Fault BlockSet
  | [], [], found => .ok found
  | [], block :: stack, found => graph.flood removed (graph.successors block) stack found
  | next :: scan, stack, found =>
    if some next = removed then graph.flood removed scan stack found
    else if found.lacks next then
      graph.flood removed scan (next :: stack) (found.insert next)
    else if found.contains next then graph.flood removed scan stack found
    else .error (.outOfBounds found.size next)
  termination_by scan stack found => (found.free, stack.length, scan.length)
  decreasing_by
  · exact Prod.Lex.right _ (Prod.Lex.left _ _ (by simp))
  · exact Prod.Lex.right _ (Prod.Lex.right _ (by simp))
  · rename_i hlacks
    exact Prod.Lex.left _ _ (BlockSet.free_insert_lt hlacks)
  · exact Prod.Lex.right _ (Prod.Lex.right _ (by simp))

/-- The blocks that `head` reaches without entering `removed`. -/
def reachableWithout (graph : Graph) (removed : Option BlockId) (head : BlockId) :
    Except Fault BlockSet :=
  if some head = removed then .ok (BlockSet.empty graph.size)
  else if head < graph.size then
    graph.flood removed [] [head] ((BlockSet.empty graph.size).insert head)
  else .error (.outOfBounds graph.size head)

end Graph

end MinimalSsa
