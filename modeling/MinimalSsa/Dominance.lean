import MinimalSsa.Dominance.Frontier
import MinimalSsa.Dominance.Worklist

/-!
# Dominance from one head

Dominator tree and dominance frontiers of the blocks reachable from one head,
computed once and then asked.

* `Dominance.compute`: the analysis. A missing head is a violation; a missing
  successor or predecessor met on the way is a fault.
* `Dominance.dominates`, `Dominance.immediateDominator?`, `Dominance.children`:
  the tree.
* `Dominance.frontier`: the frontier of a reachable block.
* `Dominance.queue`, `Dominance.drain`: the search for an iterated frontier, from a stack
  of blocks.
* `Dominance.iteratedFrontier`: the least set that holds the frontiers of given
  blocks and of its own members, in the order of the search.
-/

namespace MinimalSsa

/-- What is known about the blocks reachable from `head`. -/
structure Dominance where
  head : BlockId
  /-- The reachable blocks in reverse postorder. -/
  order : List BlockId
  positions : Positions
  parents : Parents
  children : Array (List BlockId)
  frontiers : Array (List BlockId)
  deriving DecidableEq, Inhabited

/-- For each block the blocks whose parent it is, in the order of the search. -/
def Parents.children (parents : Parents) (order : List BlockId) : Array (List BlockId) :=
  order.foldl (fun children block =>
    match parents.parent? block with
    | some parent => children.modify parent (· ++ [block])
    | none => children) (Array.replicate parents.size [])

namespace Dominance

/-- The first predecessor the analysis meets that does not exist. The blocks after
the head come first, the head itself last. -/
def missingPred? (graph : Graph) (order : List BlockId) : Option BlockId :=
  ((order.drop 1 ++ order.take 1).flatMap graph.predecessors).find? fun pred =>
    graph.size ≤ pred

/-- The analysis of a graph without missing references, for a known order. -/
def ofOrder (graph : Graph) (head : BlockId) (order : List BlockId) : Dominance :=
  let parents := graph.parents head order
  { head := head
    order := order
    positions := Positions.ofOrder graph.size order
    parents := parents
    children := parents.children order
    frontiers := graph.frontiers order parents }

/-- Analyse the blocks reachable from `head`. -/
def compute (graph : Graph) (head : BlockId) : Except Failure Dominance :=
  if head < graph.size then
    match graph.reversePostorder head with
    | .error fault => .error (.fault fault)
    | .ok order =>
      match missingPred? graph order with
      | some pred => .error (.fault (.outOfBounds graph.size pred))
      | none => .ok (ofOrder graph head order)
  else .error (.violation (.missingBlock head head))

/-! ## The tree -/

/-- Is the block reachable from the head? -/
def isReachable (dominance : Dominance) (block : BlockId) : Bool :=
  (dominance.positions.position? block).isSome

/-- The closest strict dominator of a block. The head and unreachable blocks have
none. -/
def immediateDominator? (dominance : Dominance) (block : BlockId) : Option BlockId :=
  dominance.parents.parent? block

/-- The blocks whose closest strict dominator is `block`. -/
def childrenOf (dominance : Dominance) (block : BlockId) : List BlockId :=
  dominance.children[block]?.getD []

/-- Does `a` dominate `b`? Every reachable block dominates itself, and unreachable
blocks neither dominate nor are dominated. -/
def dominates (dominance : Dominance) (a b : BlockId) : Bool :=
  dominance.isReachable a && dominance.isReachable b &&
    (dominance.parents.chain b).contains a

/-- Does `a` dominate `b` without being `b`? -/
def strictlyDominates (dominance : Dominance) (a b : BlockId) : Bool :=
  a != b && dominance.dominates a b

/-- Every reachable block but the head, with its closest strict dominator. -/
def tree (dominance : Dominance) : List (BlockId × BlockId) :=
  dominance.order.filterMap fun block =>
    (dominance.parents.parent? block).map (block, ·)

/-! ## Frontiers -/

/-- The recorded frontier of a block. -/
def frontierOf (dominance : Dominance) (block : BlockId) : List BlockId :=
  dominance.frontiers[block]?.getD []

/-- The frontier of a reachable block, in the order of the search. -/
def frontier (dominance : Dominance) (block : BlockId) : Except Violation (List BlockId) :=
  if dominance.isReachable block then .ok (dominance.frontierOf block)
  else .error (.unreachableBlock block dominance.head)

/-- Let the given blocks wait, up to the first that is not reachable. -/
def queue (dominance : Dominance) : List BlockId → Worklist → Except Violation Worklist
  | [], work => .ok work
  | block :: blocks, work =>
    if dominance.isReachable block then dominance.queue blocks (work.push block)
    else .error (.unreachableBlock block dominance.head)

/-- Take the last waiting block and meet all blocks of its frontier, until none waits. -/
def drain (dominance : Dominance) : Worklist → Worklist
  | ⟨[], queued, found⟩ => ⟨[], queued, found⟩
  | ⟨block :: stack, queued, found⟩ =>
    dominance.drain ((dominance.frontierOf block).foldl .meet ⟨stack, queued, found⟩)
  termination_by work => work.pending
  decreasing_by exact Worklist.pending_pop_lt ..

/-- The blocks that were met, in the order of the search. -/
def met (dominance : Dominance) (work : Worklist) : List BlockId :=
  dominance.order.filter work.found.contains

/-- The iterated frontier of `blocks`, all of which have to be reachable. -/
def iteratedFrontier (dominance : Dominance) (blocks : List BlockId) :
    Except Violation (List BlockId) :=
  match dominance.queue blocks (.empty dominance.frontiers.size) with
  | .error violation => .error violation
  | .ok work => .ok (dominance.met (dominance.drain work))

end Dominance

end MinimalSsa
