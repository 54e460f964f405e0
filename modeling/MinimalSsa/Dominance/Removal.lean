import MinimalSsa.Graph.Flood

/-!
# Dominance by removal

Dominance straight from its definition: a block dominates what the head no longer
reaches once the block is taken away. It costs a search per block, and nothing
in it depends on trees, so it serves to judge the faster analysis.

Queries look blocks up in tables with one entry per block; a block outside is a
fault.

* `Removal.compute`: the dominators of every block.
* `Removal.immediateDominator?`, `Removal.frontier`, `Removal.iteratedFrontier`:
  the same notions as those of the fast analysis, by their definitions.
-/

namespace MinimalSsa

/-- A graph with the blocks reachable in it and the dominators of every block, in
ascending order. -/
structure Removal where
  graph : Graph
  reachable : BlockSet
  dominators : Array (List BlockId)
  deriving DecidableEq, Inhabited

namespace Removal

/-- Each candidate with the blocks reachable around it. -/
def reachableAround (graph : Graph) (head : BlockId) :
    List BlockId → Except Fault (List (BlockId × BlockSet))
  | [] => .ok []
  | candidate :: rest =>
    match graph.reachableWithout (some candidate) head, reachableAround graph head rest with
    | .ok found, .ok others => .ok ((candidate, found) :: others)
    | .error fault, _ => .error fault
    | _, .error fault => .error fault

/-- The candidates that are `block` or cut it off. -/
def dominatorsOf (reachable : BlockSet) (around : List (BlockId × BlockSet))
    (block : BlockId) : List BlockId :=
  if reachable.contains block then
    (around.filter fun (candidate, found) =>
      candidate == block || !found.contains block).map Prod.fst
  else []

/-- Remove every reachable block in turn. -/
def compute (graph : Graph) (head : BlockId) : Except Fault Removal :=
  match graph.reachableWithout none head with
  | .error fault => .error fault
  | .ok reachable =>
    match reachableAround graph head reachable.toList with
    | .error fault => .error fault
    | .ok around =>
      .ok
        { graph := graph
          reachable := reachable
          dominators := ((List.range graph.size).map (dominatorsOf reachable around)).toArray }

/-- Is the block reachable from the head? -/
def isReachable (removal : Removal) (block : BlockId) : Except Fault Bool :=
  match removal.reachable.marks[block]? with
  | some mark => .ok mark
  | none => .error (.outOfBounds removal.reachable.size block)

/-- The dominators of a block. -/
def dominatorList (removal : Removal) (block : BlockId) : Except Fault (List BlockId) :=
  match removal.dominators[block]? with
  | some dominators => .ok dominators
  | none => .error (.outOfBounds removal.dominators.size block)

/-- Does `a` dominate `b`? -/
def dominates (removal : Removal) (a b : BlockId) : Except Fault Bool :=
  (removal.dominatorList b).map (·.contains a)

/-- Is every block of the list a dominator of `block`? The list is read no further
than its first member that is none. -/
def allDominate (removal : Removal) (block : BlockId) : List BlockId → Except Fault Bool
  | [] => .ok true
  | dominator :: rest =>
    match removal.dominates dominator block with
    | .error fault => .error fault
    | .ok false => .ok false
    | .ok true => removal.allDominate block rest

/-- The first of `candidates` that all of `strict` dominate. -/
def findImmediate (removal : Removal) (strict : List BlockId) :
    List BlockId → Except Fault (Option BlockId)
  | [] => .ok none
  | candidate :: rest =>
    match removal.allDominate candidate strict with
    | .error fault => .error fault
    | .ok true => .ok (some candidate)
    | .ok false => removal.findImmediate strict rest

/-- The strict dominator that all strict dominators dominate. -/
def immediateDominator? (removal : Removal) (block : BlockId) :
    Except Fault (Option BlockId) :=
  match removal.dominatorList block with
  | .error fault => .error fault
  | .ok dominators =>
    let strict := dominators.filter (· != block)
    removal.findImmediate strict strict

/-! ## Frontiers -/

/-- Does `x` dominate a reachable block of the list? The list is read no further than
the first such block. -/
def dominatesSome (removal : Removal) (x : BlockId) : List BlockId → Except Fault Bool
  | [] => .ok false
  | pred :: rest =>
    match removal.isReachable pred with
    | .error fault => .error fault
    | .ok false => removal.dominatesSome x rest
    | .ok true =>
      match removal.dominates x pred with
      | .error fault => .error fault
      | .ok true => .ok true
      | .ok false => removal.dominatesSome x rest

/-- Is `y` in the frontier of `x`: reachable, not strictly dominated by `x`, and
with a reachable predecessor that `x` dominates? -/
def inFrontier (removal : Removal) (x y : BlockId) : Except Fault Bool :=
  match removal.isReachable y with
  | .error fault => .error fault
  | .ok false => .ok false
  | .ok true =>
    match removal.dominates x y with
    | .error fault => .error fault
    | .ok dominated =>
      if x != y && dominated then .ok false
      else removal.dominatesSome x (removal.graph.predecessors y)

/-- The members of `blocks` in the frontier of `x`. -/
def frontierAmong (removal : Removal) (x : BlockId) :
    List BlockId → Except Fault (List BlockId)
  | [] => .ok []
  | y :: rest =>
    match removal.inFrontier x y with
    | .error fault => .error fault
    | .ok member =>
      match removal.frontierAmong x rest with
      | .error fault => .error fault
      | .ok others => .ok (if member then y :: others else others)

/-- The frontier of `x`, in ascending order. -/
def frontier (removal : Removal) (x : BlockId) : Except Fault (List BlockId) :=
  removal.frontierAmong x (List.range removal.graph.size)

/-- The union of the frontiers of `blocks`, added to `found`. -/
def frontierUnion (removal : Removal) : List BlockId → BlockSet → Except Fault BlockSet
  | [], found => .ok found
  | block :: rest, found =>
    match removal.frontier block with
    | .error fault => .error fault
    | .ok frontier => removal.frontierUnion rest (found.insertAll frontier)

/-- Take frontiers of `blocks` and of what was found, at most `count` times or until
nothing is new. -/
def iterate (removal : Removal) (blocks : List BlockId) :
    Nat → BlockSet → Except Fault BlockSet
  | 0, found => .ok found
  | count + 1, found =>
    match removal.frontierUnion (blocks ++ found.toList)
        (BlockSet.empty removal.graph.size) with
    | .error fault => .error fault
    | .ok next => if next = found then .ok found else removal.iterate blocks count next

/-- The least set that holds the frontiers of `blocks` and of its own members, in
ascending order. Every round but the last finds a further block. -/
def iteratedFrontier (removal : Removal) (blocks : List BlockId) :
    Except Fault (List BlockId) :=
  (removal.iterate blocks (removal.graph.size + 1)
    (BlockSet.empty removal.graph.size)).map BlockSet.toList

end Removal

end MinimalSsa
