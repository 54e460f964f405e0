import MinimalSsa.Graph
import MinimalSsa.Graph.BlockSet

/-!
# Depth-first order

The blocks reachable from a head in reverse postorder: the reverse of the order in
which a depth-first search leaves them, so that on a graph without cycles every
edge points forward. Successors are explored in order, which makes the result
unique.

* `Graph.explore`: the search, with an explicit path of half-explored blocks.
* `Graph.reversePostorder`: the order from one head. A missing head or a missing
  successor on the way is a fault.
* `Graph.Explored`: the recursive search the order is measured against.
* `Graph.reachableFrom`, `Method.reachableFromHeads`, `Method.unreachable`.
-/

namespace MinimalSsa

namespace Graph

/-- A block on the search path, with the successors it has yet to explore. -/
structure Frame where
  block : BlockId
  rest : List BlockId
  deriving DecidableEq

/-- The steps that the frames of a path have left. -/
def remaining : List Frame → Nat
  | [] => 0
  | frame :: path => frame.rest.length + 1 + remaining path

/-- The largest number of successors that a block has. -/
def width (graph : Graph) : Nat :=
  (graph.nodes.toList.map (·.succs.length)).max?.getD 0

theorem length_successors_le_width (graph : Graph) (block : BlockId) :
    (graph.successors block).length ≤ graph.width := by
  unfold successors
  split
  · next node hnode =>
    have hmem := (Array.mem_of_getElem? hnode).val
    exact List.le_max?_getD_of_mem (List.mem_map_of_mem hmem)
  · exact Nat.zero_le _

/-- A new frame costs less than what the block it is for leaves free. -/
theorem remaining_insert_lt (graph : Graph) {seen : BlockSet} {next : BlockId}
    (hlacks : seen.lacks next = true) (block : BlockId) (rest : List BlockId)
    (path : List Frame) :
    (seen.insert next).free * (graph.width + 2) +
        remaining (⟨next, graph.successors next⟩ :: ⟨block, rest⟩ :: path) <
      seen.free * (graph.width + 2) + remaining (⟨block, next :: rest⟩ :: path) := by
  have hfree := Nat.mul_le_mul_right (graph.width + 2) (BlockSet.free_insert_lt hlacks)
  rw [Nat.succ_eq_add_one, Nat.succ_mul] at hfree
  have hwidth := graph.length_successors_le_width next
  simp only [remaining, List.length_cons]
  omega

/-- Continue a search: `path` is the current path, innermost block first, `seen`
the blocks met so far, and `order` the blocks left behind, last one first. -/
def explore (graph : Graph) :
    List Frame → BlockSet → List BlockId → Except Fault (List BlockId)
  | [], _, order => .ok order
  | ⟨block, []⟩ :: path, seen, order => graph.explore path seen (block :: order)
  | ⟨block, next :: rest⟩ :: path, seen, order =>
    if seen.lacks next then
      graph.explore (⟨next, graph.successors next⟩ :: ⟨block, rest⟩ :: path)
        (seen.insert next) order
    else if seen.contains next then graph.explore (⟨block, rest⟩ :: path) seen order
    else .error (.outOfBounds seen.size next)
  termination_by path seen => seen.free * (graph.width + 2) + remaining path
  decreasing_by
  · simp [remaining]
  · rename_i hlacks
    exact graph.remaining_insert_lt hlacks block rest path
  · simp [remaining]

/-- The blocks reachable from `head` in reverse postorder. -/
def reversePostorder (graph : Graph) (head : BlockId) : Except Fault (List BlockId) :=
  if head < graph.size then
    graph.explore [⟨head, graph.successors head⟩] ((BlockSet.empty graph.size).insert head) []
  else .error (.outOfBounds graph.size head)

/-- The recursive depth-first search. `graph.Explored seen blocks order`: visiting
`blocks` one after the other, and skipping those met before, leaves the blocks of
`order` behind, in postorder. -/
inductive Explored (graph : Graph) : List BlockId → List BlockId → List BlockId → Prop where
  | done (seen : List BlockId) : Explored graph seen [] []
  | skip {seen rest order : List BlockId} {block : BlockId} :
      block ∈ seen → Explored graph seen rest order →
      Explored graph seen (block :: rest) order
  | visit {seen rest below beside : List BlockId} {block : BlockId} :
      block ∉ seen →
      Explored graph (block :: seen) (graph.successors block) below →
      Explored graph (below ++ block :: seen) rest beside →
      Explored graph seen (block :: rest) (below ++ block :: beside)

/-! ## Reachability -/

/-- The blocks reachable from one head. -/
def reachableFrom (graph : Graph) (head : BlockId) : Except Fault BlockSet :=
  match graph.reversePostorder head with
  | .ok order => .ok ((BlockSet.empty graph.size).insertAll order)
  | .error fault => .error fault

/-- The members of `found` and the blocks reachable from any of the heads. -/
def reachableFromAll (graph : Graph) : List BlockId → BlockSet → Except Fault BlockSet
  | [], found => .ok found
  | head :: heads, found =>
    match graph.reversePostorder head with
    | .ok order => graph.reachableFromAll heads (found.insertAll order)
    | .error fault => .error fault

end Graph

namespace Method

/-- The blocks reachable from any head of the method. -/
def reachableFromHeads (method : Method) : Except Fault BlockSet :=
  method.graph.reachableFromAll method.heads (BlockSet.empty method.size)

/-- The blocks that no head reaches, in ascending order. -/
def unreachable (method : Method) : Except Fault (List BlockId) :=
  match method.reachableFromHeads with
  | .ok found => .ok found.complement
  | .error fault => .error fault

end Method

end MinimalSsa
