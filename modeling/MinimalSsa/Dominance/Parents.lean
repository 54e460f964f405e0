import MinimalSsa.Graph.Postorder

/-!
# The dominator tree

The tree is a table that gives each block its parent. It is found by sweeps over
the blocks in reverse postorder: a block's parent becomes the meeting point, in
the tree so far, of those of its predecessors that have a parent already. Sweeps
are repeated until one changes nothing.

* `Parents.chain`: a block and its ancestors, innermost first.
* `Parents.meet`: the meeting point of two chains. The block that comes later in
  the order climbs, so both arrive together.
* `Parents.sweep`, `Parents.settle`: the iteration. Every entry only moves up, so
  it ends within `Parents.rounds` sweeps.
* `Graph.parents`: the dominator tree of one head.
-/

namespace MinimalSsa

/-- For each block its parent in a tree, if it has one. -/
abbrev Parents := Array (Option BlockId)

/-- For each block its position in an order, if the order lists it. -/
abbrev Positions := Array (Option Nat)

namespace Positions

/-- The positions of the blocks in `order`. -/
def ofOrder (size : Nat) (order : List BlockId) : Positions :=
  order.zipIdx.foldl (fun positions (block, position) =>
    positions.setIfInBounds block (some position)) (Array.replicate size none)

/-- The position of a block. -/
def position? (positions : Positions) (block : BlockId) : Option Nat :=
  positions[block]?.join

/-- A number behind all positions. -/
def bound (positions : Positions) : Nat :=
  (positions.toList.filterMap id).max?.getD 0 + 1

/-- The position of a block; a block that is not listed comes after all others. -/
def rank (positions : Positions) (block : BlockId) : Nat :=
  (positions.position? block).getD positions.bound

theorem getElem?_of_position? {positions : Positions} {block : BlockId} {position : Nat}
    (h : positions.position? block = some position) :
    positions[block]? = some (some position) := by
  simpa [position?, Option.join_eq_some_iff] using h

theorem lt_bound {positions : Positions} {block : BlockId} {position : Nat}
    (h : positions.position? block = some position) : position < positions.bound := by
  have hentry := Array.mem_of_getElem? (getElem?_of_position? h)
  have hmem : position ∈ positions.toList.filterMap id :=
    List.mem_filterMap.mpr ⟨some position, hentry.val, rfl⟩
  exact Nat.lt_succ_of_le (List.le_max?_getD_of_mem hmem)

end Positions

namespace Parents

/-- The parent of a block. -/
def parent? (parents : Parents) (block : BlockId) : Option BlockId :=
  parents[block]?.join

/-- The parent of a block, and the block itself if it has none. -/
def climb (parents : Parents) (block : BlockId) : BlockId :=
  (parents.parent? block).getD block

/-- The first `count` members of the chain of `block`. -/
def chainUpTo (parents : Parents) : Nat → BlockId → List BlockId
  | 0, _ => []
  | count + 1, block =>
    block :: match parents.parent? block with
      | some parent => parents.chainUpTo count parent
      | none => []

/-- A block and its ancestors, innermost first. A tree has no longer chain than
it has blocks. -/
def chain (parents : Parents) (block : BlockId) : List BlockId :=
  parents.chainUpTo parents.size block

/-- Climb from `a` and from `b`, whichever comes later in the order, at most
`count` times or until both are one block. -/
def meetUpTo (parents : Parents) (positions : Positions) :
    Nat → BlockId → BlockId → BlockId
  | 0, a, _ => a
  | count + 1, a, b =>
    if a = b then a
    else if positions.rank b < positions.rank a then
      parents.meetUpTo positions count (parents.climb a) b
    else parents.meetUpTo positions count a (parents.climb b)

/-- The block where the chains of `a` and `b` meet. Each of the two climbs past
no block twice. -/
def meet (parents : Parents) (positions : Positions) (a b : BlockId) : BlockId :=
  parents.meetUpTo positions (2 * parents.size) a b

/-- Take one more predecessor into account: one without a parent is left out, the
first other one stands for itself, a further one is met with those before. -/
def meetPred (parents : Parents) (positions : Positions) (found : Option BlockId)
    (pred : BlockId) : Option BlockId :=
  match parents.parent? pred with
  | none => found
  | some _ =>
    match found with
    | none => some pred
    | some current => some (parents.meet positions pred current)

/-- The meeting point of all predecessors that have a parent. -/
def meetAll (parents : Parents) (positions : Positions) (preds : List BlockId) :
    Option BlockId :=
  preds.foldl (parents.meetPred positions) none

/-- Give one block the meeting point of its predecessors for a parent. -/
def update (graph : Graph) (positions : Positions) (parents : Parents) (block : BlockId) :
    Parents :=
  match parents.meetAll positions (graph.predecessors block) with
  | none => parents
  | some parent => parents.setIfInBounds block (some parent)

/-- Update the blocks of `order` one after the other. -/
def sweep (graph : Graph) (positions : Positions) (order : List BlockId)
    (parents : Parents) : Parents :=
  order.foldl (update graph positions) parents

/-- Sweep at most `count` times, or until a sweep changes nothing. -/
def settle (graph : Graph) (positions : Positions) (order : List BlockId) :
    Nat → Parents → Parents
  | 0, parents => parents
  | count + 1, parents =>
    let swept := sweep graph positions order parents
    if swept = parents then parents else settle graph positions order count swept

/-- A bound on the sweeps that change something in a table of `size` blocks. An
entry moves up less than `size` times; where the predecessor lists disagree with
the successors, an entry may follow one sweep after the entries it depends on. -/
def rounds (size : Nat) : Nat :=
  2 * size * size + 1

/-- The table to start from: the head is its own parent. -/
def start (size : Nat) (head : BlockId) : Parents :=
  (Array.replicate size none).setIfInBounds head (some head)

end Parents

/-- The dominator tree of `head`, for the blocks of `order` with the head first. The
head has no parent in it. -/
def Graph.parents (graph : Graph) (head : BlockId) (order : List BlockId) : Parents :=
  let positions := Positions.ofOrder graph.size order
  let settled := Parents.settle graph positions order.tail (Parents.rounds graph.size)
    (Parents.start graph.size head)
  settled.setIfInBounds head none

end MinimalSsa
