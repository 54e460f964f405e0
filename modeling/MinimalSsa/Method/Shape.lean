import MinimalSsa.Method.Edit

/-!
# Methods from the shape of their graph

A method with a given graph and no code: only the successors of each block are
said. Block 0 is the entry, and there is always one block.

* `Method.ofSuccessors`: from one list of targets per block.
* `Method.ofEdges`: from a list of edges.
* `Method.assign`: put a definition of a register into a block.
-/

namespace MinimalSsa

namespace Method

/-- Retarget blocks one after the other, from `block` on, each to its list of
targets; stop at the first fault. -/
def retargetAll (method : Method) (block : BlockId) : List (List BlockId) → Edit
  | [] => { method := method }
  | targets :: rest =>
    let edit := method.retarget block (.ofTargets targets)
    match edit.fault with
    | some _ => edit
    | none => edit.method.retargetAll (block + 1) rest

/-- An entry and as many empty blocks as make `count` in all. -/
def withBlocks (name : String) (count : Nat) : Method :=
  { withEntry name with blocks := Array.replicate (max count 1) {} }

/-- The method whose block `i` goes to the `i`-th list of targets. -/
def ofSuccessors (name : String) (successors : List (List BlockId)) : Except Fault Method :=
  let edit := (withBlocks name successors.length).retargetAll 0 successors
  match edit.fault with
  | some fault => .error fault
  | none => .ok edit.method

/-- Collect the targets of each of `count` blocks, in the order of the edges. -/
def gatherTargets (count : Nat) (edges : List (BlockId × BlockId)) :
    Except Fault (Array (List BlockId)) :=
  match edges.find? fun (source, _) => count ≤ source with
  | some (source, _) => .error (.outOfBounds count source)
  | none =>
    .ok (edges.foldl (fun table (source, target) => table.modify source (· ++ [target]))
      (Array.replicate count []))

/-- The method with `count` blocks and these edges. -/
def ofEdges (name : String) (count : Nat) (edges : List (BlockId × BlockId)) :
    Except Fault Method :=
  match gatherTargets count edges with
  | .error fault => .error fault
  | .ok table => ofSuccessors name table.toList

/-- Append a definition of `register` to a block. -/
def assign (method : Method) (block : BlockId) (register : Register) : Except Fault Method :=
  method.push block (.assign register 0)

end Method

end MinimalSsa
