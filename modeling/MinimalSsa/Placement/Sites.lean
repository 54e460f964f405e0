import MinimalSsa.Definitions
import MinimalSsa.Dominance

/-!
# Where merges are needed

The blocks in which the definitions of one register meet. For one head they are
the iterated frontier of the defining blocks and the head. With several heads, a
merge made for one head is itself a definition for every other head that reaches
it, so the heads are visited in turn until none adds a site.

* `Sites.visit`: what one head adds.
* `Sites.ofBlocks`: the sites of a register defined in given blocks, in the order in
  which they are found.
* `Sites.all`: the sites of every register of a method that is defined in at least
  two blocks.
-/

namespace MinimalSsa

namespace Sites

/-- Add the sites that one head asks for, given the blocks that define a register
and the sites known so far. A head that reaches none of them asks for nothing. -/
def visit (blocks sites : List BlockId) (dominance : Dominance) :
    Except Failure (List BlockId) :=
  match (blocks ++ sites).filter dominance.isReachable with
  | [] => .ok sites
  | first :: rest =>
    match dominance.iteratedFrontier (first :: rest ++ [dominance.head]) with
    | .error violation => .error (.violation violation)
    | .ok frontier => .ok (sites ++ frontier.filter fun block => !sites.contains block)

/-- Visit every head once. -/
def visitAll (blocks : List BlockId) :
    List Dominance → List BlockId → Except Failure (List BlockId)
  | [], sites => .ok sites
  | dominance :: heads, sites =>
    match visit blocks sites dominance with
    | .error failure => .error failure
    | .ok grown => visitAll blocks heads grown

/-- Visit all heads at most `count` times, or until no site is added. -/
def settle (heads : List Dominance) (blocks : List BlockId) :
    Nat → List BlockId → Except Failure (List BlockId)
  | 0, sites => .ok sites
  | count + 1, sites =>
    match visitAll blocks heads sites with
    | .error failure => .error failure
    | .ok grown =>
      if grown.length = sites.length then .ok sites else settle heads blocks count grown

/-- The sites of a register defined in `blocks`. Every round but the last adds one of
the `size` blocks. A single definition meets no other. -/
def ofBlocks (heads : List Dominance) (size : Nat) (blocks : List BlockId) :
    Except Failure (List BlockId) :=
  if blocks.length < 2 then .ok [] else settle heads blocks (size + 1) []

/-- The analyses of several heads. -/
def analyses (graph : Graph) : List BlockId → Except Failure (List Dominance)
  | [] => .ok []
  | head :: heads =>
    match Dominance.compute graph head with
    | .error failure => .error failure
    | .ok dominance =>
      match analyses graph heads with
      | .error failure => .error failure
      | .ok others => .ok (dominance :: others)

/-- The sites of several registers, register by register. -/
def ofEntries (heads : List Dominance) (size : Nat) :
    List (Register × List BlockId) → Except Failure (List (BlockId × Register))
  | [] => .ok []
  | (register, blocks) :: rest =>
    match ofBlocks heads size blocks with
    | .error failure => .error failure
    | .ok sites =>
      match ofEntries heads size rest with
      | .error failure => .error failure
      | .ok others => .ok (sites.map (·, register) ++ others)

/-- Every site of a method with the register to merge there. -/
def all (method : Method) (definitions : DefinitionMap) :
    Except Failure (List (BlockId × Register)) :=
  match analyses method.graph method.heads with
  | .error failure => .error failure
  | .ok heads => ofEntries heads method.size definitions.entries

end Sites

end MinimalSsa
