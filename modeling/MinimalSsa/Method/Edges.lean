import MinimalSsa.Method

/-!
# Agreement of the two sides of every edge

Successors come from terminators and predecessors are stored, so the two can
disagree. `Method.verify` finds the first disagreement; `Method.Consistent` says
that there is none.

* `Method.references`: every block a method refers to, with the block that does.
* `Method.outCount`, `Method.inCount`: how often an edge is listed on each side.
* `Method.verify`: missing blocks first, in the order of `references`, then the
  least edge with unequal counts.
-/

namespace MinimalSsa

namespace Method

/-- Every reference to a block, with the block that makes it: block by block the
targets and then the predecessors, and last the heads, each on its own behalf. -/
def references (method : Method) : List (BlockId × BlockId) :=
  (method.indexedBlocks.flatMap fun (block, position) =>
    (block.terminator.targets ++ block.preds).map (position, ·)) ++
    method.heads.map fun head => (head, head)

/-- How often `target` is among the targets of `source`. -/
def outCount (method : Method) (source target : BlockId) : Nat :=
  match method.blocks[source]? with
  | some found => found.terminator.targets.count target
  | none => 0

/-- How often `source` is among the predecessors of `target`. -/
def inCount (method : Method) (source target : BlockId) : Nat :=
  match method.blocks[target]? with
  | some found => found.preds.count source
  | none => 0

/-- Every reference is to a block that exists, and every edge is listed equally
often on both of its sides. -/
structure Consistent (method : Method) : Prop where
  present : ∀ reference ∈ method.references, reference.2 < method.size
  balanced : ∀ source target, method.outCount source target = method.inCount source target

/-- The first reference to a block that does not exist. -/
def missingReference? (method : Method) : Option (BlockId × BlockId) :=
  method.references.find? fun (_, target) => !method.hasBlock target

/-- The least edge listed a different number of times on its two sides. -/
def unbalancedEdge? (method : Method) : Option (BlockId × BlockId) :=
  (List.range method.size).findSome? fun source =>
    ((List.range method.size).find? fun target =>
      method.outCount source target != method.inCount source target).map (source, ·)

/-- Check that both sides of every edge agree. -/
def verify (method : Method) : Except Violation Unit :=
  match method.missingReference? with
  | some (block, target) => .error (.missingBlock block target)
  | none =>
    match method.unbalancedEdge? with
    | some (source, target) =>
      .error (.inconsistentEdge source target (method.outCount source target)
        (method.inCount source target))
    | none => .ok ()

end Method

end MinimalSsa
