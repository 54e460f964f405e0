import MinimalSsa.Event
import MinimalSsa.Method.Edges

/-!
# Checking methods

The rules that SSA form relies on, checked in a fixed order so that the first
violation is reported.

* `Check.loose`: both sides of every edge agree, phis come first in their block, and
  every phi has an operand per incoming block.
* `Check.strict`: also, every phi lists the predecessors of its block in order, and a
  block has at most one phi per register.
* `Check.run`: the check of a method.
-/

namespace MinimalSsa

/-- How much is asked of phis: less before placement than after it. -/
inductive Check where
  | loose | strict
  deriving DecidableEq, Inhabited

namespace Check

/-- What is known of the instructions before the one that is looked at: how many they
are, whether one of them is no phi, and the registers that the phis among them merge. -/
structure Seen where
  count : Nat := 0
  nonPhi : Bool := false
  merged : List Register := []
  deriving DecidableEq, Inhabited

/-- Go past an instruction. The loose check does not keep registers. -/
def Seen.note (seen : Seen) (check : Check) (instruction : Instruction) : Seen :=
  match instruction.action, check with
  | .phi dest _ _, .strict =>
    { seen with count := seen.count + 1, merged := seen.merged.insert dest }
  | .phi _ _ _, .loose => { seen with count := seen.count + 1 }
  | _, _ => { seen with count := seen.count + 1, nonPhi := true }

/-- What is wrong with a phi of `block` that follows phis for `merged` only. -/
def defect? (check : Check) (block : Block) (merged : List Register) (dest : Register)
    (operands : List Operand) (sources : List BlockId) : Option PhiDefect :=
  if operands.length ≠ sources.length then
    some (.slotCount operands.length sources.length)
  else
    match check with
    | .loose => none
    | .strict =>
      if sources ≠ block.preds then some (.slotOrder sources block.preds)
      else if merged.contains dest then some .duplicate
      else none

/-- What is wrong with an instruction of a block, given what comes before it. -/
def violation? (check : Check) (block : Block) (position : BlockId) (seen : Seen)
    (instruction : Instruction) : Option Violation :=
  match instruction.action with
  | .phi dest operands sources =>
    if seen.nonPhi then some (.phiAfterNonPhi position seen.count)
    else
      (check.defect? block seen.merged dest operands sources).map (.malformedPhi position dest)
  | _ => none

/-- The first violation among the instructions of a block that are still to come. -/
def firstIn (check : Check) (block : Block) (position : BlockId) :
    Seen → List Instruction → Option Violation
  | _, [] => none
  | seen, instruction :: rest =>
    match check.violation? block position seen instruction with
    | some violation => some violation
    | none => check.firstIn block position (seen.note check instruction) rest

/-- The first violation in the phis of a method. -/
def phiViolation? (check : Check) (method : Method) : Option Violation :=
  method.indexedBlocks.findSome? fun (block, position) =>
    check.firstIn block position {} block.instructions

/-- Check a method: its edges, then its phis. -/
def run (check : Check) (method : Method) : Except Violation Unit :=
  match method.verify with
  | .error violation => .error violation
  | .ok () =>
    match check.phiViolation? method with
    | some violation => .error violation
    | none => .ok ()

end Check

end MinimalSsa
