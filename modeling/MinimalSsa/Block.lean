import MinimalSsa.Failure
import MinimalSsa.Instruction
import MinimalSsa.Terminator

/-!
# Blocks

A block is straight-line code with one terminator. It also lists the blocks
that lead to it: `preds` names a block once for every edge from it, in the
order in which the edges were made, and slot `i` of a phi belongs to `preds[i]`.

* `Block.phis`: the leading phis.
* `Block.insertPhi`: a new phi goes after those and before all else;
  `Block.pushPhi` refuses any other instruction.
* `Block.text`: the printed form, one instruction a line.
-/

namespace MinimalSsa

/-- Straight-line code, how it ends, and where control comes from. -/
structure Block where
  name : Option String := none
  instructions : List Instruction := []
  terminator : Terminator := .unreachable
  preds : List BlockId := []
  deriving DecidableEq, Inhabited

namespace Block

/-- The block with one more instruction at its end. -/
def push (block : Block) (instruction : Instruction) : Block :=
  { block with instructions := block.instructions ++ [instruction] }

/-- The block with another end. Predecessor lists are not touched. -/
def setTerminator (block : Block) (terminator : Terminator) : Block :=
  { block with terminator := terminator }

/-- The block with one more incoming edge from `pred`. -/
def addPred (block : Block) (pred : BlockId) : Block :=
  { block with preds := block.preds ++ [pred] }

/-- The block without its first incoming edge from `pred`. -/
def removePred (block : Block) (pred : BlockId) : Block :=
  { block with preds := block.preds.erase pred }

/-- The leading phis. -/
def phis (block : Block) : List Instruction :=
  block.instructions.takeWhile Instruction.isPhi

/-- Everything after the leading phis. -/
def body (block : Block) : List Instruction :=
  block.instructions.dropWhile Instruction.isPhi

/-- The leading phis and the rest make up the block. -/
@[simp] theorem phis_append_body (block : Block) :
    block.phis ++ block.body = block.instructions :=
  List.takeWhile_append_dropWhile

/-- Does a phi of the block, wherever it stands, define `register`? -/
def hasPhiFor (block : Block) (register : Register) : Bool :=
  block.instructions.any fun instruction =>
    instruction.isPhi && instruction.definedRegister == some register

/-- Does an instruction of the block define `register`? -/
def defines (block : Block) (register : Register) : Bool :=
  block.instructions.any fun instruction => instruction.definedRegister == some register

/-- The block with `phi` after its leading phis. -/
def insertPhi (block : Block) (phi : Instruction) : Block :=
  { block with instructions := block.phis ++ phi :: block.body }

/-- Insert a phi; anything else is refused. -/
def pushPhi (block : Block) (phi : Instruction) : Except Fault Block :=
  if phi.isPhi then .ok (block.insertPhi phi) else .error .notPhi

/-- The number of instructions that are not placeholders. -/
def instructionCount (block : Block) : Nat :=
  block.instructions.countP fun instruction => !instruction.isNop

/-- The number of phis, wherever they stand. -/
def phiCount (block : Block) : Nat :=
  block.instructions.countP Instruction.isPhi

/-- The lines of a block in print, its terminator last. A comment's own line is
the one that carries the indentation. -/
def lines (block : Block) : List String :=
  block.instructions.map Instruction.text ++ [block.terminator.text]

/-- A block in print. -/
def text (block : Block) (level : Nat) : String :=
  String.join (block.lines.map fun line => indentation level ++ line ++ "\n")

end Block

end MinimalSsa
