import MinimalSsa.Block

/-!
# Methods

A method is a table of blocks with the heads at which control may enter. A
method without heads has its body supplied from elsewhere. Successors are read
off terminators and predecessors are stored, so every edge is known on both
sides.

* `Method`, `Region`: the data.
* `Method.withEntry`, `Method.plugged`: the two methods to start from.
* `Method.instructionCount`, `Method.phiCount`, `Method.phiSites`: what the
  method holds.
* `Method.text`: the printed form.
-/

namespace MinimalSsa

/-- Blocks guarded by an exception handler, and the handler. -/
structure Region where
  guarded : List BlockId
  handler : BlockId
  deriving DecidableEq, Inhabited

/-- The code of one method. -/
structure Method where
  name : String
  blocks : Array Block := #[]
  heads : List BlockId := []
  regions : List Region := []
  params : List Register := []
  /-- The register handed out next. -/
  nextRegister : Register := 0
  deriving DecidableEq, Inhabited

namespace Method

/-- A method with one empty block, at which it is entered. -/
def withEntry (name : String) : Method :=
  { name := name, blocks := #[{}], heads := [0] }

/-- A method whose body is supplied from elsewhere. -/
def plugged (name : String) : Method :=
  { name := name }

/-- The number of blocks. -/
def size (method : Method) : Nat :=
  method.blocks.size

/-- Does the method have this block? -/
def hasBlock (method : Method) (block : BlockId) : Bool :=
  block < method.size

/-- The block at which the method is entered. -/
def entry? (method : Method) : Option BlockId :=
  method.heads.head?

/-- Is some block guarded by a handler? -/
def hasRegions (method : Method) : Bool :=
  !method.regions.isEmpty

/-- The successors of a block, in the order of its terminator; none for a block
that does not exist. -/
def successors (method : Method) (block : BlockId) : List BlockId :=
  match method.blocks[block]? with
  | some found => found.terminator.targets
  | none => []

/-- The predecessors of a block, in the order in which the edges were made. -/
def predecessors (method : Method) (block : BlockId) : Except Fault (List BlockId) :=
  match method.blocks[block]? with
  | some found => .ok found.preds
  | none => .error (.noBlock block)

/-- The blocks in order, each with its position. -/
def indexedBlocks (method : Method) : List (Block × BlockId) :=
  method.blocks.toList.zipIdx

/-- The number of instructions that are not placeholders, terminators aside. -/
def instructionCount (method : Method) : Nat :=
  method.blocks.toList.foldr (fun block total => block.instructionCount + total) 0

/-- The number of phis, wherever they stand. -/
def phiCount (method : Method) : Nat :=
  method.blocks.toList.foldr (fun block total => block.phiCount + total) 0

/-- The registers merged by leading phis, block by block in ascending order. -/
def phiSites (method : Method) : List (BlockId × Register) :=
  method.indexedBlocks.flatMap fun (block, position) =>
    ((block.phis.filterMap Instruction.definedRegister).mergeSort).map fun register =>
      (position, register)

/-! ## Print -/

/-- The heading of a block in print: `bb3`, or `bb3 (name)`. -/
def blockTitle (block : Block) (position : BlockId) : String :=
  match block.name with
  | some name => BlockId.text position ++ " (" ++ name ++ ")"
  | none => BlockId.text position

/-- The line of parameters; a method without parameters has none. -/
def paramsText (method : Method) (level : Nat) : String :=
  match method.params with
  | [] => ""
  | params =>
    indentation level ++ "  parameters: " ++ listed (params.map Register.text) ++ "\n"

/-- A method in print. -/
def text (method : Method) (level : Nat) : String :=
  indentation level ++ "fn " ++ method.name ++ " \x7b\n" ++
    method.paramsText level ++
    indentation level ++ "  heads: " ++ bracketed (method.heads.map BlockId.text) ++ "\n" ++
    String.join (method.indexedBlocks.map fun (block, position) =>
      "\n" ++ indentation level ++ "  " ++ blockTitle block position ++ ":\n" ++
        block.text (level + 2)) ++
    indentation level ++ "\x7d\n"

end Method

end MinimalSsa
