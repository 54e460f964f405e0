import MinimalSsa.Method

/-!
# Editing methods

The operations that build and change a method. Those that name a block fail
when it does not exist and then leave the method as it was, with one exception:
retargeting a block goes edge by edge, and a missing target stops it halfway.
Its result is therefore an `Edit`, which holds the method as far as it got
beside the fault.

* `Method.addBlock`, `Method.addHead`, `Method.addRegion`, `Method.addParam`,
  `Method.newRegister`: edits that always succeed.
* `Method.updateBlock`, `Method.push`, `Method.pushPhi`: edits inside a block.
* `Method.connect`, `Method.disconnect`: one side of an edge.
* `Method.retarget`: a new terminator together with the predecessor lists of
  the old and the new targets.
-/

namespace MinimalSsa

/-- What an edit leaves behind: the method as far as the edit got, and the fault
that stopped it, if one did. -/
structure Edit where
  method : Method
  fault : Option Fault := none
  deriving DecidableEq

/-- An edit done in full or not at all. -/
def Edit.ofExcept (before : Method) : Except Fault Method → Edit
  | .ok after => { method := after }
  | .error fault => { method := before, fault := some fault }

namespace Method

/-- A further block and its position. -/
def addBlock (method : Method) (block : Block) : BlockId × Method :=
  (method.size, { method with blocks := method.blocks.push block })

/-- A further head; one that is a head already is not listed again. -/
def addHead (method : Method) (block : BlockId) : Method :=
  if method.heads.contains block then method
  else { method with heads := method.heads ++ [block] }

/-- One more entry in the list of heads, whatever the list holds. -/
def pushHead (method : Method) (block : BlockId) : Method :=
  { method with heads := method.heads ++ [block] }

/-- A further guarded region. -/
def addRegion (method : Method) (region : Region) : Method :=
  { method with regions := method.regions ++ [region] }

/-- A further parameter. -/
def addParam (method : Method) (register : Register) : Method :=
  { method with params := method.params ++ [register] }

/-- A register not handed out before. -/
def newRegister (method : Method) : Register × Method :=
  (method.nextRegister, { method with nextRegister := method.nextRegister + 1 })

/-! ## Inside a block -/

/-- The method with one block changed; nothing happens where there is none. -/
def modifyBlock (method : Method) (block : BlockId) (change : Block → Block) : Method :=
  { method with blocks := method.blocks.modify block change }

@[simp] theorem size_modifyBlock (method : Method) (block : BlockId)
    (change : Block → Block) : (method.modifyBlock block change).size = method.size := by
  simp [size, modifyBlock]

/-- Changing a block changes the table at this block only. -/
theorem getElem?_modifyBlock (method : Method) (block other : BlockId)
    (change : Block → Block) :
    (method.modifyBlock block change).blocks[other]? =
      if block = other then (method.blocks[other]?).map change else method.blocks[other]? := by
  simp only [modifyBlock, Array.getElem?_modify]

/-- Look a block up in the table. -/
def blockAt (method : Method) (block : BlockId) : Except Fault Block :=
  match method.blocks[block]? with
  | some found => .ok found
  | none => .error (.outOfBounds method.size block)

/-- Change a block that exists. -/
def updateBlock (method : Method) (block : BlockId) (change : Block → Block) :
    Except Fault Method :=
  if method.hasBlock block then .ok (method.modifyBlock block change)
  else .error (.outOfBounds method.size block)

/-- Append an instruction to a block. -/
def push (method : Method) (block : BlockId) (instruction : Instruction) :
    Except Fault Method :=
  method.updateBlock block (·.push instruction)

/-- Insert a phi after the leading phis of a block. -/
def pushPhi (method : Method) (block : BlockId) (phi : Instruction) : Except Fault Method :=
  match method.blockAt block with
  | .error fault => .error fault
  | .ok found =>
    match found.pushPhi phi with
    | .error fault => .error fault
    | .ok changed => .ok (method.modifyBlock block fun _ => changed)

/-! ## Edges -/

/-- Record the edge `pred → succ` at its target. -/
def addEdge (method : Method) (pred succ : BlockId) : Method :=
  method.modifyBlock succ (·.addPred pred)

/-- Forget one edge `pred → succ` at its target. -/
def removeEdge (method : Method) (pred succ : BlockId) : Method :=
  method.modifyBlock succ (·.removePred pred)

/-- Record an edge to a block that exists. -/
def connect (method : Method) (pred succ : BlockId) : Except Fault Method :=
  if method.hasBlock succ then .ok (method.addEdge pred succ) else .error (.noSuccessor succ)

/-- Forget an edge to a block that exists. -/
def disconnect (method : Method) (pred succ : BlockId) : Except Fault Method :=
  if method.hasBlock succ then .ok (method.removeEdge pred succ)
  else .error (.noSuccessor succ)

/-- Edit at one block after the other, up to the first at which the edit fails. -/
def editEach (method : Method) (edit : Method → BlockId → Except Fault Method) :
    List BlockId → Edit
  | [] => { method := method }
  | block :: rest =>
    match edit method block with
    | .ok edited => edited.editEach edit rest
    | .error fault => { method := method, fault := some fault }

/-- Record an edge to each target up to the first that does not exist. -/
def connectAll (method : Method) (pred : BlockId) (targets : List BlockId) : Edit :=
  method.editEach (·.connect pred ·) targets

/-- Forget an edge to each target up to the first that does not exist. -/
def disconnectAll (method : Method) (pred : BlockId) (targets : List BlockId) : Edit :=
  method.editEach (·.disconnect pred ·) targets

/-- Give a block a new terminator: forget the edges of the old one, record those
of the new one, then exchange them. A block that does not exist has no edges to
change and nothing happens; a missing target leaves the old terminator with the
edges changed so far. -/
def retarget (method : Method) (block : BlockId) (terminator : Terminator) : Edit :=
  match method.blocks[block]? with
  | none => { method := method }
  | some found =>
    let freed := method.disconnectAll block found.terminator.targets
    match freed.fault with
    | some _ => freed
    | none =>
      let joined := freed.method.connectAll block terminator.targets
      match joined.fault with
      | some _ => joined
      | none => { method := joined.method.modifyBlock block (·.setTerminator terminator) }

end Method

end MinimalSsa
