import MinimalSsa.Text

/-!
# Failures

What can go wrong, by cause; the wording is in the `message` functions.

* `Fault`: a reference outside a table, or an argument no caller may pass.
* `Violation`: a method breaks a rule that compiling it relies on.
* `Failure`: either of the two.
* `CompileError`: a failure with the method and the pass it arose in.
-/

namespace Except

variable {ε α β : Type} {result : Except ε α} {view : α → β}

/-- A computation whose result is known in part has a result. -/
theorem exists_ok_of_map {value : β} (h : result.map view = .ok value) :
    ∃ out, result = .ok out ∧ view out = value := by
  cases result with
  | error failure => cases h
  | ok out => exact ⟨out, rfl, Except.ok.inj h⟩

theorem error_of_map {failure : ε} (h : result.map view = .error failure) :
    result = .error failure := by
  cases result with
  | error other => rw [Except.error.inj h]
  | ok value => cases h

end Except

namespace MinimalSsa

/-- A misuse of the library: the operation stops where it is. -/
inductive Fault where
  /-- An edge was drawn to, or taken from, a block that does not exist. -/
  | noSuccessor (block : BlockId)
  /-- The predecessors of a block that does not exist were asked for. -/
  | noBlock (block : BlockId)
  /-- Something other than a phi was to be placed among the phis. -/
  | notPhi
  /-- A table of `size` entries was read at `index`. -/
  | outOfBounds (size index : Nat)
  /-- A counter would have passed its largest value. -/
  | counterOverflow
  deriving DecidableEq, Inhabited

/-- The wording of a fault. -/
def Fault.message : Fault → String
  | .noSuccessor block => "Successor block " ++ toString block ++ " does not exist"
  | .noBlock block => "Block " ++ toString block ++ " not found"
  | .notPhi => "push_phi called with a non-phi instruction"
  | .outOfBounds size index =>
    "index out of bounds: the len is " ++ toString size ++ " but the index is " ++
      toString index
  | .counterOverflow => "attempt to add with overflow"

/-- What is wrong with a phi that stands in the right place. -/
inductive PhiDefect where
  /-- Operands and incoming blocks differ in number. -/
  | slotCount (operands sources : Nat)
  /-- The incoming blocks are not the predecessors of the block, in order. -/
  | slotOrder (sources preds : List BlockId)
  /-- An earlier phi of the block defines the same register. -/
  | duplicate
  deriving DecidableEq, Inhabited

/-- The wording of a phi's defect. -/
def PhiDefect.message : PhiDefect → String
  | .slotCount operands sources =>
    toString operands ++ " operands but " ++ toString sources ++ " incoming blocks"
  | .slotOrder sources preds =>
    "incoming blocks " ++ bracketed (sources.map BlockId.text) ++
      " do not match predecessors " ++ bracketed (preds.map BlockId.text)
  | .duplicate => "duplicate phi for the same variable"

/-- A rule that a method breaks. -/
inductive Violation where
  /-- `block` refers to `target`, which does not exist. A missing head refers
  to itself. -/
  | missingBlock (block target : BlockId)
  /-- The edge is listed a different number of times on its two sides. -/
  | inconsistentEdge (source target : BlockId) (successors predecessors : Nat)
  /-- `block` cannot be reached from `head`. -/
  | unreachableBlock (block head : BlockId)
  /-- `block` cannot be reached from any head. -/
  | orphanedBlock (block : BlockId)
  /-- The phi for `register` in `block` is malformed. -/
  | malformedPhi (block : BlockId) (register : Register) (defect : PhiDefect)
  /-- The phi at `position` of `block` follows another kind of instruction. -/
  | phiAfterNonPhi (block : BlockId) (position : Nat)
  deriving DecidableEq, Inhabited

/-- The wording of a violation. -/
def Violation.message : Violation → String
  | .missingBlock block target =>
    "block " ++ BlockId.text block ++ " references missing block " ++ BlockId.text target
  | .inconsistentEdge source target successors predecessors =>
    "edge " ++ BlockId.text source ++ " -> " ++ BlockId.text target ++ " occurs " ++
      toString successors ++ " time(s) in successors but " ++ toString predecessors ++
      " time(s) in predecessors"
  | .unreachableBlock block head =>
    "block " ++ BlockId.text block ++ " is not reachable from head block " ++
      BlockId.text head
  | .orphanedBlock block =>
    "block " ++ BlockId.text block ++ " is not reachable from any head block"
  | .malformedPhi block register defect =>
    "phi for " ++ Register.text register ++ " in block " ++ BlockId.text block ++ ": " ++
      defect.message
  | .phiAfterNonPhi block position =>
    "block " ++ BlockId.text block ++ ": phi at position " ++ toString position ++
      " follows a non-phi instruction"

/-- Anything that stops an analysis or a pass. -/
inductive Failure where
  | violation (broken : Violation)
  | fault (misuse : Fault)
  deriving DecidableEq, Inhabited

/-- The wording of a failure. -/
def Failure.message : Failure → String
  | .violation broken => broken.message
  | .fault misuse => misuse.message

/-- A failure attributed to the method and the pass it arose in. -/
structure CompileError where
  method : String
  pass : String
  cause : Failure
  deriving DecidableEq, Inhabited

/-- The wording of a compile error. -/
def CompileError.message (error : CompileError) : String :=
  "failed to compile method '" ++ error.method ++ "' in pass " ++ error.pass ++ ": " ++
    error.cause.message

end MinimalSsa
