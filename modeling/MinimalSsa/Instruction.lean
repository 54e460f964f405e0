import MinimalSsa.Operand

/-!
# Instructions

Straight-line code. An instruction is an action with an optional comment;
control flow is left to terminators.

* `Action`, `Instruction`: the data. A phi keeps its operands and the blocks
  they come from as two lists, which well-formed code keeps equally long.
* `Instruction.phiFor`: the phi that merges one register over a predecessor
  list.
* `Instruction.result`, `Instruction.definedRegister`, `Instruction.operands`:
  what an instruction writes and reads.
* `Instruction.text`: the printed form.
-/

namespace MinimalSsa

/-- The operators of two-operand arithmetic and comparison. -/
inductive BinaryOp where
  | add | sub | mul | div
  | and | or | xor | shl | shr
  | eq | neq | less | lessEqual
  deriving DecidableEq, Inhabited

/-- An operator in print. -/
def BinaryOp.symbol : BinaryOp → String
  | .add => "+"
  | .sub => "-"
  | .mul => "*"
  | .div => "/"
  | .and => "&"
  | .or => "|"
  | .xor => "^"
  | .shl => "<<"
  | .shr => ">>"
  | .eq => "=="
  | .neq => "!="
  | .less => "<"
  | .lessEqual => "<="

/-- What an instruction does. -/
inductive Action where
  | nop
  | move (dest source : Operand)
  | binary (op : BinaryOp) (dest left right : Operand)
  | load (dest address : Operand)
  | store (address value : Operand)
  | call (dest : Option Operand) (callee : MethodId) (arguments : List Operand)
  | phi (dest : Register) (operands : List Operand) (sources : List BlockId)
  deriving DecidableEq, Inhabited

/-- An action, with a remark for the reader of the printed code. -/
structure Instruction where
  action : Action
  comment : Option String := none
  deriving DecidableEq, Inhabited

namespace Instruction

/-- The phi that merges `register` over the incoming edges `preds`: slot `i`
holds the register itself and names `preds[i]`. -/
def phiFor (register : Register) (preds : List BlockId) : Instruction :=
  { action := .phi register (List.replicate preds.length (.register register)) preds }

/-- The instruction `register = value`. -/
def assign (register : Register) (value : Int64) : Instruction :=
  { action := .move (.register register) (.integer value) }

/-- The instruction with `comment` in place of any comment it had. -/
def withComment (instruction : Instruction) (comment : String) : Instruction :=
  { instruction with comment := some comment }

/-- Is it a placeholder that does nothing? -/
def isNop (instruction : Instruction) : Bool :=
  match instruction.action with
  | .nop => true
  | _ => false

/-- Is it a phi? -/
def isPhi (instruction : Instruction) : Bool :=
  match instruction.action with
  | .phi _ _ _ => true
  | _ => false

/-- The operand an instruction writes. A store writes no operand: its address
is one it reads. -/
def result (instruction : Instruction) : Option Operand :=
  match instruction.action with
  | .nop => none
  | .move dest _ => some dest
  | .binary _ dest _ _ => some dest
  | .load dest _ => some dest
  | .store _ _ => none
  | .call dest _ _ => dest
  | .phi dest _ _ => some (.register dest)

/-- The virtual register an instruction defines. -/
def definedRegister (instruction : Instruction) : Option Register :=
  instruction.result.bind Operand.register?

/-- The operands an instruction reads, in order. -/
def operands (instruction : Instruction) : List Operand :=
  match instruction.action with
  | .nop => []
  | .move _ source => [source]
  | .binary _ _ left right => [left, right]
  | .load _ address => [address]
  | .store address value => [address, value]
  | .call _ _ arguments => arguments
  | .phi _ operands _ => operands

/-- The slots of a phi: each incoming block with the operand it brings. -/
def phiSlots (instruction : Instruction) : Option (List (BlockId × Operand)) :=
  match instruction.action with
  | .phi _ operands sources => some (sources.zip operands)
  | _ => none

end Instruction

namespace Action

/-- One slot of a phi in print: `[%0, bb1]`. -/
def slotText (operand : Operand) (source : BlockId) : String :=
  "[" ++ operand.text ++ ", " ++ BlockId.text source ++ "]"

/-- A call in print, without its result. -/
def callText (callee : MethodId) (arguments : List Operand) : String :=
  "call " ++ MethodId.text callee ++ "(" ++ listed (arguments.map Operand.text) ++ ")"

/-- An action in print. A phi without slots prints no list. -/
def text : Action → String
  | .nop => "nop"
  | .move dest source => dest.text ++ " = " ++ source.text
  | .binary op dest left right =>
    dest.text ++ " = " ++ left.text ++ " " ++ op.symbol ++ " " ++ right.text
  | .load dest address => dest.text ++ " = load " ++ address.text
  | .store address value => "store " ++ address.text ++ ", " ++ value.text
  | .call (some dest) callee arguments => dest.text ++ " = " ++ callText callee arguments
  | .call none callee arguments => callText callee arguments
  | .phi dest operands sources =>
    match List.zipWith slotText operands sources with
    | [] => Register.text dest ++ " = phi"
    | slots => Register.text dest ++ " = phi " ++ listed slots

end Action

/-- An instruction in print. A comment stands on a line of its own before it. -/
def Instruction.text (instruction : Instruction) : String :=
  match instruction.comment with
  | none => instruction.action.text
  | some comment => "// " ++ comment ++ "\n" ++ instruction.action.text

end MinimalSsa
