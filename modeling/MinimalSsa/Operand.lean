import MinimalSsa.Text

/-!
# Operands

What instructions read and write. Only virtual registers take part in SSA
form; machine registers, literals and memory cells are carried along
unchanged.

* `Literal`, `Operand`: the data.
* `Operand.register?`: the virtual register an operand is, if it is one.
* `Operand.text`: the printed form. A memory cell shows the sign of its offset
  as the operator between base and distance, so the least offset prints too.
-/

namespace MinimalSsa

/-- A constant. -/
inductive Literal where
  | integer (value : Int64)
  | boolean (value : Bool)
  | null
  deriving DecidableEq, Inhabited

/-- Anything an instruction reads or writes. -/
inductive Operand where
  | register (id : Register)
  | machine (number : UInt8)
  | literal (value : Literal)
  | memory (base : Register) (offset : Int32)
  deriving DecidableEq, Inhabited

namespace Literal

/-- A constant in print. -/
def text : Literal → String
  | .integer value => toString value.toInt
  | .boolean true => "true"
  | .boolean false => "false"
  | .null => "null"

end Literal

namespace Operand

/-- The integer constant `value`. -/
def integer (value : Int64) : Operand :=
  .literal (.integer value)

/-- The truth value `value`. -/
def boolean (value : Bool) : Operand :=
  .literal (.boolean value)

/-- The virtual register an operand is. -/
def register? : Operand → Option Register
  | .register id => some id
  | _ => none

/-- Is it a virtual register? -/
def isRegister : Operand → Bool
  | .register _ => true
  | _ => false

/-- Is it a machine register? -/
def isMachine : Operand → Bool
  | .machine _ => true
  | _ => false

/-- Is it a constant? -/
def isLiteral : Operand → Bool
  | .literal _ => true
  | _ => false

/-- Is it a memory cell? -/
def isMemory : Operand → Bool
  | .memory _ _ => true
  | _ => false

/-- An operand in print. -/
def text : Operand → String
  | .register id => Register.text id
  | .machine number => "r" ++ toString number.toNat
  | .literal value => value.text
  | .memory base offset =>
    if offset.toInt < 0 then
      "[" ++ Register.text base ++ " - " ++ toString offset.toInt.natAbs ++ "]"
    else
      "[" ++ Register.text base ++ " + " ++ toString offset.toInt.natAbs ++ "]"

end Operand

end MinimalSsa
