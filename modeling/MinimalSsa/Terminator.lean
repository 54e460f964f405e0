import MinimalSsa.Operand

/-!
# Terminators

The end of a block: where control goes next. The successors of a block are
read off its terminator.

* `Terminator.targets`: the blocks control may go to, in order and with
  repetitions.
* `Terminator.ofTargets`: the plainest terminator with given targets.
* `Terminator.text`: the printed form.
-/

namespace MinimalSsa

/-- How a block ends. -/
inductive Terminator where
  | jump (target : BlockId)
  | branch (condition : Operand) (onTrue onFalse : BlockId)
  | switch (value : Operand) (cases : List BlockId) (fallback : BlockId)
  | ret (value : Option Operand)
  | unreachable
  deriving DecidableEq, Inhabited

namespace Terminator

/-- The blocks control may go to. The fallback of a switch comes last. -/
def targets : Terminator → List BlockId
  | .jump target => [target]
  | .branch _ onTrue onFalse => [onTrue, onFalse]
  | .switch _ cases fallback => cases ++ [fallback]
  | .ret _ => []
  | .unreachable => []

/-- Does control leave the method here? -/
def endsMethod : Terminator → Bool
  | .ret _ => true
  | .unreachable => true
  | _ => false

/-- Does it choose between targets? -/
def isConditional : Terminator → Bool
  | .branch _ _ _ => true
  | .switch _ _ _ => true
  | _ => false

/-- The plainest terminator with these targets: a return for none, a jump for
one, a branch on `true` for two, and for more a switch on `0` whose last target
is the fallback. -/
def ofTargets : List BlockId → Terminator
  | [] => .ret none
  | [target] => .jump target
  | [onTrue, onFalse] => .branch (.boolean true) onTrue onFalse
  | first :: second :: third :: rest =>
    .switch (.integer 0) ((first :: second :: third :: rest).dropLast)
      ((third :: rest).getLast (List.cons_ne_nil third rest))

/-- A terminator in print. -/
def text : Terminator → String
  | .jump target => "jump " ++ BlockId.text target
  | .branch condition onTrue onFalse =>
    "if " ++ condition.text ++ " then jump " ++ BlockId.text onTrue ++
      " else jump " ++ BlockId.text onFalse
  | .switch value cases fallback =>
    "switch " ++ value.text ++ " " ++ bracketed (cases.map BlockId.text) ++
      " default " ++ BlockId.text fallback
  | .ret (some value) => "return " ++ value.text
  | .ret none => "return"
  | .unreachable => "unreachable"

/-- The targets of `ofTargets` are the ones it was given. -/
theorem targets_ofTargets (blocks : List BlockId) : (ofTargets blocks).targets = blocks := by
  match blocks with
  | [] => rfl
  | [_] => rfl
  | [_, _] => rfl
  | first :: second :: third :: rest =>
    have h := List.dropLast_concat_getLast (List.cons_ne_nil first (second :: third :: rest))
    simpa [ofTargets, targets, List.getLast_cons] using h

end Terminator

end MinimalSsa
