import MinimalSsa.Failure

/-!
# Events

What the passes report while they run, for a log. An event is a cause; its level
and wording are functions of it.
-/

namespace MinimalSsa

/-- How urgent a line of the log is. -/
inductive Level where
  | error | warn | debug | trace
  deriving DecidableEq, Inhabited

/-- A level in print. -/
def Level.text : Level → String
  | .error => "ERROR"
  | .warn => "WARN"
  | .debug => "DEBUG"
  | .trace => "TRACE"

/-- Something worth a line in the log. -/
inductive Event where
  /-- Placement left out a method without heads. -/
  | skippedPlugged (method : String)
  /-- Placement left out a method with guarded regions. -/
  | skippedGuarded (method : String)
  /-- A phi with so many slots was inserted. -/
  | phiInserted (register : Register) (block : BlockId) (method : String) (slots : Nat)
  /-- Placement is done with a method. -/
  | phisPlaced (method : String) (scanned inserted : Nat)
  /-- A check rejected a method. -/
  | rejected (method : String) (reason : Violation)
  /-- A pass changed a method. -/
  | changed (pass method : String)
  /-- A method did not compile. -/
  | methodFailed (error : CompileError)
  /-- All methods of a program are done. -/
  | programDone (methods modified failed : Nat)
  deriving DecidableEq, Inhabited

namespace Event

/-- The level of an event. -/
def level : Event → Level
  | .skippedPlugged _ => .debug
  | .skippedGuarded _ => .debug
  | .phiInserted _ _ _ _ => .trace
  | .phisPlaced _ _ _ => .debug
  | .rejected _ _ => .warn
  | .changed _ _ => .debug
  | .methodFailed _ => .error
  | .programDone _ _ _ => .debug

/-- The wording of an event. -/
def text : Event → String
  | .skippedPlugged method =>
    "Skipping phi placement for '" ++ method ++ "': no head blocks"
  | .skippedGuarded method =>
    "Skipping phi placement for '" ++ method ++ "': method has protected regions"
  | .phiInserted register block method slots =>
    "Inserted phi for " ++ Register.text register ++ " in " ++ BlockId.text block ++
      " of '" ++ method ++ "' (" ++ toString slots ++ " slots)"
  | .phisPlaced method scanned inserted =>
    "Phi placement for '" ++ method ++ "': " ++ toString scanned ++
      " instructions scanned, " ++ toString inserted ++ " phis inserted"
  | .rejected method reason =>
    "MIR validation failed for function '" ++ method ++ "': " ++ reason.message
  | .changed pass method =>
    "Pass '" ++ pass ++ "' modified function '" ++ method ++ "'"
  | .methodFailed error => error.message
  | .programDone methods modified failed =>
    "Compiled " ++ toString methods ++ " methods: " ++ toString modified ++
      " modified, " ++ toString failed ++ " failed"

end Event

end MinimalSsa
