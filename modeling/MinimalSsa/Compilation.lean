import MinimalSsa.Pass
import MinimalSsa.Program

/-!
# Compiling programs

Every method is compiled on its own, with passes of its own, so the methods may be
compiled in any order or at once. A method that fails does not stop the others.

* `Settings`: which passes run.
* `Method.compile`: one method, with its statistics, which are kept when a pass fails.
* `Program.compile`: all methods, with a report that lists failures in the order of
  the methods.
-/

namespace MinimalSsa

/-- What compiling consists of. -/
structure Settings where
  checkBefore : Bool := true
  checkAfter : Bool := true
  placePhis : Bool := true
  /-- Methods may be compiled at once. This has no bearing on the result. -/
  parallel : Bool := true
  deriving DecidableEq, Inhabited

/-- The passes that the settings ask for. -/
def Settings.passes (settings : Settings) : Passes Empty :=
  (if settings.checkBefore then [.check .loose] else []) ++
    (if settings.placePhis then [.place {}] else []) ++
    (if settings.checkAfter then [.check .strict] else [])

/-- A method after compiling, with the statistics of its passes. -/
structure Compiled where
  method : Method
  outcome : Except CompileError Bool
  counters : Counters
  events : List Event

/-- Compile one method. -/
def Method.compile (method : Method) (settings : Settings) : Compiled :=
  let (passes, done) := settings.passes.run method
  { method := done.method
    outcome := done.outcome
    counters := passes.counters
    events := done.events }

/-- What compiling a program came to. -/
structure Report where
  counters : Counters := .empty
  /-- The number of methods that compiled and were changed. -/
  modified : Nat := 0
  /-- One error per method that failed, in the order of the methods. -/
  errors : List CompileError := []
  deriving DecidableEq, Inhabited

namespace Report

/-- Did every method compile? -/
def isSuccess (report : Report) : Bool :=
  report.errors.isEmpty

/-- Take one more method into account. -/
def addMethod (report : Report) (compiled : Compiled) : Report :=
  let counters := report.counters.absorb compiled.counters
  match compiled.outcome with
  | .ok true => { report with counters := counters, modified := report.modified + 1 }
  | .ok false => { report with counters := counters }
  | .error error => { report with counters := counters, errors := report.errors ++ [error] }

end Report

/-- A program after compiling. -/
structure CompiledProgram where
  program : Program
  report : Report
  events : List Event

/-- Compile every method of a program. -/
def Program.compile (program : Program) (settings : Settings) : CompiledProgram :=
  let compiled := program.methods.map (·.compile settings)
  let report := compiled.foldl Report.addMethod {}
  { program := { methods := compiled.map (·.method) }
    report := report
    events := compiled.toList.flatMap (·.events) ++ report.errors.map .methodFailed ++
      [.programDone program.size report.modified report.errors.length] }

end MinimalSsa
