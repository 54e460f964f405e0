import MinimalSsa.Check
import MinimalSsa.Counters
import MinimalSsa.Placement

/-!
# Passes and sequences of passes

A pass looks at a method, may change it, and keeps statistics over all methods it
has seen. A sequence runs its passes in order on one method and stops at the
first that fails.

* `Pass`: checks, placement, passes run under a condition, and passes supplied from
  outside through `CustomPass`. `Pass Empty` has none of the last kind.
* `Pass.run`: one pass over one method.
* `Passes.run`: a sequence over one method. Its error names the method and the pass.
* `Passes.counters`: the statistics of a sequence, summed by name.
* `Passes.ssa`: check, place phis, check again.
-/

namespace MinimalSsa

/-- What a pass leaves behind: the method, whether it changed, and what happened. -/
structure PassRun where
  method : Method
  outcome : Except Failure Bool
  events : List Event := []

/-- Passes supplied from outside the library. -/
class CustomPass (ε : Type) where
  name : ε → String
  /-- The pass after a run, with its statistics, and the result. -/
  run : ε → Method → ε × PassRun
  /-- The statistics by name. -/
  report : ε → List (String × Nat)

instance : CustomPass Empty where
  name := nofun
  run := nofun
  report := nofun

/-- A pass with the statistics it has gathered. -/
inductive Pass (ε : Type) where
  | check (mode : Check)
  | place (stats : Placement.Stats)
  | guarded (condition : Method → Bool) (pass : Pass ε)
  | custom (pass : ε)

namespace Pass

variable {ε : Type} [CustomPass ε]

/-- The name of a pass. A condition does not show in it. -/
def name : Pass ε → String
  | .check _ => "Validation"
  | .place _ => "PhiPlacement"
  | .guarded _ pass => pass.name
  | .custom pass => CustomPass.name pass

/-- The statistics of a pass by name. -/
def report : Pass ε → List (String × Nat)
  | .check _ => []
  | .place stats => stats.report
  | .guarded _ pass => pass.report
  | .custom pass => CustomPass.report pass

/-- A check as a pass: it changes nothing. -/
def runCheck (mode : Check) (method : Method) : PassRun :=
  match mode.run method with
  | .ok () => { method := method, outcome := .ok false }
  | .error violation =>
    { method := method
      outcome := .error (.violation violation)
      events := [.rejected method.name violation] }

/-- Placement as a pass, with the statistics after it. -/
def runPlace (stats : Placement.Stats) (method : Method) : Placement.Stats × PassRun :=
  let attempt := Placement.attempt stats method
  (attempt.stats,
    { method := attempt.method
      outcome := attempt.result.map (0 < ·.inserted)
      events := attempt.events })

/-- Run a pass on a method. A pass whose condition does not hold does nothing. -/
def run : Pass ε → Method → Pass ε × PassRun
  | .check mode, method => (.check mode, runCheck mode method)
  | .place stats, method =>
    let (after, done) := runPlace stats method
    (.place after, done)
  | .guarded condition pass, method =>
    if condition method then
      let (after, done) := pass.run method
      (.guarded condition after, done)
    else (.guarded condition pass, { method := method, outcome := .ok false })
  | .custom pass, method =>
    let (after, done) := CustomPass.run pass method
    (.custom after, done)

end Pass

/-- Passes in the order in which they run. -/
abbrev Passes (ε : Type) := List (Pass ε)

/-- What a sequence leaves behind. -/
structure SequenceRun where
  method : Method
  outcome : Except CompileError Bool
  events : List Event := []

namespace Passes

variable {ε : Type} [CustomPass ε]

/-- Run passes in order. The first failure stops the sequence: the passes after it
are left as they are. Otherwise the answer is whether any pass changed the method. -/
def run : Passes ε → Method → Passes ε × SequenceRun
  | [], method => ([], { method := method, outcome := .ok false })
  | pass :: rest, method =>
    let (after, done) := pass.run method
    match done.outcome with
    | .error cause =>
      (after :: rest,
        { method := done.method
          outcome := .error { method := done.method.name, pass := pass.name, cause := cause }
          events := done.events })
    | .ok modified =>
      let (others, last) := run rest done.method
      let noted := if modified then [.changed pass.name done.method.name] else []
      (after :: others,
        { method := last.method
          outcome := last.outcome.map (modified || ·)
          events := done.events ++ noted ++ last.events })

/-- The statistics of all passes, summed by name. -/
def counters (passes : Passes ε) : Counters :=
  passes.foldl (fun sum pass => sum.tallyAll pass.report) .empty

/-- The construction of SSA form: check, place phis, check the result. -/
def ssa : Passes ε :=
  [.check .loose, .place {}, .check .strict]

end Passes

end MinimalSsa
