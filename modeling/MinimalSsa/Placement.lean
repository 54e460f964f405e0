import MinimalSsa.Event
import MinimalSsa.Method.Edges
import MinimalSsa.Placement.Sites

/-!
# Phi placement

Insert the phis of minimal SSA form: for every register defined in at least two
blocks, one phi wherever its definitions meet. All slots of a new phi still name
the register itself; giving each definition a name of its own is left to others.

Methods without heads and methods with guarded regions are left alone. Any other
method must have consistent edges and no block out of reach of every head.

* `Placement.Stats`: what has been done so far, over all methods.
* `Placement.insert`: one phi, unless the block merges the register already.
* `Placement.Attempt`: how far placement comes, whether or not it fails there.
* `Placement.attempt`, `Placement.run`: the whole pass over a method, and its result.
-/

namespace MinimalSsa

namespace Placement

/-- What placement has done so far. -/
structure Stats where
  scanned : Nat := 0
  inserted : Nat := 0
  skipped : Nat := 0
  deriving DecidableEq, Inhabited

/-- A method with phis being inserted. -/
structure Progress where
  method : Method
  inserted : Nat := 0
  events : List Event := []
  deriving DecidableEq

/-- A method after placement. -/
structure Outcome where
  method : Method
  inserted : Nat
  stats : Stats
  events : List Event
  deriving DecidableEq

/-- Insert a phi for `register` into a block, unless one stands there already. -/
def insert (progress : Progress) (block : BlockId) (register : Register) :
    Except Fault Progress :=
  match progress.method.blocks[block]? with
  | none => .error (.outOfBounds progress.method.size block)
  | some found =>
    if found.hasPhiFor register then .ok progress
    else
      let changed := found.insertPhi (.phiFor register found.preds)
      .ok
        { method :=
            { progress.method with
              blocks := progress.method.blocks.setIfInBounds block changed }
          inserted := progress.inserted + 1
          events := progress.events ++
            [.phiInserted register block progress.method.name found.preds.length] }

/-- Insert phis at the given sites in order, up to the first where that fails. -/
def insertAll (progress : Progress) : List (BlockId × Register) → Progress × Option Fault
  | [] => (progress, none)
  | (block, register) :: rest =>
    match insert progress block register with
    | .error fault => (progress, some fault)
    | .ok next => insertAll next rest

/-- How far placement came. A failure takes back neither the phis that stand nor what
was counted before it. -/
structure Attempt extends Outcome where
  failure : Option Failure := none
  deriving DecidableEq

/-- What an attempt came to. -/
def Attempt.result (attempt : Attempt) : Except Failure Outcome :=
  match attempt.failure with
  | none => .ok attempt.toOutcome
  | some failure => .error failure

/-- An attempt that fails before it has done anything. -/
def refuse (stats : Stats) (method : Method) (failure : Failure) : Attempt where
  method := method
  inserted := 0
  stats := stats
  events := []
  failure := some failure

/-- Find the sites of a method and insert the phis. The instructions count as scanned
before the sites are known, the phis once all of them stand. -/
def attemptPlace (stats : Stats) (method : Method) : Attempt :=
  let (definitions, collector) := ({} : Collector).collect method
  let counted := { stats with scanned := stats.scanned + collector.scanned }
  match Sites.all method definitions with
  | .error failure => refuse counted method failure
  | .ok sites =>
    match insertAll { method := method } sites with
    | (reached, some fault) =>
      { method := reached.method
        inserted := reached.inserted
        stats := counted
        events := reached.events
        failure := some (.fault fault) }
    | (done, none) =>
      { method := done.method
        inserted := done.inserted
        stats := { counted with inserted := counted.inserted + done.inserted }
        events := done.events ++
          [.phisPlaced method.name collector.scanned done.inserted] }

/-- The result of finding the sites and inserting the phis. -/
def place (stats : Stats) (method : Method) : Except Failure Outcome :=
  (attemptPlace stats method).result

/-- A method that placement leaves alone. -/
def skip (stats : Stats) (method : Method) (event : Event) : Outcome where
  method := method
  inserted := 0
  stats := { stats with skipped := stats.skipped + 1 }
  events := [event]

/-- Place phis in a method. -/
def attempt (stats : Stats) (method : Method) : Attempt :=
  if method.heads.isEmpty then { skip stats method (.skippedPlugged method.name) with }
  else if method.hasRegions then { skip stats method (.skippedGuarded method.name) with }
  else
    match method.verify with
    | .error violation => refuse stats method (.violation violation)
    | .ok () =>
      match method.unreachable with
      | .error fault => refuse stats method (.fault fault)
      | .ok (block :: _) => refuse stats method (.violation (.orphanedBlock block))
      | .ok [] => attemptPlace stats method

/-- The result of placing phis in a method. -/
def run (stats : Stats) (method : Method) : Except Failure Outcome :=
  (attempt stats method).result

/-- The statistics by name. -/
def Stats.report (stats : Stats) : List (String × Nat) :=
  [("PhiPlacement.IRInstructions", stats.scanned),
   ("PhiPlacement.PhiInstructions", stats.inserted)]

end Placement

end MinimalSsa
