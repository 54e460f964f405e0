import Mathlib.Algebra.GroupWithZero.Nat
import MinimalSsa.Proofs.Repetition

/-!
# Sequences of checks and placement

A sequence is run pass by pass, and later passes change the method under the eyes of the
earlier ones. For checks and placement this does no harm: whatever such a sequence does,
it leaves either the method or `Method.placed` behind, no check tells the two apart, and
placement has nothing left to do on the second. So a sequence run again on its own result
goes the same way, up to the pass that failed if one did.

* `Counters.get_tallyAll`, `Counters.get_absorb`: what adding many amounts does.
* `Pass.Plain`: checks and placement.
* `Pass.idle_of_run`: a pass that succeeded has nothing to do on what later passes leave.
* `Passes.run_again`: a sequence run again on its result.
* `Passes.run_ssa_eq_ok_iff`: the methods for which SSA form is constructed.
-/

namespace MinimalSsa

/-! ## Sums of counters -/

namespace Counters

/-- The sum of the amounts under one name. -/
def total (name : String) (amounts : List (String × Nat)) : Nat :=
  (amounts.map fun entry => if name = entry.1 then entry.2 else 0).sum

/-- Adding amounts adds to a counter those under its name. -/
theorem get_tallyAll (counters : Counters) (name : String) (amounts : List (String × Nat)) :
    (counters.tallyAll amounts).get name = counters.get name + total name amounts := by
  induction amounts generalizing counters with
  | nil => rfl
  | cons entry amounts ih =>
    show ((counters.tally entry.1 entry.2).tallyAll amounts).get name = _
    rw [ih, get_tally, Nat.add_assoc, total, total, List.map_cons, List.sum_cons]

/-- In a sorted list a name stands at most once. -/
theorem total_eq_lookup {name : String} {entries : List (String × Nat)}
    (h : entries.Pairwise (fun left right => left.1 < right.1)) :
    total name entries = (entries.lookup name).getD 0 := by
  induction entries with
  | nil => rfl
  | cons entry entries ih =>
    obtain ⟨known, held⟩ := entry
    obtain ⟨hfirst, hrest⟩ := List.pairwise_cons.mp h
    show (if name = known then held else 0) + total name entries = _
    rw [ih hrest]
    by_cases hname : name = known
    · subst hname
      rw [if_pos rfl, lookup_eq_none hfirst, List.lookup_cons_self]
      rfl
    · rw [if_neg hname, Nat.zero_add, List.lookup_cons, beq_eq_false_iff_ne.mpr hname]

/-- Every counter of the other set is added. -/
theorem get_absorb (counters other : Counters) (name : String) :
    (counters.absorb other).get name = counters.get name + other.get name := by
  rw [absorb, get_tallyAll, total_eq_lookup other.sorted, get]
  rfl

end Counters

namespace Pass

variable {ε : Type} [CustomPass ε] {pass : Pass ε} {method later : Method}

/-! ## One pass -/

/-- The pass is a check or placement. -/
def Plain : Pass ε → Prop
  | .check _ => True
  | .place _ => True
  | .guarded _ _ => False
  | .custom _ => False

/-- The phis that a pass reports. -/
def phis (pass : Pass ε) : Nat :=
  Counters.total "PhiPlacement.PhiInstructions" pass.report

@[simp] theorem phis_place (stats : Placement.Stats) :
    (.place stats : Pass ε).phis = stats.inserted := by
  simp [phis, report, Placement.Stats.report, Counters.total]

/-- A check changes nothing. -/
theorem method_run_check (mode : Check) (method : Method) :
    (run (.check mode : Pass ε) method).2.method = method := by
  show (runCheck mode method).method = method
  unfold runCheck
  split <;> rfl

/-- It succeeds as a pass where the check passes the method, and reports no change. -/
theorem outcome_run_check_eq_ok_iff {mode : Check} {modified : Bool} :
    (run (.check mode : Pass ε) method).2.outcome = .ok modified ↔
      mode.run method = .ok () ∧ modified = false := by
  show (runCheck mode method).outcome = .ok modified ↔ _
  unfold runCheck
  cases mode.run method with
  | error violation => simp
  | ok passed => simp [eq_comm]

/-- Placement leaves `Method.placed` behind. -/
theorem method_run_place (stats : Placement.Stats) (method : Method) :
    (run (.place stats : Pass ε) method).2.method = method.placed :=
  Placement.method_runPlace stats method

/-- It succeeds as a pass where placement does, and reports whether there are new phis. -/
theorem outcome_run_place_eq_ok_iff {stats : Placement.Stats} {modified : Bool} :
    (run (.place stats : Pass ε) method).2.outcome = .ok modified ↔
      ∃ out, Placement.run stats method = .ok out ∧ modified = decide (0 < out.inserted) := by
  show (runPlace stats method).2.outcome = .ok modified ↔ _
  cases hrun : Placement.run stats method with
  | error failure => simp [runPlace_of_error hrun]
  | ok out => simp [runPlace_of_ok hrun, eq_comm]

/-- A plain pass leaves the method behind, or what placement makes of it. -/
theorem method_run (hplain : pass.Plain) (method : Method) :
    (pass.run method).2.method = method ∨ (pass.run method).2.method = method.placed := by
  cases pass with
  | check mode => exact .inl (method_run_check mode method)
  | place stats => exact .inr (method_run_place stats method)
  | guarded condition pass => exact hplain.elim
  | custom pass => exact hplain.elim

/-- A plain pass that fails changes neither the method nor its count. -/
theorem run_of_error (hplain : pass.Plain) {cause : Failure}
    (herror : (pass.run method).2.outcome = .error cause) :
    (pass.run method).2.method = method ∧ (pass.run method).1.phis = pass.phis := by
  cases pass with
  | check mode => exact ⟨method_run_check mode method, rfl⟩
  | place stats =>
    simp only [run] at herror ⊢
    cases hrun : Placement.run stats method with
    | error failure =>
      rw [runPlace_of_error hrun]
      exact ⟨rfl, rfl⟩
    | ok out =>
      rw [runPlace_of_ok hrun] at herror
      cases herror
  | guarded condition pass => exact hplain.elim
  | custom pass => exact hplain.elim

/-- The pass has nothing to do on a method: it succeeds and changes nothing. -/
structure Idle (pass : Pass ε) (method : Method) : Prop where
  succeeds : (pass.run method).2.outcome = .ok false
  keeps : (pass.run method).2.method = method
  inserts : (pass.run method).1.phis = pass.phis

/-- A plain pass that succeeded has nothing to do on the method it left behind, placed or
not. -/
theorem idle_of_run (hplain : pass.Plain) {modified : Bool}
    (hok : (pass.run method).2.outcome = .ok modified)
    (hlater : later = (pass.run method).2.method ∨ later = (pass.run method).2.method.placed) :
    pass.Idle later := by
  cases pass with
  | check mode =>
    have hpassed : mode.run method = .ok () := (outcome_run_check_eq_ok_iff.mp hok).1
    rw [method_run_check] at hlater
    have hagain : mode.run later = .ok () := by
      rcases hlater with rfl | rfl
      · exact hpassed
      · exact Check.run_placed_iff.mpr hpassed
    exact ⟨outcome_run_check_eq_ok_iff.mpr ⟨hagain, rfl⟩, method_run_check mode later, rfl⟩
  | place stats =>
    obtain ⟨out, hrun, -⟩ := outcome_run_place_eq_ok_iff.mp hok
    -- placing once more makes no difference, so `later` is the placed method
    rw [method_run_place, Placement.placed_placed, or_self, Placement.placed_of_run hrun]
      at hlater
    obtain ⟨final, hfinal, hmethod, hinserted⟩ := Placement.run_again hrun stats
    rw [← hlater] at hfinal hmethod
    have hrunPlace : runPlace stats later =
        (final.stats, { method := later, outcome := .ok false, events := final.events }) := by
      rw [runPlace_of_ok hfinal]
      simp [hmethod, hinserted]
    constructor
    case succeeds => exact congrArg (·.2.outcome) hrunPlace
    case keeps => exact congrArg (·.2.method) hrunPlace
    case inserts =>
      show (.place (runPlace stats later).1 : Pass ε).phis = _
      rw [phis_place, phis_place, hrunPlace, Placement.inserted_of_run hfinal, hinserted,
        Nat.add_zero]
  | guarded condition pass => exact hplain.elim
  | custom pass => exact hplain.elim

end Pass

namespace Passes

variable {ε : Type} [CustomPass ε] {pass : Pass ε} {passes rest : Passes ε} {method : Method}

/-! ## Sequences -/

/-- A pass that fails ends the sequence. -/
theorem run_cons_of_error (rest : Passes ε) {cause : Failure}
    (herror : (pass.run method).2.outcome = .error cause) :
    (run (pass :: rest) method).1 = (pass.run method).1 :: rest ∧
    (run (pass :: rest) method).2.method = (pass.run method).2.method ∧
    (run (pass :: rest) method).2.outcome = .error
      { method := (pass.run method).2.method.name, pass := pass.name, cause := cause } := by
  simp only [run, herror, and_self]

/-- After a pass that succeeds the sequence goes on with its result. -/
theorem run_cons_of_ok (rest : Passes ε) {modified : Bool}
    (hok : (pass.run method).2.outcome = .ok modified) :
    (run (pass :: rest) method).1 =
      (pass.run method).1 :: (run rest (pass.run method).2.method).1 ∧
    (run (pass :: rest) method).2.method = (run rest (pass.run method).2.method).2.method ∧
    (run (pass :: rest) method).2.outcome =
      (run rest (pass.run method).2.method).2.outcome.map (modified || ·) := by
  simp only [run, hok, and_self]

/-- A sequence succeeds if each of its passes does on what those before it leave. -/
theorem exists_run_cons_eq_ok_iff :
    (∃ modified, (run (pass :: rest) method).2.outcome = .ok modified) ↔
      (∃ modified, (pass.run method).2.outcome = .ok modified) ∧
      ∃ modified, (run rest (pass.run method).2.method).2.outcome = .ok modified := by
  cases hpass : (pass.run method).2.outcome with
  | error cause =>
    rw [(run_cons_of_error rest hpass).2.2]
    simp
  | ok modified =>
    rw [(run_cons_of_ok rest hpass).2.2]
    cases (run rest (pass.run method).2.method).2.outcome with
    | error error => simp [Except.map]
    | ok other => simp [Except.map]

/-- Plain passes leave the method behind, or what placement makes of it. -/
theorem method_run (hplain : ∀ pass ∈ passes, pass.Plain) (method : Method) :
    (passes.run method).2.method = method ∨ (passes.run method).2.method = method.placed := by
  induction passes generalizing method with
  | nil => exact .inl rfl
  | cons pass rest ih =>
    obtain ⟨hpass, hrest⟩ := List.forall_mem_cons.mp hplain
    have hfirst := pass.method_run hpass method
    cases hdone : (pass.run method).2.outcome with
    | error cause =>
      rw [(run_cons_of_error rest hdone).2.1]
      exact hfirst
    | ok modified =>
      rw [(run_cons_of_ok rest hdone).2.1]
      rcases hfirst with hsame | hplaced
      · rw [hsame]
        exact ih hrest method
      · have hlast := ih hrest method.placed
        rw [Placement.placed_placed, or_self] at hlast
        exact .inr (hplaced ▸ hlast)

/-- Plain passes run again on what they left behind change nothing, insert nothing, and
fail or succeed as before. -/
theorem run_again (hplain : ∀ pass ∈ passes, pass.Plain) (method : Method) :
    (passes.run (passes.run method).2.method).2.method = (passes.run method).2.method ∧
    (passes.run (passes.run method).2.method).2.outcome =
      (passes.run method).2.outcome.map (fun _ => false) ∧
    (passes.run (passes.run method).2.method).1.map Pass.phis = passes.map Pass.phis := by
  induction passes generalizing method with
  | nil => exact ⟨rfl, rfl, rfl⟩
  | cons pass rest ih =>
    obtain ⟨hpass, hrest⟩ := List.forall_mem_cons.mp hplain
    cases hdone : (pass.run method).2.outcome with
    | error cause =>
      -- the pass saw the method itself, so the second run is the first
      obtain ⟨hmethod, hphis⟩ := Pass.run_of_error hpass hdone
      obtain ⟨hpasses, hlast, houtcome⟩ := run_cons_of_error rest hdone
      rw [hmethod] at hlast
      rw [hlast, hlast, houtcome, hpasses, List.map_cons, hphis]
      exact ⟨rfl, rfl, rfl⟩
    | ok modified =>
      obtain ⟨-, hlast, houtcome⟩ := run_cons_of_ok rest hdone
      have hidle := Pass.idle_of_run hpass hdone (method_run hrest (pass.run method).2.method)
      obtain ⟨hpasses', hlast', houtcome'⟩ := run_cons_of_ok rest hidle.succeeds
      obtain ⟨hmethod, hresult, hphis⟩ := ih hrest (pass.run method).2.method
      rw [hlast, hpasses', hlast', houtcome', houtcome, hidle.keeps]
      refine ⟨hmethod, ?_, ?_⟩
      · rw [hresult]
        cases (run rest (pass.run method).2.method).2.outcome with
        | error error => rfl
        | ok other => rfl
      · rw [List.map_cons, hphis, hidle.inserts, List.map_cons]

/-- The counters of a sequence are the sums over its passes. -/
theorem get_counters (passes : Passes ε) (name : String) :
    passes.counters.get name =
      (passes.map fun pass => Counters.total name pass.report).sum := by
  have hsum : ∀ sum : Counters,
      (passes.foldl (fun sum pass => sum.tallyAll pass.report) sum).get name =
        sum.get name + (passes.map fun pass => Counters.total name pass.report).sum := by
    induction passes with
    | nil => exact fun sum => rfl
    | cons pass rest ih =>
      intro sum
      rw [List.foldl_cons, ih, Counters.get_tallyAll, List.map_cons, List.sum_cons,
        Nat.add_assoc]
  rw [counters, hsum]
  exact Nat.zero_add _

/-! ## The construction of SSA form -/

/-- SSA form is constructed for exactly the methods that are well formed to begin with:
the strict check passes them, and unless placement leaves them alone every block is
reached from some head. Placement has no part in what the strict check says. -/
theorem run_ssa_eq_ok_iff (method : Method) :
    ((∃ modified, ((ssa : Passes ε).run method).2.outcome = .ok modified) ↔
      Check.strict.run method = .ok () ∧
        (method.heads = [] ∨ method.hasRegions = true ∨ method.Covered)) ∧
    ∀ stats, Check.strict.run (Pass.runPlace stats method).2.method = .ok () ↔
      Check.strict.run method = .ok () := by
  have hstrict : ∀ stats, Check.strict.run (Pass.runPlace stats method).2.method = .ok () ↔
      Check.strict.run method = .ok () := by
    intro stats
    rw [Placement.method_runPlace, Check.run_placed_iff]
  refine ⟨?_, hstrict⟩
  have hsteps : (∃ modified, ((ssa : Passes ε).run method).2.outcome = .ok modified) ↔
      Check.loose.run method = .ok () ∧ (∃ out, Placement.run {} method = .ok out) ∧
        Check.strict.run method = .ok () := by
    simp only [ssa, exists_run_cons_eq_ok_iff, Pass.method_run_check, Pass.method_run_place,
      Pass.outcome_run_check_eq_ok_iff, Pass.outcome_run_place_eq_ok_iff, Check.run_placed_iff]
    simp [run]
  rw [hsteps, Placement.exists_run_eq_ok_iff]
  constructor
  · rintro ⟨-, haccepted, hpassed⟩
    exact ⟨hpassed, haccepted.imp_right (Or.imp_right And.right)⟩
  · rintro ⟨hpassed, haccepted⟩
    have hconsistent : method.Consistent := (Check.run_eq_ok_iff.mp hpassed).1
    refine ⟨Check.run_loose hpassed, ?_, hpassed⟩
    exact haccepted.imp_right (Or.imp_right (And.intro hconsistent))

end Passes

end MinimalSsa
