import MinimalSsa.Compilation
import MinimalSsa.Proofs.Accounting

/-!
# Compiling a program again

A compiled program is a fixed point of compiling, whichever methods failed on the way.
Per method this is `Passes.run_again`; a report is a sum over the methods, so that the
second report has the errors of the first, no modified method and no new phi.

* `Report.foldl_addMethod`: what a report says, as sums over the methods.
* `Method.compile_again`: one method compiled again.
* `Program.compile_compile`: all of them.
-/

namespace MinimalSsa

/-! ## Reports -/

/-- The error of a method that failed. -/
def Compiled.error? (compiled : Compiled) : Option CompileError :=
  match compiled.outcome with
  | .ok _ => none
  | .error error => some error

/-- Did the method compile and change? -/
def Compiled.isModified (compiled : Compiled) : Bool :=
  match compiled.outcome with
  | .ok modified => modified
  | .error _ => false

/-- An outcome that is another one without its change reports the same error. -/
theorem Compiled.reported {first second : Compiled}
    (h : second.outcome = first.outcome.map (fun _ => false)) :
    second.error? = first.error? ∧ second.isModified = false := by
  unfold Compiled.error? Compiled.isModified
  rw [h]
  cases first.outcome with
  | error error => exact ⟨rfl, rfl⟩
  | ok modified => exact ⟨rfl, rfl⟩

namespace Report

/-- One method adds its error or its change, and its counters in any case. -/
theorem addMethod_eq (report : Report) (compiled : Compiled) :
    report.addMethod compiled =
      { counters := report.counters.absorb compiled.counters
        modified := report.modified + compiled.isModified.toNat
        errors := report.errors ++ compiled.error?.toList } := by
  unfold addMethod Compiled.isModified Compiled.error?
  cases compiled.outcome with
  | error error => simp
  | ok modified => cases modified <;> simp

/-- A report is a sum over the methods, with the errors in their order. -/
theorem foldl_addMethod (report : Report) (compiled : List Compiled) :
    (compiled.foldl addMethod report).errors =
      report.errors ++ compiled.filterMap Compiled.error? ∧
    (compiled.foldl addMethod report).modified =
      report.modified + compiled.countP Compiled.isModified ∧
    ∀ name, (compiled.foldl addMethod report).counters.get name =
      report.counters.get name + (compiled.map (·.counters.get name)).sum := by
  induction compiled generalizing report with
  | nil => exact ⟨(List.append_nil _).symm, rfl, fun name => rfl⟩
  | cons first compiled ih =>
    obtain ⟨herrors, hmodified, hcounters⟩ := ih (report.addMethod first)
    rw [List.foldl_cons]
    rw [addMethod_eq] at *
    refine ⟨?_, ?_, fun name => ?_⟩
    · rw [herrors, List.append_assoc, List.filterMap_cons]
      cases first.error? with
      | none => rfl
      | some error => rfl
    · rw [hmodified, List.countP_cons, Nat.add_assoc, Nat.add_comm first.isModified.toNat]
      cases first.isModified with
      | false => rfl
      | true => rfl
    · rw [hcounters name, Counters.get_absorb, List.map_cons, List.sum_cons, Nat.add_assoc]

end Report

/-! ## One method -/

/-- The passes of any settings are checks and a placement that has done nothing yet. -/
theorem Settings.of_mem_passes {settings : Settings} {pass : Pass Empty}
    (h : pass ∈ settings.passes) : pass.Plain ∧ pass.Fresh := by
  simp only [Settings.passes, List.mem_append, List.mem_ite_nil_right, List.mem_singleton] at h
  rcases h with (⟨-, rfl⟩ | ⟨-, rfl⟩) | ⟨-, rfl⟩
  · exact ⟨trivial, trivial⟩
  · exact ⟨trivial, rfl⟩
  · exact ⟨trivial, trivial⟩

/-- A method compiled again stays as it is, and fails or succeeds as before. -/
theorem Method.compile_again (method : Method) (settings : Settings) :
    ((method.compile settings).method.compile settings).method =
      (method.compile settings).method ∧
    ((method.compile settings).method.compile settings).outcome =
      (method.compile settings).outcome.map (fun _ => false) ∧
    ((method.compile settings).method.compile settings).counters.get
      "PhiPlacement.PhiInstructions" = 0 := by
  obtain ⟨hmethod, houtcome, hphis⟩ :=
    Passes.run_again (fun pass hpass => (Settings.of_mem_passes hpass).1) method
  refine ⟨hmethod, houtcome, ?_⟩
  show (settings.passes.run (settings.passes.run method).2.method).1.counters.get _ = 0
  rw [Passes.get_counters]
  show (List.map Pass.phis _).sum = 0
  rw [hphis, List.sum_eq_zero_iff_forall_eq_nat]
  intro amount hamount
  obtain ⟨pass, hpass, rfl⟩ := List.mem_map.mp hamount
  exact (Settings.of_mem_passes hpass).2.report_eq_zero.1

/-! ## All methods -/

namespace Program

theorem methods_compile (program : Program) (settings : Settings) :
    (program.compile settings).program.methods =
      program.methods.map fun method => (method.compile settings).method := by
  show (program.methods.map _).map _ = _
  rw [Array.map_map]
  rfl

/-- What the report of a program says. -/
theorem report_compile (program : Program) (settings : Settings) :
    (program.compile settings).report.errors =
      program.methods.toList.filterMap (fun method => (method.compile settings).error?) ∧
    (program.compile settings).report.modified =
      program.methods.toList.countP (fun method => (method.compile settings).isModified) ∧
    ∀ name, (program.compile settings).report.counters.get name =
      (program.methods.toList.map fun method =>
        (method.compile settings).counters.get name).sum := by
  obtain ⟨herrors, hmodified, hcounters⟩ := Report.foldl_addMethod {}
    (program.methods.toList.map (·.compile settings))
  have hreport : (program.compile settings).report =
      (program.methods.toList.map (·.compile settings)).foldl Report.addMethod {} := by
    show Array.foldl _ _ _ = _
    rw [← Array.foldl_toList, Array.toList_map]
  rw [hreport]
  refine ⟨?_, ?_, fun name => ?_⟩
  · rw [herrors, List.filterMap_map]
    rfl
  · rw [hmodified, List.countP_map]
    exact Nat.zero_add _
  · rw [hcounters, List.map_map]
    exact Nat.zero_add _

/-- A compiled program is a fixed point. -/
theorem program_compile_again (program : Program) (settings : Settings) :
    ((program.compile settings).program.compile settings).program =
      (program.compile settings).program := by
  apply congrArg Program.mk
  show ((program.compile settings).program.compile settings).program.methods =
    (program.compile settings).program.methods
  rw [methods_compile, methods_compile, Array.map_map]
  congr 1
  funext method
  exact (method.compile_again settings).1

/-- Compiling a compiled program changes nothing: the program and the errors are those of
the first time, no method is modified and no phi is new. Likewise for placement alone, on
any method and after any history. -/
theorem compile_compile (program : Program) (settings : Settings) :
    ((program.compile settings).program.compile settings).program =
      (program.compile settings).program ∧
    ((program.compile settings).program.compile settings).report.errors =
      (program.compile settings).report.errors ∧
    ((program.compile settings).program.compile settings).report.modified = 0 ∧
    ((program.compile settings).program.compile settings).report.counters.get
      "PhiPlacement.PhiInstructions" = 0 ∧
    ∀ stats again method,
      (Placement.run again (Pass.runPlace stats method).2.method).map
          (fun out => (out.method, out.inserted)) =
        (Placement.run stats method).map fun out => (out.method, 0) := by
  -- the second report is a sum over the methods as the first time left them
  obtain ⟨herrors, hmodified, hcounters⟩ :=
    report_compile (program.compile settings).program settings
  rw [methods_compile, Array.toList_map] at herrors hmodified hcounters
  refine ⟨program_compile_again program settings, ?_, ?_, ?_, fun stats again method => ?_⟩
  · rw [herrors, List.filterMap_map, (report_compile program settings).1]
    congr 1
    funext method
    exact (Compiled.reported (method.compile_again settings).2.1).1
  · rw [hmodified, List.countP_map, List.countP_eq_zero]
    intro method _
    exact Bool.eq_false_iff.mp (Compiled.reported (method.compile_again settings).2.1).2
  · rw [hcounters, List.map_map, List.sum_eq_zero_iff_forall_eq_nat]
    intro amount hamount
    obtain ⟨method, -, rfl⟩ := List.mem_map.mp hamount
    exact (method.compile_again settings).2.2
  · rw [Placement.method_runPlace]
    exact Placement.run_placed stats again method

end Program

end MinimalSsa
