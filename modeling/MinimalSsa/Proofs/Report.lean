import Mathlib.Algebra.BigOperators.Group.List.Basic
import MinimalSsa.Proofs.Compilation

/-!
# What a report says

A report counts new phis, scanned instructions and modified methods. The first two come
from the statistics of the passes, which are kept for methods that fail, so they are right
for the whole program. The third counts outcomes: a method that placement has changed and
a later check rejects is changed all the same, and no count shows it.

The methods may be compiled in any order. Each leaves its outcome in a slot of its own, and
the report reads the slots from first to last.

* `Method.phis_compile`, `Method.scanned_compile`: the counters of one method.
* `Program.compileInOrder_eq`: no order makes a difference.
* `Program.counters_balance`: the counters of sequences and of programs.
* `Program.modified_compile`: the modified methods of a report against those that changed.
-/

namespace MinimalSsa

/-! ## One method -/

namespace Method

variable (method : Method) (settings : Settings)

/-- The phis that are reported for a method are those it has got, also if it fails. -/
theorem phis_compile :
    (method.compile settings).counters.get "PhiPlacement.PhiInstructions" + method.phiCount =
      (method.compile settings).method.phiCount := by
  have hfresh : (settings.passes.map Pass.phis).sum = 0 :=
    (Passes.sum_eq_zero_of_fresh fun pass hpass => (Settings.of_mem_passes hpass).2).1
  show (settings.passes.run method).1.counters.get _ + _ =
    (settings.passes.run method).2.method.phiCount
  rw [Passes.get_phis, Passes.phis_run, hfresh, Nat.zero_add]

/-- The instructions are those that placement found, if it went to work. -/
theorem scanned_compile :
    (method.compile settings).counters.get "PhiPlacement.IRInstructions" =
      ((settings.passes.starts method).map instructionCount).sum := by
  have hfresh : (settings.passes.map Pass.scanned).sum = 0 :=
    (Passes.sum_eq_zero_of_fresh fun pass hpass => (Settings.of_mem_passes hpass).2).2
  show (settings.passes.run method).1.counters.get _ = _
  rw [Passes.get_scanned, Passes.scanned_run, hfresh, Nat.zero_add]

/-- Together they are those of all the methods. -/
theorem sum_phis_compile (methods : List Method) (settings : Settings) :
    (methods.map fun method =>
          (method.compile settings).counters.get "PhiPlacement.PhiInstructions").sum +
        (methods.map phiCount).sum =
      (methods.map fun method => (method.compile settings).method.phiCount).sum := by
  rw [← List.sum_map_add]
  simp only [phis_compile]

/-- A method counts as modified if it compiled and is not what it was. -/
theorem isModified_compile_iff :
    (method.compile settings).isModified = true ↔
      (method.compile settings).error? = none ∧ (method.compile settings).method ≠ method := by
  have hgrown : method.Grown (method.compile settings).method :=
    settings.passes.grown_run method
  unfold Compiled.isModified Compiled.error?
  cases houtcome : (method.compile settings).outcome with
  | error error => simp
  | ok modified =>
    have hmodified : modified = true ↔
        method.phiCount < (method.compile settings).method.phiCount :=
      Passes.modified_iff houtcome
    rw [hgrown.ne_iff, ← hmodified]
    simp

end Method

/-! ## Any order -/

/-- A method on its way: it waits for its turn, or has been compiled. -/
inductive Slot where
  | waiting (method : Method)
  | done (compiled : Compiled)

namespace Slot

def compile (settings : Settings) : Slot → Slot
  | .waiting method => .done (method.compile settings)
  | .done compiled => .done compiled

/-- The method as it is now. -/
def method : Slot → Method
  | .waiting method => method
  | .done compiled => compiled.method

def compiled? : Slot → Option Compiled
  | .waiting _ => none
  | .done compiled => some compiled

theorem compile_idem (settings : Settings) (slot : Slot) :
    (slot.compile settings).compile settings = slot.compile settings := by
  cases slot with
  | waiting method => rfl
  | done compiled => rfl

/-- Give the methods at the positions of a schedule their turns. -/
def compileAll (settings : Settings) (slots : Array Slot) (schedule : List MethodId) :
    Array Slot :=
  schedule.foldl (fun slots id => slots.modify id (compile settings)) slots

/-- A turn concerns its own slot only, so each method with a turn is compiled from what it
was to begin with. -/
theorem getElem?_compileAll (settings : Settings) (slots : Array Slot)
    (schedule : List MethodId) (id : MethodId) :
    (compileAll settings slots schedule)[id]? =
      if id ∈ schedule then slots[id]?.map (compile settings) else slots[id]? := by
  induction schedule generalizing slots with
  | nil => rfl
  | cons first schedule ih =>
    show (compileAll settings (slots.modify first (compile settings)) schedule)[id]? = _
    rw [ih, Array.getElem?_modify]
    by_cases hfirst : first = id
    · subst hfirst
      simp only [if_true, List.mem_cons_self, Option.map_map]
      -- a later turn finds the method compiled
      have htwice : compile settings ∘ compile settings = compile settings :=
        funext (compile_idem settings)
      rw [htwice, ite_self]
    · have hne : id ≠ first := Ne.symm hfirst
      simp only [if_neg hfirst, List.mem_cons, hne, false_or]

end Slot

namespace Program

/-- Compile the methods of a program in the order of a schedule. -/
def compileInOrder (program : Program) (settings : Settings) (schedule : List MethodId) :
    Program × Report :=
  let slots := Slot.compileAll settings (program.methods.map .waiting) schedule
  ({ methods := slots.map Slot.method },
    (slots.toList.filterMap Slot.compiled?).foldl Report.addMethod {})

/-- Whatever the order, all methods come to what they come to from first to last. -/
theorem compileInOrder_eq (program : Program) (settings : Settings)
    {schedule : List MethodId} (hschedule : schedule.Perm (List.range program.size)) :
    program.compileInOrder settings schedule =
      ((program.compile settings).program, (program.compile settings).report) := by
  have hslots : Slot.compileAll settings (program.methods.map .waiting) schedule =
      (program.methods.map (·.compile settings)).map .done := by
    apply Array.ext_getElem?
    intro id
    rw [Slot.getElem?_compileAll, Array.getElem?_map, Array.getElem?_map, Array.getElem?_map]
    cases hmethod : program.methods[id]? with
    | none => simp
    | some method =>
      have hturn : id ∈ schedule := by
        rw [hschedule.mem_iff, List.mem_range]
        exact (Array.getElem?_eq_some_iff.mp hmethod).1
      rw [if_pos hturn]
      rfl
  have hcompiled : ((program.methods.map (·.compile settings)).map Slot.done).toList.filterMap
      Slot.compiled? = (program.methods.map (·.compile settings)).toList := by
    rw [Array.toList_map, List.filterMap_map]
    exact List.filterMap_some
  rw [compileInOrder, hslots, hcompiled, Array.map_map, Array.foldl_toList]
  rfl

/-! ## Counters -/

/-- Counters account for every phi and every scanned instruction. Whichever runs fail, a
sequence of checks and placements, with or without conditions, reports the phis by which
its methods have grown and the instructions in front of each placement that went to work,
beyond what it reported before, which is nothing if its passes are fresh. The report of a
program has the same sums over its methods, and lists errors in the order of the methods,
in whichever order they were compiled. -/
theorem counters_balance :
    (∀ (passes : Passes Empty) (methods : List Method),
      (passes.runAll methods).1.counters.get "PhiPlacement.PhiInstructions" +
          (methods.map Method.phiCount).sum =
        passes.counters.get "PhiPlacement.PhiInstructions" +
          ((passes.runAll methods).2.map (·.method.phiCount)).sum ∧
      (passes.runAll methods).1.counters.get "PhiPlacement.IRInstructions" =
        passes.counters.get "PhiPlacement.IRInstructions" +
          ((passes.startsAll methods).map Method.instructionCount).sum ∧
      ((∀ pass ∈ passes, pass.Fresh) →
        passes.counters.get "PhiPlacement.PhiInstructions" = 0 ∧
        passes.counters.get "PhiPlacement.IRInstructions" = 0)) ∧
    ∀ (program : Program) (settings : Settings) (schedule : List MethodId),
      schedule.Perm (List.range program.size) →
      program.compileInOrder settings schedule =
        ((program.compile settings).program, (program.compile settings).report) ∧
      (program.compileInOrder settings schedule).2.counters.get
            "PhiPlacement.PhiInstructions" +
          (program.methods.toList.map Method.phiCount).sum =
        ((program.compileInOrder settings schedule).1.methods.toList.map Method.phiCount).sum ∧
      (program.compileInOrder settings schedule).2.counters.get "PhiPlacement.IRInstructions" =
        ((program.methods.toList.flatMap settings.passes.starts).map
          Method.instructionCount).sum ∧
      (program.compileInOrder settings schedule).2.errors =
        program.methods.toList.filterMap fun method => (method.compile settings).error? := by
  refine ⟨fun passes methods => ?_, fun program settings schedule hschedule => ?_⟩
  · simp only [Passes.get_phis, Passes.get_scanned]
    exact ⟨passes.phis_runAll methods, passes.scanned_runAll methods,
      Passes.sum_eq_zero_of_fresh⟩
  · obtain ⟨herrors, -, hcounters⟩ := report_compile program settings
    rw [compileInOrder_eq program settings hschedule]
    refine ⟨rfl, ?_, ?_, herrors⟩
    · rw [hcounters, methods_compile, Array.toList_map, List.map_map]
      exact Method.sum_phis_compile program.methods.toList settings
    · rw [hcounters, List.map_flatMap, List.flatMap_def, List.sum_flatten, List.map_map]
      simp only [Method.scanned_compile]
      rfl

/-- A method that placement changes and the strict check rejects afterwards: block 3 merges
register 1 already, with its sources out of order, and needs a phi for register 0. -/
def lateRejection : Method :=
  { name := "late"
    blocks := #[
      { terminator := .branch (.boolean true) 1 2 },
      { instructions := [.assign 0 0], terminator := .jump 3, preds := [0] },
      { instructions := [.assign 0 1], terminator := .jump 3, preds := [0] },
      { instructions := [.phiFor 1 [2, 1]], terminator := .ret none, preds := [1, 2] }]
    heads := [0] }

/-- Placement where no region is guarded, and a check of the result. -/
def cautiousPlacement : Passes Empty :=
  [.guarded (fun method => !method.hasRegions) (.place {}), .check .strict]

/-- A method that fails late, and one without code. -/
def lateAndEmpty : Program :=
  { methods := #[lateRejection, .withEntry "empty"] }

/-- Two runs that fail in their second pass, and a program compiled from last to first. -/
theorem counters_balance_lateRejection :
    (∀ pass ∈ cautiousPlacement, pass.Fresh) ∧
    (cautiousPlacement.runAll [lateRejection, lateRejection]).1.counters.get
      "PhiPlacement.PhiInstructions" = 2 ∧
    (cautiousPlacement.runAll [lateRejection, lateRejection]).1.counters.get
      "PhiPlacement.IRInstructions" = 6 ∧
    [1, 0].Perm (List.range lateAndEmpty.size) ∧
    (lateAndEmpty.compileInOrder {} [1, 0]).2.counters.get
      "PhiPlacement.PhiInstructions" = 1 ∧
    (lateAndEmpty.compileInOrder {} [1, 0]).2.counters.get
      "PhiPlacement.IRInstructions" = 3 := by
  have hfresh : ∀ pass ∈ cautiousPlacement, pass.Fresh := by
    simp [cautiousPlacement, Pass.Fresh]
  have hschedule : [1, 0].Perm (List.range lateAndEmpty.size) := by decide
  obtain ⟨hphis, hscanned, hzero⟩ :=
    counters_balance.1 cautiousPlacement [lateRejection, lateRejection]
  obtain ⟨-, hphis', hscanned', -⟩ := counters_balance.2 lateAndEmpty {} [1, 0] hschedule
  rw [(hzero hfresh).1] at hphis
  rw [(hzero hfresh).2] at hscanned
  have hruns : ((cautiousPlacement.runAll [lateRejection, lateRejection]).2.map
      (·.method.phiCount)).sum = 4 := by decide +kernel
  have hprogram : ((lateAndEmpty.compileInOrder {} [1, 0]).1.methods.toList.map
      Method.phiCount).sum = 2 := by decide +kernel
  have hbefore : ([lateRejection, lateRejection].map Method.phiCount).sum = 2 := by decide +kernel
  have hbefore' : (lateAndEmpty.methods.toList.map Method.phiCount).sum = 1 := by decide +kernel
  refine ⟨hfresh, by omega, ?_, hschedule, by omega, ?_⟩
  · rw [hscanned]
    decide +kernel
  · rw [hscanned']
    decide +kernel

/-! ## Modified methods -/

/-- The number of positions at which two programs differ. -/
def changes (before after : Program) : Nat :=
  (before.methods.toList.zip after.methods.toList).countP fun (old, new) => new ≠ old

theorem changes_compile (program : Program) (settings : Settings) :
    program.changes (program.compile settings).program =
      program.methods.toList.countP fun method => (method.compile settings).method ≠ method := by
  rw [changes, methods_compile, Array.toList_map, ← List.map_prod_left_eq_zip,
    List.countP_map]
  rfl

/-- The report counts the methods that changed and compiled. -/
theorem modified_eq_countP (program : Program) (settings : Settings) :
    (program.compile settings).report.modified =
      program.methods.toList.countP fun method =>
        (method.compile settings).error?.isNone ∧
          (method.compile settings).method ≠ method := by
  rw [(report_compile program settings).2.1]
  apply List.countP_congr
  intro method _
  rw [method.isModified_compile_iff settings, decide_eq_true_iff, Option.isNone_iff_eq_none]

/-- A method that changed has compiled, and is counted, or was rejected. -/
theorem changes_eq_modified_add (program : Program) (settings : Settings) :
    program.changes (program.compile settings).program =
      (program.compile settings).report.modified +
        program.methods.toList.countP fun method =>
          (method.compile settings).error?.isSome ∧
            (method.compile settings).method ≠ method := by
  rw [changes_compile, modified_eq_countP, List.countP_eq_countP_filter_add _ _
    (fun method => (method.compile settings).error?.isNone), List.countP_filter,
    List.countP_filter]
  congr 2
  · funext method
    rw [Bool.decide_and, Bool.decide_eq_true, Bool.and_comm]
  · funext method
    rw [Bool.decide_and, Bool.decide_eq_true, Bool.and_comm, Option.not_isNone]

/-- The report counts the methods that changed and compiled. Those that changed and were
rejected are missing, so that it counts all that changed exactly if every rejected method
is what it was. -/
theorem modified_compile (program : Program) (settings : Settings) :
    (program.compile settings).report.modified =
      (program.methods.toList.countP fun method =>
        (method.compile settings).error?.isNone ∧ (method.compile settings).method ≠ method) ∧
    program.changes (program.compile settings).program =
      (program.compile settings).report.modified +
        (program.methods.toList.countP fun method =>
          (method.compile settings).error?.isSome ∧
            (method.compile settings).method ≠ method) ∧
    ((program.compile settings).report.modified =
        program.changes (program.compile settings).program ↔
      ∀ method ∈ program.methods, (method.compile settings).error?.isSome →
        (method.compile settings).method = method) := by
  refine ⟨modified_eq_countP program settings, changes_eq_modified_add program settings, ?_⟩
  rw [changes_eq_modified_add, left_eq_add, List.countP_eq_zero]
  simp only [decide_eq_true_iff, not_and, not_not, Array.mem_toList_iff]

/-- Here the program changes and the report does not say so. -/
theorem modified_lateRejection :
    (({ methods := #[lateRejection] } : Program).compile {}).report.modified = 0 ∧
    ({ methods := #[lateRejection] } : Program).changes
      (({ methods := #[lateRejection] } : Program).compile {}).program = 1 := by
  constructor
  · decide +kernel
  · decide +kernel

end Program

end MinimalSsa
