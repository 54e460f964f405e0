import MinimalSsa.Proofs.Passes

/-!
# The statistics of passes

A pass adds to its statistics with every method it sees, and keeps them when a later pass
rejects the method. So the phis that a sequence reports are those by which its methods
have grown, whichever runs failed on the way, and the instructions are those that the
placements at work found in front of them. Nothing changes without a new phi, so that the
flag of a pass and the count of phis tell the same story.

* `Pass.starts`, `Passes.starts`: the methods that placement went to work on, as they were
  then.
* `Pass.phis_run`, `Pass.scanned_run`: what one pass adds.
* `Passes.phis_run`, `Passes.scanned_run`: a sequence, on one method.
* `Passes.phis_runAll`, `Passes.scanned_runAll`: a sequence, on one method after the other.
* `Passes.grown_run`, `Passes.modified_iff`: a sequence reports a change exactly where
  there are new phis.
-/

namespace MinimalSsa

/-- One method comes from another by nothing or by new phis. -/
def Method.Grown (before after : Method) : Prop :=
  after = before ∨ before.phiCount < after.phiCount

namespace Method.Grown

variable {before between after : Method}

theorem le (h : before.Grown after) : before.phiCount ≤ after.phiCount := by
  rcases h with rfl | hmore
  · exact Nat.le_refl _
  · exact hmore.le

theorem trans (hfirst : before.Grown between) (hsecond : between.Grown after) :
    before.Grown after := by
  rcases hfirst with rfl | hmore
  · exact hsecond
  · exact .inr (hmore.trans_le hsecond.le)

/-- The count of phis shows every change. -/
theorem ne_iff (h : before.Grown after) :
    after ≠ before ↔ before.phiCount < after.phiCount := by
  constructor
  · exact h.resolve_left
  · rintro hmore rfl
    exact Nat.lt_irrefl _ hmore

end Method.Grown

/-! ## Placement -/

namespace Placement

variable {stats : Stats} {method : Method} {out : Outcome}

/-- Placement goes to work on the method: it neither leaves it alone nor rejects it. -/
def worksOn (method : Method) : Bool :=
  !method.heads.isEmpty && !method.hasRegions && (run {} method).isOk

/-- A run that succeeds has gone to work unless it left its method alone. -/
theorem worksOn_of_run (hrun : run stats method = .ok out) :
    worksOn method = (!method.heads.isEmpty && !method.hasRegions) := by
  have hchange := map_change_run stats {} method
  rw [hrun] at hchange
  obtain ⟨first, hfirst, -⟩ := Except.exists_ok_of_map hchange
  rw [worksOn, hfirst]
  exact Bool.and_true _

theorem worksOn_of_error {failure : Failure} (hrun : run stats method = .error failure) :
    worksOn method = false := by
  have hchange := map_change_run stats {} method
  rw [hrun] at hchange
  rw [worksOn]
  cases hfirst : run {} method with
  | error other => exact Bool.and_false _
  | ok first =>
    rw [hfirst] at hchange
    cases hchange

/-- A run scans the instructions of a method it goes to work on. -/
theorem scanned_of_run (hrun : run stats method = .ok out) :
    out.stats.scanned =
      stats.scanned + if worksOn method then method.instructionCount else 0 := by
  rw [worksOn_of_run hrun]
  rcases run_cases hrun with ⟨hskip, event, rfl⟩ | ⟨hheads, hregions, -, -, hplace⟩
  · rcases hskip with hheads | hregions
    · simp [skip, hheads]
    · simp [skip, hregions]
  · rw [(of_place hplace).1]
    simp [hheads, hregions]

/-- A run adds the phis that it counts. -/
theorem phiCount_of_run (hrun : run stats method = .ok out) :
    out.method.phiCount = method.phiCount + out.inserted := by
  rcases run_cases hrun with ⟨-, event, rfl⟩ | ⟨-, -, hconsistent, -, hplace⟩
  · rfl
  · obtain ⟨-, placed, -, hplaced, -, hcount⟩ := place_eq_ok hconsistent stats
    obtain rfl := Except.ok.inj (hplace.symm.trans hplaced)
    exact hcount

/-- A run changes nothing that it does not count. -/
theorem grown_of_run (hrun : run stats method = .ok out) : method.Grown out.method := by
  rcases run_cases hrun with ⟨-, event, rfl⟩ | ⟨-, -, -, -, hplace⟩
  · exact .inl rfl
  · refine (of_place hplace).2.imp_right fun hinserted => ?_
    rw [phiCount_of_run hrun]
    omega

end Placement

/-! ## One pass -/

namespace Pass

variable {ε : Type} [CustomPass ε]

/-- The instructions that a pass reports to have scanned. -/
def scanned (pass : Pass ε) : Nat :=
  Counters.total "PhiPlacement.IRInstructions" pass.report

@[simp] theorem scanned_place (stats : Placement.Stats) :
    (.place stats : Pass ε).scanned = stats.scanned := by
  simp [scanned, report, Placement.Stats.report, Counters.total]

/-- The pass has seen no method yet. -/
def Fresh : Pass ε → Prop
  | .check _ => True
  | .place stats => stats = {}
  | .guarded _ pass => pass.Fresh
  | .custom _ => False

theorem Fresh.report_eq_zero {pass : Pass ε} (h : pass.Fresh) :
    pass.phis = 0 ∧ pass.scanned = 0 := by
  induction pass with
  | check mode => exact ⟨rfl, rfl⟩
  | place stats =>
    obtain rfl : stats = {} := h
    exact ⟨phis_place {}, scanned_place {}⟩
  | guarded condition pass ih => exact ih h
  | custom pass => exact h.elim

/-- The methods that placement goes to work on when the pass runs. -/
def starts : Pass ε → Method → List Method
  | .check _, _ => []
  | .place _, method => if Placement.worksOn method then [method] else []
  | .guarded condition pass, method => if condition method then pass.starts method else []
  | .custom _, _ => []

/-- What a pass adds to its count of phis is what it adds to the method. -/
theorem phis_run (pass : Pass Empty) (method : Method) :
    (pass.run method).1.phis + method.phiCount =
      pass.phis + (pass.run method).2.method.phiCount := by
  induction pass with
  | check mode =>
    rw [method_run_check]
    rfl
  | place stats =>
    show (.place (runPlace stats method).1 : Pass Empty).phis + _ = _ +
      (runPlace stats method).2.method.phiCount
    rw [phis_place, phis_place]
    cases hrun : Placement.run stats method with
    | error failure => rw [runPlace_of_error hrun]
    | ok out =>
      rw [runPlace_of_ok hrun]
      dsimp only
      rw [Placement.inserted_of_run hrun, Placement.phiCount_of_run hrun]
      omega
  | guarded condition pass ih =>
    rw [run]
    split
    · exact ih
    · rfl
  | custom pass => exact pass.elim

/-- Likewise the instructions, which are those of the method as it comes to placement. -/
theorem scanned_run (pass : Pass Empty) (method : Method) :
    (pass.run method).1.scanned =
      pass.scanned + ((pass.starts method).map Method.instructionCount).sum := by
  induction pass with
  | check mode => rfl
  | place stats =>
    show (.place (runPlace stats method).1 : Pass Empty).scanned = _
    rw [scanned_place, scanned_place, starts]
    cases hrun : Placement.run stats method with
    | error failure =>
      rw [runPlace_of_error hrun, Placement.worksOn_of_error hrun]
      rfl
    | ok out =>
      rw [runPlace_of_ok hrun]
      dsimp only
      rw [Placement.scanned_of_run hrun]
      cases Placement.worksOn method with
      | false => rfl
      | true => rfl
  | guarded condition pass ih =>
    rw [run, starts]
    split
    · exact ih
    · rfl
  | custom pass => exact pass.elim

/-- A pass changes nothing without a new phi. -/
theorem grown_run (pass : Pass Empty) (method : Method) :
    method.Grown (pass.run method).2.method := by
  induction pass with
  | check mode => exact .inl (method_run_check mode method)
  | place stats =>
    show method.Grown (runPlace stats method).2.method
    cases hrun : Placement.run stats method with
    | error failure =>
      rw [runPlace_of_error hrun]
      exact .inl rfl
    | ok out =>
      rw [runPlace_of_ok hrun]
      exact Placement.grown_of_run hrun
  | guarded condition pass ih =>
    rw [run]
    split
    · exact ih
    · exact .inl rfl
  | custom pass => exact pass.elim

/-- A pass that succeeds reports a change where there are new phis. -/
theorem modified_iff {pass : Pass Empty} {method : Method} {modified : Bool}
    (hok : (pass.run method).2.outcome = .ok modified) :
    modified = true ↔ method.phiCount < (pass.run method).2.method.phiCount := by
  induction pass with
  | check mode =>
    rw [method_run_check, (outcome_run_check_eq_ok_iff.mp hok).2]
    simp
  | place stats =>
    obtain ⟨out, hrun, rfl⟩ := outcome_run_place_eq_ok_iff.mp hok
    rw [method_run_place, Placement.placed_of_run hrun, Placement.phiCount_of_run hrun,
      decide_eq_true_iff]
    omega
  | guarded condition pass ih =>
    rw [run] at hok ⊢
    split at hok
    · next hcondition =>
      rw [if_pos hcondition]
      exact ih hok
    · next hcondition =>
      rw [if_neg hcondition, ← Except.ok.inj hok]
      simp
  | custom pass => exact pass.elim

end Pass

namespace Passes

variable {ε : Type} [CustomPass ε]

/-! ## A sequence on one method -/

/-- The methods that placement goes to work on when the sequence runs: none comes after a
pass that fails. -/
def starts : Passes ε → Method → List Method
  | [], _ => []
  | pass :: rest, method =>
    pass.starts method ++
      match (pass.run method).2.outcome with
      | .ok _ => starts rest (pass.run method).2.method
      | .error _ => []

/-- What a sequence adds to the counts of its passes is what it adds to the method, also
if it fails. -/
theorem phis_run (passes : Passes Empty) (method : Method) :
    ((passes.run method).1.map Pass.phis).sum + method.phiCount =
      (passes.map Pass.phis).sum + (passes.run method).2.method.phiCount := by
  induction passes generalizing method with
  | nil => rfl
  | cons pass rest ih =>
    have hpass := pass.phis_run method
    cases hdone : (pass.run method).2.outcome with
    | error cause =>
      obtain ⟨hpasses, hmethod, -⟩ := run_cons_of_error rest hdone
      rw [hpasses, hmethod, List.map_cons, List.map_cons, List.sum_cons, List.sum_cons]
      omega
    | ok modified =>
      obtain ⟨hpasses, hmethod, -⟩ := run_cons_of_ok rest hdone
      have hrest := ih (pass.run method).2.method
      rw [hpasses, hmethod, List.map_cons, List.map_cons, List.sum_cons, List.sum_cons]
      omega

theorem scanned_run (passes : Passes Empty) (method : Method) :
    ((passes.run method).1.map Pass.scanned).sum =
      (passes.map Pass.scanned).sum +
        ((passes.starts method).map Method.instructionCount).sum := by
  induction passes generalizing method with
  | nil => rfl
  | cons pass rest ih =>
    have hpass := pass.scanned_run method
    rw [starts, List.map_append, List.sum_append, List.map_cons, List.sum_cons]
    cases hdone : (pass.run method).2.outcome with
    | error cause =>
      rw [(run_cons_of_error rest hdone).1, List.map_cons, List.sum_cons, List.map_nil,
        List.sum_nil]
      omega
    | ok modified =>
      have hrest := ih (pass.run method).2.method
      rw [(run_cons_of_ok rest hdone).1, List.map_cons, List.sum_cons]
      dsimp only
      omega

/-- A sequence changes nothing without a new phi, also if it fails. -/
theorem grown_run (passes : Passes Empty) (method : Method) :
    method.Grown (passes.run method).2.method := by
  induction passes generalizing method with
  | nil => exact .inl rfl
  | cons pass rest ih =>
    have hpass := pass.grown_run method
    cases hdone : (pass.run method).2.outcome with
    | error cause =>
      rw [(run_cons_of_error rest hdone).2.1]
      exact hpass
    | ok modified =>
      rw [(run_cons_of_ok rest hdone).2.1]
      exact hpass.trans (ih _)

/-- A sequence that succeeds reports a change where there are new phis. -/
theorem modified_iff {passes : Passes Empty} {method : Method} {modified : Bool}
    (hok : (passes.run method).2.outcome = .ok modified) :
    modified = true ↔ method.phiCount < (passes.run method).2.method.phiCount := by
  induction passes generalizing method modified with
  | nil =>
    rw [← Except.ok.inj hok]
    simp [run]
  | cons pass rest ih =>
    cases hdone : (pass.run method).2.outcome with
    | error cause =>
      rw [(run_cons_of_error rest hdone).2.2] at hok
      cases hok
    | ok first =>
      obtain ⟨-, hmethod, houtcome⟩ := run_cons_of_ok rest hdone
      rw [houtcome] at hok
      obtain ⟨others, hothers, rfl⟩ := Except.exists_ok_of_map hok
      -- no pass takes phis away, so one new phi anywhere shows at the end
      have hgrown := (grown_run rest (pass.run method).2.method).le
      have hfirst := (pass.grown_run method).le
      rw [hmethod, Bool.or_eq_true, Pass.modified_iff hdone, ih hothers]
      omega

/-! ## A sequence on several methods -/

/-- Run a sequence on one method after the other, also after failures. -/
def runAll : Passes ε → List Method → Passes ε × List SequenceRun
  | passes, [] => (passes, [])
  | passes, method :: methods =>
    let (after, done) := passes.run method
    let (last, others) := runAll after methods
    (last, done :: others)

/-- The methods that placement goes to work on in all these runs. -/
def startsAll : Passes ε → List Method → List Method
  | _, [] => []
  | passes, method :: methods =>
    passes.starts method ++ startsAll (passes.run method).1 methods

/-- The phis that are reported are those by which the methods have grown. -/
theorem phis_runAll (passes : Passes Empty) (methods : List Method) :
    ((passes.runAll methods).1.map Pass.phis).sum + (methods.map Method.phiCount).sum =
      (passes.map Pass.phis).sum +
        ((passes.runAll methods).2.map (·.method.phiCount)).sum := by
  induction methods generalizing passes with
  | nil => rfl
  | cons method methods ih =>
    have hfirst := passes.phis_run method
    have hrest := ih (passes.run method).1
    simp only [runAll, List.map_cons, List.sum_cons]
    omega

theorem scanned_runAll (passes : Passes Empty) (methods : List Method) :
    ((passes.runAll methods).1.map Pass.scanned).sum =
      (passes.map Pass.scanned).sum +
        ((passes.startsAll methods).map Method.instructionCount).sum := by
  induction methods generalizing passes with
  | nil => rfl
  | cons method methods ih =>
    have hfirst := passes.scanned_run method
    have hrest := ih (passes.run method).1
    simp only [runAll, startsAll, List.map_append, List.sum_append]
    omega

/-! ## The counters -/

theorem get_phis (passes : Passes ε) :
    passes.counters.get "PhiPlacement.PhiInstructions" = (passes.map Pass.phis).sum :=
  get_counters passes _

theorem get_scanned (passes : Passes ε) :
    passes.counters.get "PhiPlacement.IRInstructions" = (passes.map Pass.scanned).sum :=
  get_counters passes _

/-- A sequence that has seen no method reports nothing. -/
theorem sum_eq_zero_of_fresh {passes : Passes ε} (h : ∀ pass ∈ passes, pass.Fresh) :
    (passes.map Pass.phis).sum = 0 ∧ (passes.map Pass.scanned).sum = 0 := by
  simp only [List.sum_eq_zero_iff_forall_eq_nat, List.forall_mem_map]
  exact ⟨fun pass hpass => (h pass hpass).report_eq_zero.1,
    fun pass hpass => (h pass hpass).report_eq_zero.2⟩

end Passes

end MinimalSsa
