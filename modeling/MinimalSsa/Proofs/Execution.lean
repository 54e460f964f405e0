import MinimalSsa.Proofs.Report
import MinimalSsa.Proofs.Totality

/-!
# What the answer of a sequence says

A sequence answers for all of its passes at once. If it succeeds, each of them has, on the
method as those before it left it, and the flag says whether the method is another one in
the end. If it fails, the error belongs to one pass, and neither that pass nor any after it
has left a trace. The rules by which single passes succeed and fail are stated apart from
the functions that run them.

* `Pass.Succeeds`, `Pass.Fails`: the rules for one pass. A condition is asked of the method
  that the pass is given.
* `Passes.Completes`, `Passes.StopsAt`: a sequence of successes, and one that a failure
  ends.
* `Pass.succeeds_of_run`, `Pass.fails_of_run`: a pass keeps to the rules.
* `Passes.completes_of_run`, `Passes.exists_stopsAt_of_run`: so does a sequence.
* `Passes.run_truthful`: what the answer of a sequence says.
-/

namespace MinimalSsa

/-! ## One pass -/

namespace Pass

/-- `pass.Succeeds method after result`: given `method`, the pass succeeds, becomes `after`
and leaves `result` behind. -/
inductive Succeeds : Pass Empty → Method → Pass Empty → Method → Prop where
  | check {mode : Check} {method : Method} :
      mode.run method = .ok () → Succeeds (.check mode) method (.check mode) method
  | place {stats : Placement.Stats} {method : Method} {out : Placement.Outcome} :
      Placement.run stats method = .ok out →
      Succeeds (.place stats) method (.place out.stats) out.method
  | applied {condition : Method → Bool} {pass after : Pass Empty} {method result : Method} :
      condition method = true → Succeeds pass method after result →
      Succeeds (.guarded condition pass) method (.guarded condition after) result
  | passedOver {condition : Method → Bool} {pass : Pass Empty} {method : Method} :
      condition method = false →
      Succeeds (.guarded condition pass) method (.guarded condition pass) method

/-- `pass.Fails method violation`: given `method`, the pass fails with `violation`. -/
inductive Fails : Pass Empty → Method → Violation → Prop where
  | check {mode : Check} {method : Method} {violation : Violation} :
      mode.run method = .error violation → Fails (.check mode) method violation
  | place {stats : Placement.Stats} {method : Method} {violation : Violation} :
      Placement.run stats method = .error (.violation violation) →
      Fails (.place stats) method violation
  | applied {condition : Method → Bool} {pass : Pass Empty} {method : Method}
      {violation : Violation} :
      condition method = true → Fails pass method violation →
      Fails (.guarded condition pass) method violation

variable {pass : Pass Empty} {method : Method}

/-- A pass that answers with a success has succeeded by the rules. -/
theorem succeeds_of_run {modified : Bool}
    (hok : (pass.run method).2.outcome = .ok modified) :
    pass.Succeeds method (pass.run method).1 (pass.run method).2.method := by
  induction pass with
  | check mode =>
    rw [method_run_check]
    exact .check (outcome_run_check_eq_ok_iff.mp hok).1
  | place stats =>
    obtain ⟨out, hrun, -⟩ := outcome_run_place_eq_ok_iff.mp hok
    simp only [run, runPlace_of_ok hrun]
    exact .place hrun
  | guarded condition pass ih =>
    rw [run] at hok ⊢
    split at hok
    · next hcondition =>
      rw [if_pos hcondition]
      exact .applied hcondition (ih hok)
    · next hcondition =>
      rw [if_neg hcondition]
      exact .passedOver (Bool.eq_false_iff.mpr hcondition)
  | custom pass => exact pass.elim

/-- A pass that answers with a failure has failed by the rules, with a violation of the
method. It changes neither the method nor itself. -/
theorem fails_of_run {cause : Failure} (herror : (pass.run method).2.outcome = .error cause) :
    ∃ violation, cause = .violation violation ∧ pass.Fails method violation ∧
      (pass.run method).1 = pass ∧ (pass.run method).2.method = method := by
  induction pass with
  | check mode =>
    simp only [run, runCheck] at herror
    cases hrun : mode.run method with
    | ok passed =>
      rw [hrun] at herror
      cases herror
    | error violation =>
      rw [hrun] at herror
      exact ⟨violation, (Except.error.inj herror).symm, .check hrun, rfl,
        method_run_check mode method⟩
  | place stats =>
    simp only [run] at herror ⊢
    cases hrun : Placement.run stats method with
    | ok out =>
      rw [runPlace_of_ok hrun] at herror
      cases herror
    | error failure =>
      rw [runPlace_of_error hrun] at herror ⊢
      obtain rfl : failure = cause := Except.error.inj herror
      obtain ⟨-, -, violation, rfl, -⟩ := Placement.run_eq_error_iff.mp hrun
      exact ⟨violation, rfl, .place hrun, rfl, rfl⟩
  | guarded condition pass ih =>
    rw [run] at herror ⊢
    split at herror
    · next hcondition =>
      obtain ⟨violation, hcause, hfails, hpass, hmethod⟩ := ih herror
      rw [if_pos hcondition]
      exact ⟨violation, hcause, .applied hcondition hfails, congrArg _ hpass, hmethod⟩
    · cases herror
  | custom pass => exact pass.elim

/-- A pass keeps the name of a method. -/
theorem name_run (pass : Pass Empty) (method : Method) :
    (pass.run method).2.method.name = method.name := by
  induction pass with
  | check mode => rw [method_run_check]
  | place stats =>
    obtain ⟨sites, hplaced⟩ := Placement.exists_sites_placed method
    rw [method_run_place, hplaced]
  | guarded condition pass ih =>
    rw [run]
    split
    · exact ih
    · rfl
  | custom pass => exact pass.elim

end Pass

/-! ## Sequences -/

namespace Passes

/-- `passes.Completes method after result`: the passes succeed one after the other, each on
the method as those before it left it. They become `after` and leave `result` behind. -/
inductive Completes : Passes Empty → Method → Passes Empty → Method → Prop where
  | nil (method : Method) : Completes [] method [] method
  | cons {pass after : Pass Empty} {rest others : Passes Empty}
      {method between result : Method} :
      pass.Succeeds method after between → Completes rest between others result →
      Completes (pass :: rest) method (after :: others) result

variable {passes : Passes Empty} {method : Method}

/-- A sequence that answers with a success has completed. -/
theorem completes_of_run {modified : Bool}
    (hok : (passes.run method).2.outcome = .ok modified) :
    passes.Completes method (passes.run method).1 (passes.run method).2.method := by
  induction passes generalizing method modified with
  | nil => exact .nil method
  | cons pass rest ih =>
    cases hdone : (pass.run method).2.outcome with
    | error cause =>
      rw [(run_cons_of_error rest hdone).2.2] at hok
      cases hok
    | ok first =>
      obtain ⟨hpasses, hmethod, houtcome⟩ := run_cons_of_ok rest hdone
      rw [houtcome] at hok
      obtain ⟨others, hothers, -⟩ := Except.exists_ok_of_map hok
      rw [hpasses, hmethod]
      exact .cons (Pass.succeeds_of_run hdone) (ih hothers)

/-- The passes `before` complete, and `pass` fails with `violation` after them. It leaves the
method, its own statistics and the passes `later` as they were. -/
structure StopsAt (passes : Passes Empty) (method : Method) (before : Passes Empty)
    (pass : Pass Empty) (later : Passes Empty) (violation : Violation) : Prop where
  split : passes = before ++ pass :: later
  succeeded : ∃ modified, (before.run method).2.outcome = .ok modified
  completes : before.Completes method (before.run method).1 (before.run method).2.method
  fails : pass.Fails (before.run method).2.method violation
  method_eq : (passes.run method).2.method = (before.run method).2.method
  passes_eq : (passes.run method).1 = (before.run method).1 ++ pass :: later

/-- A pass that fails stops the sequence with nothing done before it. -/
theorem stopsAt_head {pass : Pass Empty} (rest : Passes Empty) {cause : Failure}
    (herror : (pass.run method).2.outcome = .error cause) :
    ∃ violation, cause = .violation violation ∧
      StopsAt (pass :: rest) method [] pass rest violation := by
  obtain ⟨violation, hcause, hfails, hpass, hsame⟩ := Pass.fails_of_run herror
  obtain ⟨hpasses, hmethod, -⟩ := run_cons_of_error rest herror
  refine ⟨violation, hcause, rfl, ⟨false, rfl⟩, .nil method, hfails, ?_, ?_⟩
  · rw [hmethod, hsame]
    rfl
  · rw [hpasses, hpass]
    rfl

/-- A pass that succeeds joins those before the one that stops the sequence. -/
theorem StopsAt.cons {pass failing : Pass Empty} {rest before later : Passes Empty}
    {violation : Violation} {modified : Bool}
    (hok : (pass.run method).2.outcome = .ok modified)
    (h : rest.StopsAt (pass.run method).2.method before failing later violation) :
    StopsAt (pass :: rest) method (pass :: before) failing later violation := by
  obtain ⟨hpasses, hmethod, -⟩ := run_cons_of_ok rest hok
  obtain ⟨hfront, hbetween, -⟩ := run_cons_of_ok before hok
  constructor
  case split => rw [h.split, List.cons_append]
  case succeeded => exact exists_run_cons_eq_ok_iff.mpr ⟨⟨modified, hok⟩, h.succeeded⟩
  case completes =>
    rw [hfront, hbetween]
    exact .cons (Pass.succeeds_of_run hok) h.completes
  case fails =>
    rw [hbetween]
    exact h.fails
  case method_eq => rw [hmethod, hbetween, h.method_eq]
  case passes_eq => rw [hpasses, hfront, h.passes_eq, List.cons_append]

/-- A sequence that answers with a failure has stopped at one of its passes, and the error
names it. -/
theorem exists_stopsAt_of_run {error : CompileError}
    (herror : (passes.run method).2.outcome = .error error) :
    ∃ before pass later violation, passes.StopsAt method before pass later violation ∧
      error = { method := method.name, pass := pass.name, cause := .violation violation } := by
  induction passes generalizing method with
  | nil => cases herror
  | cons pass rest ih =>
    cases hdone : (pass.run method).2.outcome with
    | error cause =>
      obtain ⟨violation, rfl, hstops⟩ := stopsAt_head rest hdone
      rw [(run_cons_of_error rest hdone).2.2, Pass.name_run] at herror
      exact ⟨[], pass, rest, violation, hstops, (Except.error.inj herror).symm⟩
    | ok first =>
      rw [(run_cons_of_ok rest hdone).2.2] at herror
      obtain ⟨before, failing, later, violation, hstops, herror⟩ :=
        ih (Except.error_of_map herror)
      rw [Pass.name_run] at herror
      exact ⟨pass :: before, failing, later, violation, hstops.cons hdone, herror⟩

/-! ## The answer -/

/-- A success means that every pass succeeded in its turn, and its flag is whether the method
is another one now. An error names the method, and the first pass that fails with what it
found; the sequence stands as the passes before that one leave it. -/
theorem run_truthful (passes : Passes Empty) (method : Method) :
    (∀ modified, (passes.run method).2.outcome = .ok modified →
      passes.Completes method (passes.run method).1 (passes.run method).2.method ∧
        (modified = true ↔ (passes.run method).2.method ≠ method)) ∧
    ∀ error, (passes.run method).2.outcome = .error error →
      ∃ before pass later violation, passes.StopsAt method before pass later violation ∧
        error = { method := method.name, pass := pass.name, cause := .violation violation } := by
  refine ⟨fun modified hok => ⟨completes_of_run hok, ?_⟩, fun error => exists_stopsAt_of_run⟩
  rw [modified_iff hok, (grown_run passes method).ne_iff]

/-- Placement twice, each time only where there is exactly one phi, then a check and placement
once more. -/
def wary : Passes Empty :=
  [.guarded (·.phiCount == 1) (.place {}), .guarded (·.phiCount == 1) (.place {}),
    .check .strict, .place {}]

/-- What the check finds in `Program.lateRejection`, before and after placement. -/
def misorder : Violation := .malformedPhi 3 1 (.slotOrder [2, 1] [1, 2])

/-- The first placement adds the phi that keeps the second from running, and the check fails
on the result. -/
theorem run_truthful_wary :
    (run (wary.take 2) Program.lateRejection).2.outcome = .ok true ∧
    (run (wary.take 2) Program.lateRejection).2.method ≠ Program.lateRejection ∧
    (run wary Program.lateRejection).2.outcome = .error
      { method := "late", pass := "Validation", cause := .violation misorder } ∧
    ∃ before pass later, wary.StopsAt Program.lateRejection before pass later misorder ∧
      pass.name = "Validation" := by
  have hok : (run (wary.take 2) Program.lateRejection).2.outcome = .ok true := by decide +kernel
  have herror : (run wary Program.lateRejection).2.outcome = .error
      { method := "late", pass := "Validation", cause := .violation misorder } := by decide +kernel
  refine ⟨hok, ((run_truthful _ _).1 true hok).2.mp rfl, herror, ?_⟩
  obtain ⟨before, pass, later, violation, hstops, hsame⟩ := (run_truthful _ _).2 _ herror
  simp only [CompileError.mk.injEq, Failure.violation.injEq] at hsame
  obtain ⟨-, hname, rfl⟩ := hsame
  exact ⟨before, pass, later, hstops, hname.symm⟩

end Passes

end MinimalSsa
