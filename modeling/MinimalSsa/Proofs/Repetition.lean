import MinimalSsa.Pass
import MinimalSsa.Proofs.Check

/-!
# Placement twice

The phis of a run are definitions for the next one, which could ask for further phis.
It does not: the sites of a register already answer every head for the definitions they
make. So placement is done after one run, and whether a run succeeds, fails or leaves the
method alone, the next one does the same.

* `Graph.IsSites.subset_of_union`: the sites of a register with its merges are among its
  sites.
* `Placement.run_again`: a run after a run inserts nothing.
* `Method.placed`: the method that placement leaves behind in any case.
* `Placement.run_placed`: placement of `Method.placed` is that of the method, without an
  insertion.
* `Check.run_placed_iff`: checks do not see placement.
-/

namespace MinimalSsa

/-- What the sites make is no reason for more sites. -/
theorem Graph.IsSites.subset_of_union {graph : Graph} {heads : List BlockId}
    {blocks sites others : Set BlockId} (hsites : graph.IsSites heads blocks sites)
    (hothers : graph.IsSites heads (blocks ∪ sites) others) : others ⊆ sites := by
  rcases blocks.subsingleton_or_nontrivial with hsingle | hmany
  · rw [hsites.single hsingle, Set.union_empty] at hothers
    rw [hothers.single hsingle]
    exact Set.empty_subset sites
  · -- the old sites answer the heads for the new definitions too
    apply (hothers.least (hmany.mono Set.subset_union_left)).2
    intro head hhead y hask
    rw [Set.union_assoc, Set.union_self] at hask
    exact (hsites.least hmany).1 head hhead y hask

namespace Placement

variable {stats : Stats} {method : Method} {out : Outcome}

/-! ## Runs that skip, place and fail -/

/-- Methods without heads and methods with guarded regions are left alone. -/
theorem run_eq_skip (h : method.heads = [] ∨ method.hasRegions = true) (stats : Stats) :
    ∃ event, run stats method = .ok (skip stats method event) := by
  rcases attempt_cases stats method with ⟨-, event, hattempt⟩ | ⟨hheads, hregions, -⟩
  · rw [run, hattempt]
    exact ⟨event, rfl⟩
  · exact absurd h (by simp [hheads, hregions])

/-- A run that succeeds has left its method alone or placed it. -/
theorem run_cases (hrun : run stats method = .ok out) :
    ((method.heads = [] ∨ method.hasRegions = true) ∧
      ∃ event, out = skip stats method event) ∨
    (method.heads ≠ [] ∧ method.hasRegions = false ∧ method.Consistent ∧ method.Covered ∧
      place stats method = .ok out) := by
  by_cases hskip : method.heads = [] ∨ method.hasRegions = true
  · obtain ⟨event, hskipped⟩ := run_eq_skip hskip stats
    exact .inl ⟨hskip, event, Except.ok.inj (hrun.symm.trans hskipped)⟩
  · obtain ⟨hheads, hregions⟩ := not_or.mp hskip
    rw [Bool.not_eq_true] at hregions
    exact .inr ⟨hheads, hregions, (run_eq_ok_iff hheads hregions).mp hrun⟩

/-- The methods that placement accepts. -/
theorem exists_run_eq_ok_iff : (∃ out, run stats method = .ok out) ↔
    method.heads = [] ∨ method.hasRegions = true ∨ (method.Consistent ∧ method.Covered) := by
  rw [← or_assoc]
  constructor
  · rintro ⟨out, hrun⟩
    rcases run_cases hrun with ⟨hskip, -⟩ | ⟨-, -, hconsistent, hcovered, -⟩
    · exact .inl hskip
    · exact .inr ⟨hconsistent, hcovered⟩
  · intro h
    by_cases hskip : method.heads = [] ∨ method.hasRegions = true
    · obtain ⟨event, hrun⟩ := run_eq_skip hskip stats
      exact ⟨_, hrun⟩
    · obtain ⟨hconsistent, hcovered⟩ := h.resolve_left hskip
      obtain ⟨hheads, hregions⟩ := not_or.mp hskip
      rw [Bool.not_eq_true] at hregions
      obtain ⟨-, out, -, hplace, -, -⟩ := place_eq_ok hconsistent stats
      exact ⟨out, (run_eq_ok_iff hheads hregions).mpr ⟨hconsistent, hcovered, hplace⟩⟩

/-- What a run does to its method: the method afterwards and the number of new phis. -/
def Outcome.change (out : Outcome) : Method × Nat := (out.method, out.inserted)

/-- What has been done before makes no difference to the insertion, -/
theorem map_change_place (stats again : Stats) (method : Method) :
    (place again method).map Outcome.change = (place stats method).map Outcome.change := by
  simp only [place, attemptPlace]
  cases Sites.all method (({} : Collector).collect method).1 with
  | error failure => rfl
  | ok sites =>
    dsimp only
    obtain ⟨reached, fault⟩ := insertAll { method := method } sites
    cases fault with
    | none => rfl
    | some fault => rfl

/-- and none to a run. -/
theorem map_change_run (stats again : Stats) (method : Method) :
    (run again method).map Outcome.change = (run stats method).map Outcome.change := by
  unfold run attempt
  by_cases hheads : method.heads.isEmpty = true
  · rw [if_pos hheads, if_pos hheads]
    rfl
  · by_cases hregions : method.hasRegions = true
    · rw [if_neg hheads, if_neg hheads, if_pos hregions, if_pos hregions]
      rfl
    · rw [if_neg hheads, if_neg hheads, if_neg hregions, if_neg hregions]
      cases method.verify with
      | error violation => rfl
      | ok passed =>
        cases method.unreachable with
        | error fault => rfl
        | ok blocks =>
          cases blocks with
          | nil => exact map_change_place stats again method
          | cons block blocks => rfl

/-- What placement adds to the statistics, and that it changes nothing unnoticed. -/
theorem of_place (hplace : place stats method = .ok out) :
    out.stats = { stats with
      scanned := stats.scanned + method.instructionCount
      inserted := stats.inserted + out.inserted } ∧
    (out.method = method ∨ 0 < out.inserted) := by
  simp only [place, attemptPlace] at hplace
  split at hplace
  · cases hplace
  · next sites hsites =>
    have hsame := insertAll_cases { method := method } sites
    split at hplace
    · cases hplace
    · next done hdone =>
      cases hplace
      rw [hdone] at hsame
      have hscanned := Collector.scanned_collect {} method
      rw [Nat.zero_add] at hscanned
      refine ⟨by rw [hscanned], ?_⟩
      exact hsame.imp_left (congrArg Progress.method)

/-- The count of all phis grows by those of the run. -/
theorem inserted_of_run (hrun : run stats method = .ok out) :
    out.stats.inserted = stats.inserted + out.inserted := by
  rcases run_cases hrun with ⟨-, event, rfl⟩ | ⟨-, -, -, -, hplace⟩
  · rfl
  · rw [(of_place hplace).1]

/-- A run changes a method at sites only. -/
theorem exists_sites_of_run (hrun : run stats method = .ok out) :
    ∃ sites : List (BlockId × Register),
      out.method = { method with blocks := sites.foldl mergeAt method.blocks } := by
  rcases run_cases hrun with ⟨-, event, rfl⟩ | ⟨-, -, hconsistent, -, hplace⟩
  · exact ⟨[], rfl⟩
  · obtain ⟨sites, placed, -, hplaced, hmethod, -⟩ := place_eq_ok hconsistent stats
    obtain rfl := Except.ok.inj (hplace.symm.trans hplaced)
    exact ⟨sites, hmethod⟩

/-! ## The second run -/

/-- Merging where there is a phi already changes nothing. -/
theorem foldl_mergeAt_eq_self {sites : List (BlockId × Register)} {blocks : Array Block}
    (h : ∀ site ∈ sites, ∃ found, blocks[site.1]? = some found ∧
      found.hasPhiFor site.2 = true) : sites.foldl mergeAt blocks = blocks := by
  induction sites with
  | nil => rfl
  | cons site sites ih =>
    obtain ⟨⟨found, hfound, hphi⟩, hrest⟩ := List.forall_mem_cons.mp h
    rw [List.foldl_cons, mergeAt_eq_self hfound hphi, ih hrest]

/-- The sites of a placed method have their phis. -/
theorem hasPhi_of_site (hrun : run stats method = .ok out) (hheads : method.heads ≠ [])
    (hregions : method.hasRegions = false) {register : Register} {others : Set BlockId}
    (hothers : out.method.graph.IsSites method.heads (out.method.definers register) others) :
    others ⊆ out.method.phiBlocks register := by
  obtain ⟨hgraph, hmerges⟩ := run_merges hrun hheads hregions
  obtain ⟨sites, hsites⟩ := hmerges register
  rw [hgraph, hsites.definers] at hothers
  rw [hsites.phiBlocks]
  exact (hsites.isSites.subset_of_union hothers).trans Set.subset_union_right

/-- A second run finds the phis of the first and inserts nothing. -/
theorem run_again (hrun : run stats method = .ok out) (again : Stats) :
    ∃ final, run again out.method = .ok final ∧ final.method = out.method ∧
      final.inserted = 0 := by
  rcases run_cases hrun with ⟨hskip, event, rfl⟩ | ⟨hheads, hregions, hconsistent, hcovered, -⟩
  · -- what was left alone is left alone again
    obtain ⟨event, hagain⟩ := run_eq_skip hskip again
    exact ⟨_, hagain, rfl, rfl⟩
  · -- 1. the placed method still passes the checks
    obtain ⟨placed, hmethod⟩ := exists_sites_of_run hrun
    have hheads' : out.method.heads = method.heads := by rw [hmethod]
    have hregions' : out.method.hasRegions = false := by
      rw [hmethod]
      exact hregions
    have hgraph : out.method.graph = method.graph := (run_merges hrun hheads hregions).1
    have hconsistent' : out.method.Consistent := hconsistent.congr hgraph hheads'
    have hcovered' : out.method.Covered := by
      unfold Method.Covered
      rw [← Graph.size_graph, hgraph, hheads', Graph.size_graph]
      exact hcovered
    -- 2. so it is placed, at sites that have their phis
    obtain ⟨found, final, hfound, hplace, hfinal, hcount⟩ := place_eq_ok hconsistent' again
    obtain ⟨same, hsame, -, hsites⟩ := Sites.all_eq_ok hconsistent' {}
    obtain rfl := Except.ok.inj (hfound.symm.trans hsame)
    have hblocks : found.foldl mergeAt out.method.blocks = out.method.blocks := by
      apply foldl_mergeAt_eq_self
      intro site hsite
      have hothers := hsites site.2
      rw [hheads'] at hothers
      exact hasPhi_of_site hrun hheads hregions hothers hsite
    have hunchanged : final.method = out.method := by rw [hfinal, hblocks]
    refine ⟨final, ?_, hunchanged, ?_⟩
    · exact (run_eq_ok_iff (hheads' ▸ hheads) hregions').mpr ⟨hconsistent', hcovered', hplace⟩
    · rw [hunchanged] at hcount
      omega

end Placement

/-! ## The method afterwards -/

namespace Pass

variable {stats : Placement.Stats} {method : Method}

theorem runPlace_of_ok {out : Placement.Outcome} (hrun : Placement.run stats method = .ok out) :
    runPlace stats method = (out.stats,
      { method := out.method, outcome := .ok (0 < out.inserted), events := out.events }) := by
  rw [runPlace, Placement.Attempt.eq_of_result hrun]
  rfl

/-- The pass that fails keeps its statistics, leaves the method as it was and reports
nothing. -/
theorem runPlace_of_error {failure : Failure}
    (hrun : Placement.run stats method = .error failure) :
    runPlace stats method = (stats, { method := method, outcome := .error failure }) := by
  rw [runPlace, Placement.attempt_of_error hrun]
  rfl

end Pass

/-- What placement leaves behind: the placed method, or the method itself if placement
fails. -/
def Method.placed (method : Method) : Method :=
  (Pass.runPlace {} method).2.method

namespace Placement

variable {method : Method}

theorem placed_of_run {stats : Stats} {out : Outcome} (hrun : run stats method = .ok out) :
    method.placed = out.method := by
  have hchange := map_change_run stats {} method
  rw [hrun] at hchange
  obtain ⟨first, hfirst, hsame⟩ := Except.exists_ok_of_map hchange
  rw [Method.placed, Pass.runPlace_of_ok hfirst]
  exact congrArg Prod.fst hsame

theorem placed_of_error {stats : Stats} {failure : Failure}
    (hrun : run stats method = .error failure) : method.placed = method := by
  have hchange := map_change_run stats {} method
  rw [hrun] at hchange
  cases hfirst : run {} method with
  | error other => rw [Method.placed, Pass.runPlace_of_error hfirst]
  | ok out =>
    rw [hfirst] at hchange
    cases hchange

/-- The pass leaves `Method.placed` behind, whatever it has done before. -/
theorem method_runPlace (stats : Stats) (method : Method) :
    (Pass.runPlace stats method).2.method = method.placed := by
  cases hrun : run stats method with
  | error failure => rw [Pass.runPlace_of_error hrun, placed_of_error hrun]
  | ok out => rw [Pass.runPlace_of_ok hrun, placed_of_run hrun]

/-- Placement of what placement left behind succeeds or fails as before, and inserts
nothing. -/
theorem run_placed (stats again : Stats) (method : Method) :
    (run again method.placed).map Outcome.change =
      (run stats method).map fun out => (out.method, 0) := by
  cases hrun : run stats method with
  | error failure =>
    rw [placed_of_error hrun, map_change_run stats again, hrun]
    rfl
  | ok out =>
    obtain ⟨final, hfinal, hmethod, hinserted⟩ := run_again hrun again
    rw [placed_of_run hrun, hfinal]
    show Except.ok (final.method, final.inserted) = _
    rw [hmethod, hinserted]
    rfl

theorem placed_placed (method : Method) : method.placed.placed = method.placed := by
  cases hrun : run {} method with
  | error failure => rw [placed_of_error hrun, placed_of_error hrun]
  | ok out =>
    obtain ⟨final, hfinal, hmethod, -⟩ := run_again hrun {}
    rw [placed_of_run hrun, placed_of_run hfinal, hmethod]

/-- In every case the method changes at sites only. -/
theorem exists_sites_placed (method : Method) :
    ∃ sites : List (BlockId × Register),
      method.placed = { method with blocks := sites.foldl mergeAt method.blocks } := by
  cases hrun : run {} method with
  | error failure => exact ⟨[], placed_of_error hrun⟩
  | ok out =>
    rw [placed_of_run hrun]
    exact exists_sites_of_run hrun

end Placement

/-- A check passes a method after placement exactly if it passes it before. -/
theorem Check.run_placed_iff {check : Check} {method : Method} :
    check.run method.placed = .ok () ↔ check.run method = .ok () := by
  obtain ⟨sites, hplaced⟩ := Placement.exists_sites_placed method
  rw [hplaced, run_eq_ok_iff, run_eq_ok_iff, accepts_foldl_mergeAt_iff, Method.consistent_iff,
    Method.consistent_iff, Placement.graph_foldl_mergeAt]

end MinimalSsa
