import MinimalSsa.Proofs.Reaching

/-!
# Registers with a value on entry

A parameter is defined before the first instruction runs. No instruction tells of this
definition, so placement counts one defining block less than there are definitions. Where
no block or several blocks define the register this makes no difference: in a block without
a phi, what was defined last, at entry or later, is the same on all walks. A register with
a single defining block is passed over, and its value on entry stays unmerged wherever some
walks pass the definition and some do not.

* `Graph.Unambiguous`: what was defined last does not depend on the walk.
* `Graph.unambiguous_of_closed`: outside the frontiers of the definitions it does not.
* `Graph.unambiguous_singleton_iff`: what a single definition needs for that.
* `Placement.run_unambiguous`: both for a placed method with one head;
  `Placement.run_unmerged_overwrittenParams`: a parameter that is not merged.
-/

namespace MinimalSsa

namespace Graph

variable {graph : Graph} {head block d : BlockId} {region : Set BlockId}

/-- All walks of at least one edge from the head to the block have the same last block of the
set before their end, or none of them has one. -/
def Unambiguous (graph : Graph) (head : BlockId) (region : Set BlockId) (block : BlockId) :
    Prop :=
  ∀ first second : List BlockId, first ≠ [] → second ≠ [] →
    graph.Walk head block (first ++ [block]) → graph.Walk head block (second ++ [block]) →
    ∃ last, LastOrEntry region first last ∧ LastOrEntry region second last

theorem unambiguous_of_closed
    (hclosed : ∀ d ∈ region, graph.Reaches head d → ∀ y, graph.InFrontier head d y →
      y ∈ region ∧ y ≠ block) : graph.Unambiguous head region block := by
  intro first second _ _ hfirstWalk hsecondWalk
  obtain ⟨d, hd⟩ := exists_lastOrEntry region first
  obtain ⟨e, he⟩ := exists_lastOrEntry region second
  obtain rfl := lastOrEntry_eq hclosed hd he hfirstWalk hsecondWalk
  exact ⟨d, hd, he⟩

/-! ## A single definition -/

/-- The last definition is the only one there is, or the entry where the walk misses it. -/
theorem lastOrEntry_singleton_iff {visited : List BlockId} {last : Option BlockId} :
    LastOrEntry {d} visited last ↔ last = if d ∈ visited then some d else none := by
  have hforward : ∀ {last : Option BlockId}, LastOrEntry {d} visited last →
      last = if d ∈ visited then some d else none := by
    intro last h
    cases last with
    | none => rw [if_neg fun hmem => h d hmem rfl]
    | some last =>
      obtain ⟨before, after, rfl, hlast, -⟩ := h
      obtain rfl : last = d := hlast
      rw [if_pos (by simp)]
  refine ⟨hforward, ?_⟩
  rintro rfl
  obtain ⟨last, hlast⟩ := exists_lastOrEntry {d} visited
  exact hforward hlast ▸ hlast

/-- Before its last edge a walk leads to a predecessor. -/
theorem Walk.exists_pred {before : List BlockId} (hne : before ≠ [])
    (h : graph.Walk head block (before ++ [block])) :
    ∃ pred, block ∈ graph.successors pred ∧ graph.Walk head pred before := by
  rcases h.last_step with ⟨-, hsingle⟩ | ⟨pred, front, hsplit, hwalk, hedge⟩
  · exact absurd (List.append_eq_singleton_iff.mp hsingle) (by simp [hne])
  · obtain rfl : before = front := List.append_cancel_right hsplit
    exact ⟨pred, hedge, hwalk⟩

/-- With a single definition, all walks to a block agree where the definition dominates every
predecessor of the block, and where it reaches none; nowhere else. -/
theorem unambiguous_singleton_iff (hd : graph.Reaches head d)
    (hpreds : ∀ pred, block ∈ graph.successors pred → graph.Reaches head pred) :
    graph.Unambiguous head {d} block ↔
      (∀ pred, block ∈ graph.successors pred → graph.Dominates head d pred) ∨
      ∀ pred, block ∈ graph.successors pred → ¬ graph.Reaches d pred := by
  constructor
  · intro hsame
    by_contra hneither
    simp only [not_or, not_forall, not_not] at hneither
    obtain ⟨⟨p, hp, hnotDom⟩, q, hq, hreach⟩ := hneither
    -- 1. one walk goes around the definition
    obtain ⟨around, haround, hmiss⟩ : ∃ around, graph.Walk head p around ∧ d ∉ around := by
      by_contra hall
      refine hnotDom ⟨hpreds p hp, fun visited hwalk => ?_⟩
      by_contra hmem
      exact hall ⟨visited, hwalk, hmem⟩
    -- 2. and one passes it
    obtain ⟨approach, happroach⟩ := hd
    obtain ⟨onward, honward⟩ := hreach
    obtain ⟨rest, rfl⟩ := honward.eq_cons
    have hthrough := happroach.append honward
    have hhit : d ∈ approach ++ rest := List.mem_append_left _ happroach.target_mem
    obtain ⟨last, hfirst, hsecond⟩ := hsame around (approach ++ rest)
      (List.ne_nil_of_mem haround.source_mem) (List.ne_nil_of_mem hhit)
      (haround.snoc hp) (hthrough.snoc hq)
    rw [lastOrEntry_singleton_iff, if_neg hmiss] at hfirst
    rw [lastOrEntry_singleton_iff, if_pos hhit, hfirst] at hsecond
    cases hsecond
  · intro halike first second hfirst hsecond hfirstWalk hsecondWalk
    obtain ⟨p, hp, hfirstWalk⟩ := hfirstWalk.exists_pred hfirst
    obtain ⟨q, hq, hsecondWalk⟩ := hsecondWalk.exists_pred hsecond
    have hmem : d ∈ first ↔ d ∈ second := by
      rcases halike with hdom | hnone
      · exact iff_of_true ((hdom p hp).2 first hfirstWalk) ((hdom q hq).2 second hsecondWalk)
      · -- a walk that passed the definition would lead on from there to the predecessor
        have hmiss : ∀ {pred visited}, block ∈ graph.successors pred →
            graph.Walk head pred visited → d ∉ visited := by
          intro pred visited hpred hwalk hhit
          obtain ⟨before, after, rfl⟩ := List.append_of_mem hhit
          exact hnone pred hpred ⟨d :: after, hwalk.split.2⟩
        exact iff_of_false (hmiss hp hfirstWalk) (hmiss hq hsecondWalk)
    refine ⟨_, lastOrEntry_singleton_iff.mpr rfl, lastOrEntry_singleton_iff.mpr ?_⟩
    simp only [hmem]

end Graph

namespace Placement

/-- After placement in a method with one head, for a register with a value on entry: unless
exactly one block defined it, every block without a phi for it has the same last definition
on all walks. If one block did, no phi was inserted, and walks to a block agree exactly where
that definition dominates every predecessor of the block or reaches none of them. -/
theorem run_unambiguous (stats : Stats) (method : Method) (out : Outcome)
    (hrun : run stats method = .ok out) (head : BlockId)
    (hheads : ∀ other, other ∈ method.heads ↔ other = head)
    (hregions : method.hasRegions = false) (register : Register) :
    ((∀ d, method.definers register ≠ {d}) →
      ∀ block, block ∉ out.method.phiBlocks register →
        out.method.graph.Unambiguous head (out.method.definers register) block) ∧
    ∀ d, method.definers register = {d} →
      out.method.phiBlocks register = method.phiBlocks register ∧
      ∀ block, out.method.graph.Unambiguous head (out.method.definers register) block ↔
        (∀ pred, block ∈ out.method.graph.successors pred →
          out.method.graph.Dominates head d pred) ∨
        ∀ pred, block ∈ out.method.graph.successors pred →
          ¬ out.method.graph.Reaches d pred := by
  have hsome : method.heads ≠ [] := List.ne_nil_of_mem ((hheads head).mpr rfl)
  obtain ⟨hgraph, hmerges⟩ := run_merges hrun hsome hregions
  obtain ⟨sites, hsites⟩ := hmerges register
  -- the only head reaches every block
  have hreach : ∀ block < method.size, method.graph.Reaches head block := by
    intro block hblock
    obtain ⟨other, hother, hreach⟩ := ((run_eq_ok_iff hsome hregions).mp hrun).2.1 block hblock
    exact (hheads other).mp hother ▸ hreach
  rw [hgraph, hsites.definers, hsites.phiBlocks]
  constructor
  · intro hnotOne block hphi
    apply Graph.unambiguous_of_closed
    intro d hd hdReach y hin
    -- some block defines the register, so several do
    have hmany : (method.definers register).Nontrivial := by
      by_contra hfew
      have hsub := Set.not_nontrivial_iff.mp hfew
      rw [hsites.isSites.single hsub, Set.union_empty] at hd
      exact hnotOne d (hsub.eq_singleton_of_mem hd)
    have hy : y ∈ sites := (hsites.isSites.least hmany).1 head ((hheads head).mpr rfl) y
      ⟨⟨d, hd, hdReach⟩, .base (.inr ⟨hd, hdReach⟩) hin⟩
    exact ⟨.inr hy, fun heq => hphi (.inr (heq ▸ hy))⟩
  · intro d hd
    rw [hsites.isSites.single (hd ▸ Set.subsingleton_singleton), Set.union_empty,
      Set.union_empty, hd]
    refine ⟨rfl, fun block => Graph.unambiguous_singleton_iff ?_ fun pred hpred => ?_⟩
    · have hmem : d ∈ method.definers register := hd ▸ Set.mem_singleton d
      obtain ⟨found, hfound, -⟩ := hmem
      exact hreach d (Array.getElem?_eq_some_iff.mp hfound).1
    · exact hreach pred (Graph.size_graph method ▸ Graph.source_lt hpred)

/-- Both arms define the first parameter, and one of them the second. -/
def overwrittenParams : Method where
  name := "params"
  heads := [0]
  params := [0, 1]
  blocks := #[
    { terminator := .branch (.boolean true) 1 2 },
    { instructions := [.assign 0 0, .assign 1 0], terminator := .jump 3, preds := [0] },
    { instructions := [.assign 0 0], terminator := .jump 3, preds := [0] },
    { terminator := .jump 4, preds := [1, 2] },
    { terminator := .ret none, preds := [3] }]

theorem overwrittenParams_definers :
    (overwrittenParams.definers 0).Nontrivial ∧ overwrittenParams.definers 1 = {1} := by
  refine ⟨⟨1, ⟨_, rfl, by decide⟩, 2, ⟨_, rfl, by decide⟩, by decide⟩, ?_⟩
  apply Set.Subset.antisymm
  · rintro block ⟨found, hfound, hdefines⟩
    have hlt : block < 5 := (Array.getElem?_eq_some_iff.mp hfound).1
    have hnone : ∀ other < 5, (overwrittenParams.blocks[other]?.any (·.defines 1)) = true →
        other = 1 := by decide
    exact hnone block hlt (by rw [hfound]; exact hdefines)
  · rintro block rfl
    exact ⟨_, rfl, by decide⟩

/-- What a run does to it: the parameter with two definitions is merged, the other is not. -/
theorem run_overwrittenParams :
    ∃ out, run {} overwrittenParams = .ok out ∧ out.method.graph = overwrittenParams.graph ∧
      3 ∈ out.method.phiBlocks 0 ∧ 4 ∉ out.method.phiBlocks 0 ∧
      3 ∉ out.method.phiBlocks 1 := by
  have hphis : (run {} overwrittenParams).map (fun out =>
      (out.method.blocks[3]?.map (·.hasPhiFor 0), out.method.blocks[4]?.map (·.hasPhiFor 0),
        out.method.blocks[3]?.map (·.hasPhiFor 1))) =
      .ok (some true, some false, some false) := by decide +kernel
  obtain ⟨out, hrun, hphis⟩ := Except.exists_ok_of_map hphis
  obtain ⟨hmerged, hphis⟩ := Prod.mk.inj hphis
  obtain ⟨hbelow, hunmerged⟩ := Prod.mk.inj hphis
  refine ⟨out, hrun, (run_merges hrun (List.cons_ne_nil _ _) rfl).1, ?_, ?_, ?_⟩
  · exact Option.map_eq_some_iff.mp hmerged
  · rintro ⟨found, hfound, hhas⟩
    simp [hfound, hhas] at hbelow
  · rintro ⟨found, hfound, hhas⟩
    simp [hfound, hhas] at hunmerged

theorem run_unambiguous_overwrittenParams :
    ∃ out, run {} overwrittenParams = .ok out ∧ overwrittenParams.params = [0, 1] ∧
      3 ∈ out.method.phiBlocks 0 ∧ 4 ∉ out.method.phiBlocks 0 ∧
      out.method.graph.Unambiguous 0 (out.method.definers 0) 4 ∧
      (out.method.graph.Unambiguous 0 (out.method.definers 1) 3 ↔
        (∀ pred, 3 ∈ out.method.graph.successors pred →
          out.method.graph.Dominates 0 1 pred) ∨
        ∀ pred, 3 ∈ out.method.graph.successors pred →
          ¬ out.method.graph.Reaches 1 pred) := by
  obtain ⟨out, hrun, -, hmerged, hbelow, -⟩ := run_overwrittenParams
  obtain ⟨hmany, hone⟩ := overwrittenParams_definers
  have hheads : ∀ other, other ∈ overwrittenParams.heads ↔ other = 0 := fun other =>
    List.mem_singleton
  have hnotOne : ∀ d, overwrittenParams.definers 0 ≠ {d} := fun d heq =>
    Set.not_nontrivial_singleton (heq ▸ hmany)
  exact ⟨out, hrun, rfl, hmerged, hbelow,
    (run_unambiguous {} overwrittenParams out hrun 0 hheads rfl 0).1 hnotOne 4 hbelow,
    ((run_unambiguous {} overwrittenParams out hrun 0 hheads rfl 1).2 1 hone).2 3⟩

/-- A parameter that one arm overwrites is not merged where the arms meet: one walk ends with
the definition of the arm, the other with the value at entry. -/
theorem run_unmerged_overwrittenParams :
    ∃ out, run {} overwrittenParams = .ok out ∧ overwrittenParams.heads = [0] ∧
      overwrittenParams.hasRegions = false ∧ 1 ∈ overwrittenParams.params ∧
      3 ∉ out.method.phiBlocks 1 ∧ out.method.graph.Walk 0 3 ([0, 1] ++ [3]) ∧
      out.method.graph.Walk 0 3 ([0, 2] ++ [3]) ∧
      ¬ ∃ last, Graph.LastOrEntry (out.method.definers 1) [0, 1] last ∧
        Graph.LastOrEntry (out.method.definers 1) [0, 2] last := by
  obtain ⟨out, hrun, hgraph, -, -, hunmerged⟩ := run_overwrittenParams
  have hedge : ∀ source target, target ∈ overwrittenParams.successors source →
      target ∈ out.method.graph.successors source := fun source target h => by
    rw [hgraph, Graph.successors_graph]
    exact h
  obtain ⟨-, hmerges⟩ := run_merges hrun (List.cons_ne_nil _ _) rfl
  obtain ⟨sites, hsites⟩ := hmerges 1
  have hone := overwrittenParams_definers.2
  have hdefiners : out.method.definers 1 = {1} := by
    rw [hsites.definers, hsites.isSites.single (hone ▸ Set.subsingleton_singleton), hone,
      Set.union_empty]
  refine ⟨out, hrun, rfl, rfl, by decide, hunmerged,
    .step (hedge 0 1 (by decide)) (.step (hedge 1 3 (by decide)) (.here 3)),
    .step (hedge 0 2 (by decide)) (.step (hedge 2 3 (by decide)) (.here 3)), ?_⟩
  rw [hdefiners]
  rintro ⟨last, hfirst, hsecond⟩
  rw [Graph.lastOrEntry_singleton_iff] at hfirst hsecond
  exact absurd (hfirst.symm.trans hsecond) (by decide)

end Placement

end MinimalSsa
