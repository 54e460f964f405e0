import MinimalSsa.Proofs.Insertion

/-!
# Where placement puts phis

A method whose edges are consistent and whose blocks are all reached is placed without
failure. Every register gets a phi in exactly its sites, the least set that answers
every head; in which order the heads are listed, and how often, shows neither in the
code nor in the count.

* `Placement.attempt_cases`, `Placement.run_eq_ok_iff`: what a run can come to, and what a
  method needs for it to succeed.
* `Sites.all_eq_ok`, `Placement.place_eq_ok`: the sites of a method, and the insertion.
* `Placement.attempt_of_error`: a run that fails has changed and counted nothing.
* `Placement.Merges`: what a run does for one register.
* `Placement.run_places_least_sites`: the sites of a run, and that the order of the heads
  does not matter.
-/

namespace MinimalSsa

/-! ## Finding the sites -/

/-- Every block is reached from some head. -/
def Method.Covered (method : Method) : Prop :=
  ∀ block < method.size, ∃ head ∈ method.heads, method.graph.Reaches head block

/-- No block is found out of reach when each is reached from some head. -/
theorem Method.Consistent.unreachable_eq_nil_iff {method : Method}
    (hconsistent : method.Consistent) : method.unreachable = .ok [] ↔ method.Covered := by
  obtain ⟨blocks, hblocks, hmem⟩ :=
    Method.unreachable_eq_ok hconsistent.mirrored.target_lt hconsistent.head_lt
  rw [hblocks, Except.ok.injEq, List.eq_nil_iff_forall_not_mem]
  simp only [hmem, not_and, not_not, Method.Covered]

namespace Sites

variable {method : Method}

/-- The sites of a consistent method are found, register by register. -/
theorem all_eq_ok (hconsistent : method.Consistent) (collector : Collector) :
    ∃ found, all method (collector.collect method).1 = .ok found ∧
      (∀ site ∈ found, site.1 < method.size) ∧
      ∀ register, method.graph.IsSites method.heads (method.definers register)
        {block | (block, register) ∈ found} := by
  have hentries := (Collector.wellFormed_collect collector method).blocks
  obtain ⟨analyses, hanalyses, hheads, hanalysed⟩ :=
    analyses_eq_ok hconsistent.mirrored hconsistent.head_lt
  obtain ⟨found, hfound, hlt, hmem⟩ := ofEntries_eq_ok hanalysed hheads hentries
  rw [Graph.size_graph] at hfound hlt
  refine ⟨found, by simp only [all, hanalyses, hfound], hlt, fun register => ?_⟩
  rcases (method.definers register).eq_empty_or_nonempty with hempty | ⟨site, hsite⟩
  · -- a register without definitions is not listed
    have hnone : {block | (block, register) ∈ found} = ∅ := by
      rw [Set.eq_empty_iff_forall_notMem]
      intro block hblock
      obtain ⟨blocks, sites, hentry, hsites, hin⟩ := (hmem block register).mp hblock
      rw [Collector.collect_entry hentry, hempty] at hsites
      rw [hsites.single Set.subsingleton_empty] at hin
      exact hin
    rw [hempty, hnone]
    exact ⟨fun _ => rfl, fun hmany => absurd hmany.nonempty Set.not_nonempty_empty⟩
  · obtain ⟨blocks, hentry⟩ := Collector.exists_entry collector hsite
    obtain ⟨sites, -, -, -, hsites⟩ :=
      ofBlocks_eq_ok hanalysed hheads (hentries (register, blocks) hentry)
    have hsame : {block | (block, register) ∈ found} = {block | block ∈ sites} := by
      ext block
      refine (hmem block register).trans ⟨?_, fun hin => ⟨blocks, _, hentry, hsites, hin⟩⟩
      rintro ⟨others, region, hother, hregion, hin⟩
      rw [Collector.collect_entry hother, ← Collector.collect_entry hentry] at hregion
      rwa [hregion.unique (fun _ => Iff.rfl) hsites] at hin
    rw [hsame, ← Collector.collect_entry hentry]
    exact hsites

/-- The order of the heads only rearranges the sites. -/
theorem all_rearranged (hconsistent : method.Consistent) {heads : List BlockId}
    (hheads : ∀ head, head ∈ heads ↔ head ∈ method.heads)
    {collector : Collector} {found found' : List (BlockId × Register)}
    (hfound : all method (collector.collect method).1 = .ok found)
    (hfound' : all { method with heads := heads } (collector.collect method).1 = .ok found') :
    Rearranged found found' := by
  have hlt := hconsistent.head_lt
  obtain ⟨analyses, hanalyses, hmap, hanalysed⟩ := analyses_eq_ok hconsistent.mirrored hlt
  obtain ⟨others, hothers, hmap', hanalysed'⟩ := analyses_eq_ok hconsistent.mirrored
    fun head hhead => hlt head ((hheads head).mp hhead)
  have hgraph : ({ method with heads := heads } : Method).graph = method.graph := rfl
  have hsize : ({ method with heads := heads } : Method).size = method.graph.size :=
    (Graph.size_graph method).symm
  simp only [all, hanalyses, ← Graph.size_graph method] at hfound
  simp only [all, hgraph, hsize, hothers] at hfound'
  refine ofEntries_rearranged hanalysed hanalysed' (fun head => ?_)
    (Collector.wellFormed_collect collector method).blocks hfound hfound'
  rw [hmap, hmap']
  exact hheads head

end Sites

namespace Placement

variable {stats : Stats} {method : Method} {out : Outcome}

/-! ## Placement and its checks -/

@[simp] theorem Attempt.result_refuse (stats : Stats) (method : Method) (failure : Failure) :
    (refuse stats method failure).result = .error failure := rfl

theorem Attempt.eq_of_result {attempt : Attempt} (h : attempt.result = .ok out) :
    attempt = { toOutcome := out } := by
  obtain ⟨reached, failure⟩ := attempt
  cases failure with
  | none =>
    obtain rfl : reached = out := Except.ok.inj h
    rfl
  | some failure => cases h

/-- What an attempt can come to: it leaves the method alone, one of the checks refuses the
method, or it goes on to the sites. -/
theorem attempt_cases (stats : Stats) (method : Method) :
    ((method.heads = [] ∨ method.hasRegions = true) ∧
      ∃ event, attempt stats method = { toOutcome := skip stats method event }) ∨
    (method.heads ≠ [] ∧ method.hasRegions = false ∧
      ((∃ violation, method.verify = .error violation ∧
          attempt stats method = refuse stats method (.violation violation)) ∨
        (∃ block blocks, method.Consistent ∧ method.unreachable = .ok (block :: blocks) ∧
          attempt stats method = refuse stats method (.violation (.orphanedBlock block))) ∨
        (method.Consistent ∧ method.unreachable = .ok [] ∧
          attempt stats method = attemptPlace stats method))) := by
  by_cases hskip : method.heads = [] ∨ method.hasRegions = true
  · refine .inl ⟨hskip, ?_⟩
    unfold attempt
    by_cases hempty : method.heads.isEmpty = true
    · exact ⟨_, if_pos hempty⟩
    · have hregions := hskip.resolve_left fun hnil => hempty (List.isEmpty_iff.mpr hnil)
      exact ⟨_, (if_neg hempty).trans (if_pos hregions)⟩
  · obtain ⟨hheads, hregions⟩ := not_or.mp hskip
    refine .inr ⟨hheads, Bool.eq_false_iff.mpr hregions, ?_⟩
    rw [attempt, if_neg (by simpa using hheads), if_neg hregions]
    cases hverify : method.verify with
    | error violation => exact .inl ⟨violation, rfl, rfl⟩
    | ok passed =>
      -- with consistent edges the search for blocks out of reach does not fail
      have hconsistent : method.Consistent := Method.verify_eq_ok_iff.mp hverify
      obtain ⟨blocks, hblocks, -⟩ :=
        Method.unreachable_eq_ok hconsistent.mirrored.target_lt hconsistent.head_lt
      rw [hblocks]
      cases blocks with
      | nil => exact .inr (.inr ⟨hconsistent, rfl, rfl⟩)
      | cons block blocks => exact .inr (.inl ⟨block, blocks, hconsistent, rfl, rfl⟩)

/-- Beyond its two exceptions a run places the methods that pass both checks. -/
theorem run_eq_ok_iff (hheads : method.heads ≠ []) (hregions : method.hasRegions = false) :
    run stats method = .ok out ↔
      method.Consistent ∧ method.Covered ∧ place stats method = .ok out := by
  rcases attempt_cases stats method with ⟨hskip, -⟩ | ⟨-, -, ⟨violation, hverify, hattempt⟩ |
    ⟨block, blocks, hconsistent, hblocks, hattempt⟩ | ⟨hconsistent, hnone, hattempt⟩⟩
  · exact absurd hskip (by simp [hheads, hregions])
  · rw [run, hattempt]
    refine iff_of_false (by simp) fun ⟨hconsistent, _⟩ => ?_
    cases hverify.symm.trans (Method.verify_eq_ok_iff.mpr hconsistent)
  · rw [run, hattempt]
    refine iff_of_false (by simp) fun ⟨_, hcovered, _⟩ => ?_
    cases hblocks.symm.trans (hconsistent.unreachable_eq_nil_iff.mpr hcovered)
  · rw [run, hattempt, ← hconsistent.unreachable_eq_nil_iff]
    exact ⟨fun hplace => ⟨hconsistent, hnone, hplace⟩, fun h => h.2.2⟩

/-- A consistent method is placed, at its sites. -/
theorem place_eq_ok (hconsistent : method.Consistent) (stats : Stats) :
    ∃ found out, Sites.all method (({} : Collector).collect method).1 = .ok found ∧
      place stats method = .ok out ∧
      out.method = { method with blocks := found.foldl mergeAt method.blocks } ∧
      out.method.phiCount = method.phiCount + out.inserted := by
  obtain ⟨found, hfound, hlt, -⟩ := Sites.all_eq_ok hconsistent {}
  obtain ⟨done, hdone, hmethod, hcount⟩ := insertAll_eq_ok { method := method } hlt
  simp only [place, attemptPlace, hfound, hdone]
  refine ⟨found, _, rfl, rfl, hmethod, ?_⟩
  simpa using hcount

/-- A run that fails has come to nothing: it stopped at one of the checks, before the first
instruction was counted. Past the checks there are sites, and blocks for all of them. -/
theorem attempt_of_error {failure : Failure} (hrun : run stats method = .error failure) :
    attempt stats method = refuse stats method failure := by
  rcases attempt_cases stats method with ⟨-, event, hattempt⟩ | ⟨-, -, ⟨violation, -, hattempt⟩ |
    ⟨block, blocks, -, -, hattempt⟩ | ⟨hconsistent, -, hattempt⟩⟩
  · rw [run, hattempt] at hrun
    cases hrun
  · rw [run, hattempt] at hrun
    rw [hattempt, ← Except.error.inj hrun]
  · rw [run, hattempt] at hrun
    rw [hattempt, ← Except.error.inj hrun]
  · rw [run, hattempt] at hrun
    obtain ⟨-, out, -, hplace, -, -⟩ := place_eq_ok hconsistent stats
    cases hplace.symm.trans hrun

/-! ## What a run does -/

/-- What placement does for one register: at its sites, and nowhere else, there is a new
phi, unless one was there. -/
structure Merges (method after : Method) (register : Register) (sites : Set BlockId) :
    Prop where
  isSites : method.graph.IsSites method.heads (method.definers register) sites
  phiBlocks : after.phiBlocks register = method.phiBlocks register ∪ sites
  definers : after.definers register = method.definers register ∪ sites

/-- Merging at the sites of a method merges each of its registers. -/
theorem merges_foldl_mergeAt {found : List (BlockId × Register)} {after : Method}
    (hlt : ∀ site ∈ found, site.1 < method.size)
    (hsites : ∀ register, method.graph.IsSites method.heads (method.definers register)
      {block | (block, register) ∈ found})
    (hafter : after = { method with blocks := found.foldl mergeAt method.blocks })
    (register : Register) :
    Merges method after register {block | (block, register) ∈ found} := by
  subst hafter
  refine ⟨hsites register, ?_, ?_⟩
  · ext block
    exact exists_foldl_mergeAt_iff
      (fun found other => Block.hasPhiFor_merged found register other) hlt block
  · ext block
    exact exists_foldl_mergeAt_iff
      (fun found other => Block.defines_merged found register other) hlt block

theorem graph_foldl_mergeAt (method : Method) (found : List (BlockId × Register)) :
    ({ method with blocks := found.foldl mergeAt method.blocks } : Method).graph =
      method.graph :=
  congrArg Graph.mk (map_node_foldl_mergeAt found method.blocks)

/-- A run keeps the edges and merges every register. -/
theorem run_merges (hrun : run stats method = .ok out) (hheads : method.heads ≠ [])
    (hregions : method.hasRegions = false) :
    out.method.graph = method.graph ∧
      ∀ register, ∃ sites, Merges method out.method register sites := by
  obtain ⟨hconsistent, -, hplace⟩ := (run_eq_ok_iff hheads hregions).mp hrun
  obtain ⟨found, placed, hfound, hplaced, hmethod, -⟩ := place_eq_ok hconsistent stats
  obtain ⟨others, hothers, hlt, hsites⟩ := Sites.all_eq_ok hconsistent {}
  obtain rfl := Except.ok.inj (hfound.symm.trans hothers)
  obtain rfl := Except.ok.inj (hplace.symm.trans hplaced)
  refine ⟨by rw [hmethod, graph_foldl_mergeAt], fun register => ?_⟩
  exact ⟨_, merges_foldl_mergeAt hlt hsites hmethod register⟩

/-- A run with the heads listed in another order, or several times, gives the same blocks
and the same count. -/
theorem run_rearranged (hrun : run stats method = .ok out) (hheads : method.heads ≠ [])
    (hregions : method.hasRegions = false) {heads : List BlockId}
    (hsame : ∀ head, head ∈ heads ↔ head ∈ method.heads) :
    ∃ again, run stats { method with heads := heads } = .ok again ∧
      again.method.blocks = out.method.blocks ∧ again.inserted = out.inserted := by
  obtain ⟨hconsistent, hcovered, hplace⟩ := (run_eq_ok_iff hheads hregions).mp hrun
  -- 1. the method with the other heads passes both checks
  have hconsistent' := hconsistent.of_heads fun head => (hsame head).mp
  have hcovered' : ({ method with heads := heads } : Method).Covered := by
    intro block hblock
    obtain ⟨head, hhead, hreach⟩ := hcovered block hblock
    exact ⟨head, (hsame head).mpr hhead, hreach⟩
  have hheads' : heads ≠ [] := by
    obtain ⟨head, hhead⟩ := List.exists_mem_of_ne_nil _ hheads
    exact List.ne_nil_of_mem ((hsame head).mpr hhead)
  -- 2. both are placed, at sites that are rearranged
  obtain ⟨found, placed, hfound, hplaced, hmethod, hcount⟩ := place_eq_ok hconsistent stats
  obtain ⟨found', again, hfound', hagain, hmethod', hcount'⟩ := place_eq_ok hconsistent' stats
  obtain rfl := Except.ok.inj (hplace.symm.trans hplaced)
  have hblocks : again.method.blocks = out.method.blocks := by
    rw [hmethod, hmethod']
    exact (foldl_mergeAt_rearranged (Sites.all_rearranged hconsistent hsame hfound hfound')
      method.blocks).symm
  refine ⟨again, ?_, hblocks, ?_⟩
  · have hregions' : ({ method with heads := heads } : Method).hasRegions = false := hregions
    exact (run_eq_ok_iff hheads' hregions').mpr ⟨hconsistent', hcovered', hagain⟩
  · -- 3. the count is the number of phis that were added
    have hphis : again.method.phiCount = out.method.phiCount := by
      rw [Method.phiCount, Method.phiCount, hblocks]
    have hbefore : ({ method with heads := heads } : Method).phiCount = method.phiCount := rfl
    omega

/-- Placement merges every register at the least sites that answer all heads: none for a
register with a single defining block, the iterated frontier of the definitions and the
head where there is one head. How the heads are listed does not matter. -/
theorem run_places_least_sites (stats : Stats) (method : Method) (out : Outcome)
    (hrun : run stats method = .ok out) (hheads : method.heads ≠ [])
    (hregions : method.hasRegions = false) :
    (∀ register, ∃ sites,
      method.graph.IsSites method.heads (method.definers register) sites ∧
      out.method.phiBlocks register = method.phiBlocks register ∪ sites ∧
      ∀ head, (∀ other ∈ method.heads, other = head) →
        (method.definers register).Nontrivial →
        sites = {block | method.graph.IteratedFrontier head
          (method.definers register ∪ {head}) block}) ∧
    ∀ heads : List BlockId, (∀ head, head ∈ heads ↔ head ∈ method.heads) →
      ∃ again, run stats { method with heads := heads } = .ok again ∧
        again.method.blocks = out.method.blocks ∧ again.inserted = out.inserted := by
  refine ⟨fun register => ?_, fun heads hsame => run_rearranged hrun hheads hregions hsame⟩
  obtain ⟨-, hmerges⟩ := run_merges hrun hheads hregions
  obtain ⟨sites, hsites⟩ := hmerges register
  refine ⟨sites, hsites.isSites, hsites.phiBlocks, fun head hsingle hmany => ?_⟩
  obtain ⟨-, hcovered, -⟩ := (run_eq_ok_iff hheads hregions).mp hrun
  obtain ⟨first, hfirst⟩ := List.exists_mem_of_ne_nil _ hheads
  rw [Set.union_singleton]
  refine hsites.isSites.eq_iteratedFrontier ?_ hmany ?_
  · exact fun other => ⟨hsingle other, fun heq => heq ▸ hsingle first hfirst ▸ hfirst⟩
  · rintro block ⟨found, hfound, -⟩
    obtain ⟨other, hother, hreach⟩ := hcovered block (Array.getElem?_eq_some_iff.mp hfound).1
    exact hsingle other hother ▸ hreach

/-- Two regions that share blocks 1 and 2. Both definitions are in the region of head 3;
their merge in block 1 is a definition for head 0, which then needs one in block 2. -/
def twoRegions : Method where
  name := "regions"
  heads := [0, 3]
  blocks := #[
    { terminator := .branch (.boolean true) 1 2 },
    { terminator := .jump 2, preds := [0, 3, 4] },
    { terminator := .ret none, preds := [0, 1] },
    { instructions := [.assign 0 0], terminator := .branch (.boolean true) 1 4 },
    { instructions := [.assign 0 1], terminator := .jump 1, preds := [3] }]

theorem run_places_least_sites_twoRegions :
    ∃ out, run {} twoRegions = .ok out ∧ out.method.phiSites = [(1, 0), (2, 0)] ∧
      (∃ sites, twoRegions.graph.IsSites [0, 3] (twoRegions.definers 0) sites ∧
        out.method.phiBlocks 0 = twoRegions.phiBlocks 0 ∪ sites) ∧
      ∃ again, run {} { twoRegions with heads := [3, 0, 3] } = .ok again ∧
        again.method.blocks = out.method.blocks ∧ again.inserted = out.inserted := by
  have hphis : (run {} twoRegions).map (·.method.phiSites) = .ok [(1, 0), (2, 0)] := by decide +kernel
  obtain ⟨out, hrun, hphis⟩ := Except.exists_ok_of_map hphis
  obtain ⟨hsites, hrearranged⟩ :=
    run_places_least_sites {} twoRegions out hrun (List.cons_ne_nil _ _) rfl
  obtain ⟨sites, hleast, hblocks, -⟩ := hsites 0
  refine ⟨out, hrun, hphis, ⟨sites, hleast, hblocks⟩, hrearranged [3, 0, 3] fun head => ?_⟩
  simp only [twoRegions, List.mem_cons, List.not_mem_nil, or_false]
  tauto

end Placement

end MinimalSsa
