import MinimalSsa.Proofs.Join
import MinimalSsa.Proofs.Placement

/-!
# One definition reaches every use

After placement a register that several blocks define can be read in a block without
looking at the way that led there: on every walk from a head to the block, the last
definition is made in the same block. Only a block with a phi for the register is
excepted, and there the phi is the definition.

Walks from two heads end with the same definition only where one of the heads reaches
the definition of the other. A definition out of reach of a head has no part in the
frontiers of that head, so two definitions that each lie out of reach of the other head
may lead to one block unmerged.

* `Graph.LastIn`: the last block of a set on a walk; `Graph.LastOrEntry`: the same, or the
  entry if the walk meets none.
* `Graph.lastOrEntry_eq`, `Graph.lastIn_unique`: it is the same on all walks to a block
  outside the frontiers of the set.
* `Placement.run_lastIn_unique`: so it is for the definitions of a placed method.
* `Placement.run_lastIn_eq_iff`: when walks from two heads end with the same definition;
  `Placement.run_unmerged_separateEntries`: they need not.
-/

namespace MinimalSsa

namespace Graph

variable {graph : Graph} {head z : BlockId} {region : Set BlockId}

/-- `last` is the last of the visited blocks that is in the set. -/
def LastIn (region : Set BlockId) (visited : List BlockId) (last : BlockId) : Prop :=
  ∃ before after, visited = before ++ last :: after ∧ last ∈ region ∧
    ∀ other ∈ after, other ∉ region

theorem LastIn.mem {visited : List BlockId} {last : BlockId}
    (h : LastIn region visited last) : last ∈ region := by
  obtain ⟨_, _, _, hlast, _⟩ := h
  exact hlast

theorem LastIn.reaches {visited : List BlockId} {last : BlockId}
    (hlast : LastIn region visited last) (hwalk : graph.Walk head z (visited ++ [z])) :
    graph.Reaches head last := by
  obtain ⟨before, after, rfl, -, -⟩ := hlast
  exact Reaches.of_mem hwalk (by simp)

/-- A walk from a block of the set has a last one, which it reaches. -/
theorem exists_lastIn (hhead : head ∈ region) {visited : List BlockId} (hne : visited ≠ [])
    (hwalk : graph.Walk head z (visited ++ [z])) :
    ∃ last, LastIn region visited last ∧ graph.Reaches head last := by
  have hmem : head ∈ visited := by
    obtain ⟨first, rest, rfl⟩ := List.exists_cons_of_ne_nil hne
    obtain ⟨tail, htail⟩ := hwalk.eq_cons
    rw [List.cons_append, List.cons.injEq] at htail
    exact htail.1 ▸ List.mem_cons_self
  obtain ⟨before, last, after, hsplit, hlast, hafter⟩ := exists_last ⟨head, hmem, hhead⟩
  have hlastIn : LastIn region visited last := ⟨before, after, hsplit, hlast, hafter⟩
  exact ⟨last, hlastIn, hlastIn.reaches hwalk⟩

/-- The last of the visited blocks that is in the set, or `none` if there is none: then what
holds at the end is what held at the entry. -/
def LastOrEntry (region : Set BlockId) (visited : List BlockId) : Option BlockId → Prop
  | some last => LastIn region visited last
  | none => ∀ block ∈ visited, block ∉ region

theorem exists_lastOrEntry (region : Set BlockId) (visited : List BlockId) :
    ∃ last, LastOrEntry region visited last := by
  by_cases h : ∃ block ∈ visited, block ∈ region
  · obtain ⟨before, last, after, hsplit, hlast, hafter⟩ := exists_last h
    exact ⟨some last, before, after, hsplit, hlast, hafter⟩
  · exact ⟨none, fun block hmem hblock => h ⟨block, hmem, hblock⟩⟩

/-- From the last block of the set on, or else from the entry, a walk meets no other. -/
theorem LastOrEntry.entryWalk {visited : List BlockId} {last : Option BlockId}
    (hlast : LastOrEntry region visited last) (hwalk : graph.Walk head z (visited ++ [z])) :
    ∃ after, graph.EntryWalk head last after (some z) ∧
      ∀ node ∈ after, ∃ block, block ∉ region ∧ node = some block := by
  have hnodes : ∀ {after : List BlockId}, (∀ other ∈ after, other ∉ region) →
      ∀ node ∈ after.map some, ∃ block, block ∉ region ∧ node = some block := by
    intro after hafter node hnode
    obtain ⟨block, hblock, rfl⟩ := List.mem_map.mp hnode
    exact ⟨block, hafter block hblock, rfl⟩
  cases last with
  | none => exact ⟨visited.map some, hwalk.entryWalk, hnodes hlast⟩
  | some last =>
    obtain ⟨before, after, rfl, -, hafter⟩ := hlast
    rw [List.append_assoc, List.cons_append] at hwalk
    refine ⟨after.map some, ?_, hnodes hafter⟩
    have hchain := Walk.isChain head hwalk.split.2
    simpa [EntryWalk] using hchain

/-- If the frontiers of the reached blocks of a set stay in the set and do not hold `z`,
then two walks to `z` cannot end differently. -/
theorem lastOrEntry_eq
    (hclosed : ∀ d ∈ region, graph.Reaches head d → ∀ y, graph.InFrontier head d y →
      y ∈ region ∧ y ≠ z)
    {first second : List BlockId} {d e : Option BlockId} (hd : LastOrEntry region first d)
    (he : LastOrEntry region second e) (hfirstWalk : graph.Walk head z (first ++ [z]))
    (hsecondWalk : graph.Walk head z (second ++ [z])) : d = e := by
  obtain ⟨firsts, hfirsts, hfirstsOut⟩ := hd.entryWalk hfirstWalk
  obtain ⟨seconds, hseconds, hsecondsOut⟩ := he.entryWalk hsecondWalk
  -- the part of the set that the head reaches is closed
  let reached : Set BlockId := {d ∈ region | graph.Reaches head d}
  have hfrontier : graph.FrontierClosed head reached := fun x hx y hin =>
    ⟨(hclosed x hx.1 hx.2 y hin).1, hin.reaches⟩
  have hz : ∀ x ∈ reached, ¬ graph.InFrontier head x z := fun x hx hin =>
    (hclosed x hx.1 hx.2 z hin).2 rfl
  have hnone : ∀ {nodes : List (Option BlockId)},
      (∀ node ∈ nodes, ∃ block, block ∉ region ∧ node = some block) →
        ∀ node ∈ nodes, ¬ IsSource reached node := by
    intro nodes hout node hnode hsource
    obtain ⟨block, hblock, rfl⟩ := hout node hnode
    exact hblock hsource.1
  have hsource : ∀ {visited : List BlockId} {last : Option BlockId},
      LastOrEntry region visited last → graph.Walk head z (visited ++ [z]) →
        IsSource reached last := by
    intro visited last hlast hwalk
    cases last with
    | none => trivial
    | some last => exact ⟨LastIn.mem hlast, LastIn.reaches hlast hwalk⟩
  exact last_source_unique hfrontier (fun x hx => hx.2) hz (hsource hd hfirstWalk)
    (hsource he hsecondWalk) hfirsts hseconds (hnone hfirstsOut) (hnone hsecondsOut)

/-- In particular not in different blocks of the set. -/
theorem lastIn_eq
    (hclosed : ∀ d ∈ region, graph.Reaches head d → ∀ y, graph.InFrontier head d y →
      y ∈ region ∧ y ≠ z)
    {first second : List BlockId} {d e : BlockId} (hd : LastIn region first d)
    (he : LastIn region second e) (hfirstWalk : graph.Walk head z (first ++ [z]))
    (hsecondWalk : graph.Walk head z (second ++ [z])) : d = e :=
  Option.some.inj
    (lastOrEntry_eq hclosed (d := some d) (e := some e) hd he hfirstWalk hsecondWalk)

/-- Where the head is in the set, all walks to `z` have the same last block in the set. -/
theorem lastIn_unique (hhead : head ∈ region)
    (hclosed : ∀ d ∈ region, graph.Reaches head d → ∀ y, graph.InFrontier head d y →
      y ∈ region ∧ y ≠ z)
    {first second : List BlockId} (hfirst : first ≠ []) (hsecond : second ≠ [])
    (hfirstWalk : graph.Walk head z (first ++ [z]))
    (hsecondWalk : graph.Walk head z (second ++ [z])) :
    ∃ last, LastIn region first last ∧ LastIn region second last := by
  obtain ⟨d, hd, -⟩ := exists_lastIn hhead hfirst hfirstWalk
  obtain ⟨e, he, -⟩ := exists_lastIn hhead hsecond hsecondWalk
  obtain rfl := lastIn_eq hclosed hd he hfirstWalk hsecondWalk
  exact ⟨d, hd, he⟩

/-- A walk may be entered at its last block of the set from any head that reaches it. -/
theorem LastIn.reroute {source : BlockId} {visited : List BlockId} {last : BlockId}
    (hlast : LastIn region visited last) (hwalk : graph.Walk source z (visited ++ [z]))
    (hreach : graph.Reaches head last) :
    ∃ rerouted, graph.Walk head z (rerouted ++ [z]) ∧ LastIn region rerouted last := by
  obtain ⟨before, after, rfl, hmem, hafter⟩ := hlast
  obtain ⟨approach, happroach⟩ := hreach
  rw [List.append_assoc, List.cons_append] at hwalk
  have hjoined := happroach.append hwalk.split.2
  rcases happroach.last_step with ⟨rfl, rfl⟩ | ⟨pred, front, rfl, -, -⟩
  · exact ⟨head :: after, hjoined, [], after, rfl, hmem, hafter⟩
  · refine ⟨front ++ last :: after, ?_, front, after, rfl, hmem, hafter⟩
    simpa using hjoined

end Graph

namespace Placement

/-- After placement, on all walks from a head to a block without a phi for a register that
several blocks define, the last block that defines the register, or is the head, is the
same. -/
theorem run_lastIn_unique (stats : Stats) (method : Method) (out : Outcome)
    (hrun : run stats method = .ok out) (hheads : method.heads ≠ [])
    (hregions : method.hasRegions = false) (register : Register)
    (hmany : (method.definers register).Nontrivial) (head : BlockId)
    (hhead : head ∈ method.heads) (block : BlockId)
    (hphi : block ∉ out.method.phiBlocks register) (first second : List BlockId)
    (hfirst : first ≠ []) (hsecond : second ≠ [])
    (hfirstWalk : out.method.graph.Walk head block (first ++ [block]))
    (hsecondWalk : out.method.graph.Walk head block (second ++ [block])) :
    ∃ last, Graph.LastIn (out.method.definers register ∪ {head}) first last ∧
      Graph.LastIn (out.method.definers register ∪ {head}) second last := by
  obtain ⟨hgraph, hmerges⟩ := run_merges hrun hheads hregions
  obtain ⟨sites, hsites⟩ := hmerges register
  rw [hgraph] at hfirstWalk hsecondWalk
  rw [hsites.phiBlocks] at hphi
  rw [hsites.definers]
  have hanswered := (hsites.isSites.least hmany).1 head hhead
  by_cases hmeet : ∃ site ∈ method.definers register ∪ sites, method.graph.Reaches head site
  · refine Graph.lastIn_unique (.inr rfl) ?_ hfirst hsecond hfirstWalk hsecondWalk
    intro d hd hreach y hin
    have hy : y ∈ sites := by
      refine hanswered y ⟨hmeet, .base ?_ hin⟩
      rcases hd with hd | rfl
      · exact .inr ⟨hd, hreach⟩
      · exact .inl rfl
    exact ⟨.inl (.inr hy), fun heq => hphi (.inr (heq ▸ hy))⟩
  · -- the head reaches no definition, so it is the last block on both walks
    have hhead' : head ∈ method.definers register ∪ sites ∪ {head} := .inr rfl
    obtain ⟨d, hd, hdReach⟩ := Graph.exists_lastIn hhead' hfirst hfirstWalk
    obtain ⟨e, he, heReach⟩ := Graph.exists_lastIn hhead' hsecond hsecondWalk
    have hdHead : d = head := hd.mem.resolve_left fun hdef => hmeet ⟨d, hdef, hdReach⟩
    have heHead : e = head := he.mem.resolve_left fun hdef => hmeet ⟨e, hdef, heReach⟩
    exact ⟨head, hdHead ▸ hd, heHead ▸ he⟩

/-- A loop that is entered at both of its blocks, each of which defines the register. -/
def crossedDefinitions : Method where
  name := "definitions"
  heads := [0]
  blocks := #[
    { terminator := .branch (.boolean true) 1 2 },
    { instructions := [.assign 0 0], terminator := .branch (.boolean true) 2 3,
      preds := [0, 2] },
    { instructions := [.assign 0 1], terminator := .jump 1, preds := [0, 1] },
    { terminator := .ret none, preds := [1] }]

theorem crossedDefinitions_walks :
    crossedDefinitions.graph.Walk 0 3 ([0, 1] ++ [3]) ∧
      crossedDefinitions.graph.Walk 0 3 ([0, 2, 1, 2, 1] ++ [3]) := by
  have hedge : ∀ source target, target ∈ crossedDefinitions.successors source →
      target ∈ crossedDefinitions.graph.successors source := fun source target h =>
    (Graph.successors_graph crossedDefinitions source).symm ▸ h
  constructor
  · exact .step (hedge 0 1 (by decide)) (.step (hedge 1 3 (by decide)) (.here 3))
  · exact .step (hedge 0 2 (by decide)) (.step (hedge 2 1 (by decide))
      (.step (hedge 1 2 (by decide)) (.step (hedge 2 1 (by decide))
        (.step (hedge 1 3 (by decide)) (.here 3)))))

theorem run_lastIn_unique_crossedDefinitions :
    ∃ out, run {} crossedDefinitions = .ok out ∧ 3 ∉ out.method.phiBlocks 0 ∧
      (crossedDefinitions.definers 0).Nontrivial ∧
      out.method.graph.Walk 0 3 ([0, 1] ++ [3]) ∧
      out.method.graph.Walk 0 3 ([0, 2, 1, 2, 1] ++ [3]) ∧
      ∃ last, Graph.LastIn (out.method.definers 0 ∪ {0}) [0, 1] last ∧
        Graph.LastIn (out.method.definers 0 ∪ {0}) [0, 2, 1, 2, 1] last := by
  have hphis : (run {} crossedDefinitions).map
      (fun out => (out.method.blocks[3]?.map (·.hasPhiFor 0))) = .ok (some false) := by decide +kernel
  obtain ⟨out, hrun, hphi⟩ := Except.exists_ok_of_map hphis
  have hmany : (crossedDefinitions.definers 0).Nontrivial :=
    ⟨1, ⟨_, rfl, by decide⟩, 2, ⟨_, rfl, by decide⟩, by decide⟩
  have hnone : 3 ∉ out.method.phiBlocks 0 := by
    rintro ⟨found, hfound, hhas⟩
    simp [hfound, hhas] at hphi
  obtain ⟨hfirst, hsecond⟩ := crossedDefinitions_walks
  rw [← (run_merges hrun (List.cons_ne_nil _ _) rfl).1] at hfirst hsecond
  exact ⟨out, hrun, hnone, hmany, hfirst, hsecond,
    run_lastIn_unique {} crossedDefinitions out hrun (List.cons_ne_nil _ _) rfl 0 hmany 0
      List.mem_cons_self 3 hnone [0, 1] [0, 2, 1, 2, 1] (List.cons_ne_nil _ _)
      (List.cons_ne_nil _ _) hfirst hsecond⟩

/-! ## Two heads -/

/-- A head whose walk ends with a definition merges it with every definition that it
reaches, wherever the walk to that definition started. -/
theorem lastIn_eq_of_reaches {stats : Stats} {method : Method} {out : Outcome}
    {register : Register} {head other block d e : BlockId} {first second : List BlockId}
    (hrun : run stats method = .ok out) (hheads : method.heads ≠ [])
    (hregions : method.hasRegions = false) (hmany : (method.definers register).Nontrivial)
    (hhead : head ∈ method.heads) (hphi : block ∉ out.method.phiBlocks register)
    (hfirstWalk : out.method.graph.Walk head block (first ++ [block]))
    (hsecondWalk : out.method.graph.Walk other block (second ++ [block]))
    (hd : Graph.LastIn (out.method.definers register) first d)
    (he : Graph.LastIn (out.method.definers register) second e)
    (hreach : out.method.graph.Reaches head e) : d = e := by
  obtain ⟨rerouted, hrerouted, he⟩ := he.reroute hsecondWalk hreach
  obtain ⟨hgraph, hmerges⟩ := run_merges hrun hheads hregions
  obtain ⟨sites, hsites⟩ := hmerges register
  rw [hgraph] at hfirstWalk hrerouted
  rw [hsites.phiBlocks] at hphi
  refine Graph.lastIn_eq ?_ hd he hfirstWalk hrerouted
  -- the head asks for a phi wherever the dominance of a definition ends
  intro definer hdef hdefReach y hin
  rw [hsites.definers] at hdef ⊢
  have hy : y ∈ sites := (hsites.isSites.least hmany).1 head hhead y
    ⟨⟨definer, hdef, hdefReach⟩, .base (.inr ⟨hdef, hdefReach⟩) hin⟩
  exact ⟨.inr hy, fun heq => hphi (.inr (heq ▸ hy))⟩

/-- After placement, on walks from two heads to a block without a phi for a register that
several blocks define, the last defining blocks are the same exactly when one of the heads
reaches the last defining block of the other walk. -/
theorem run_lastIn_eq_iff (stats : Stats) (method : Method) (out : Outcome)
    (hrun : run stats method = .ok out) (hheads : method.heads ≠ [])
    (hregions : method.hasRegions = false) (register : Register)
    (hmany : (method.definers register).Nontrivial) (head other : BlockId)
    (hhead : head ∈ method.heads) (hother : other ∈ method.heads) (block : BlockId)
    (hphi : block ∉ out.method.phiBlocks register) (first second : List BlockId)
    (hfirstWalk : out.method.graph.Walk head block (first ++ [block]))
    (hsecondWalk : out.method.graph.Walk other block (second ++ [block]))
    (hfirst : ∃ d ∈ first, d ∈ out.method.definers register)
    (hsecond : ∃ e ∈ second, e ∈ out.method.definers register) :
    ∃ d e, Graph.LastIn (out.method.definers register) first d ∧
      Graph.LastIn (out.method.definers register) second e ∧
      (d = e ↔ out.method.graph.Reaches head e ∨ out.method.graph.Reaches other d) := by
  obtain ⟨before, d, after, hsplit, hmem, hafter⟩ := Graph.exists_last hfirst
  obtain ⟨before', e, after', hsplit', hmem', hafter'⟩ := Graph.exists_last hsecond
  have hd : Graph.LastIn (out.method.definers register) first d :=
    ⟨before, after, hsplit, hmem, hafter⟩
  have he : Graph.LastIn (out.method.definers register) second e :=
    ⟨before', after', hsplit', hmem', hafter'⟩
  refine ⟨d, e, hd, he, fun heq => .inl (heq ▸ hd.reaches hfirstWalk), ?_⟩
  rintro (hreach | hreach)
  · exact lastIn_eq_of_reaches hrun hheads hregions hmany hhead hphi hfirstWalk hsecondWalk
      hd he hreach
  · exact (lastIn_eq_of_reaches hrun hheads hregions hmany hother hphi hsecondWalk hfirstWalk
      he hd hreach).symm

/-- A head inside the region of another. The merge in block 2 is made for the outer head;
the inner one reaches a single definition and asks for nothing. -/
def nestedHead : Method where
  name := "nested"
  heads := [0, 1]
  blocks := #[
    { instructions := [.assign 0 0], terminator := .branch (.boolean true) 1 2 },
    { instructions := [.assign 0 1], terminator := .jump 2, preds := [0] },
    { terminator := .jump 3, preds := [0, 1] },
    { terminator := .ret none, preds := [2] }]

theorem run_lastIn_eq_iff_nestedHead :
    ∃ out, run {} nestedHead = .ok out ∧ (nestedHead.definers 0).Nontrivial ∧
      3 ∉ out.method.phiBlocks 0 ∧ 2 ∈ out.method.definers 0 ∧
      out.method.graph.Walk 0 3 ([0, 2] ++ [3]) ∧
      out.method.graph.Walk 1 3 ([1, 2] ++ [3]) ∧
      ∃ d e, Graph.LastIn (out.method.definers 0) [0, 2] d ∧
        Graph.LastIn (out.method.definers 0) [1, 2] e ∧
        (d = e ↔ out.method.graph.Reaches 0 e ∨ out.method.graph.Reaches 1 d) := by
  have hphis : (run {} nestedHead).map (fun out =>
      (out.method.blocks[2]?.map (·.defines 0), out.method.blocks[3]?.map (·.hasPhiFor 0))) =
      .ok (some true, some false) := by decide +kernel
  obtain ⟨out, hrun, hphis⟩ := Except.exists_ok_of_map hphis
  obtain ⟨hmerge, hphi⟩ := Prod.mk.inj hphis
  have hmany : (nestedHead.definers 0).Nontrivial :=
    ⟨0, ⟨_, rfl, by decide⟩, 1, ⟨_, rfl, by decide⟩, by decide⟩
  have hnone : 3 ∉ out.method.phiBlocks 0 := by
    rintro ⟨found, hfound, hhas⟩
    simp [hfound, hhas] at hphi
  have hdefined : 2 ∈ out.method.definers 0 := by
    obtain ⟨found, hfound, hdefines⟩ := Option.map_eq_some_iff.mp hmerge
    exact ⟨found, hfound, hdefines⟩
  have hedge : ∀ source target, target ∈ nestedHead.successors source →
      target ∈ out.method.graph.successors source := fun source target h => by
    rw [(run_merges hrun (List.cons_ne_nil _ _) rfl).1, Graph.successors_graph]
    exact h
  have hlast : out.method.graph.Walk 2 3 [2, 3] := .step (hedge 2 3 (by decide)) (.here 3)
  have hfirst : out.method.graph.Walk 0 3 ([0, 2] ++ [3]) := .step (hedge 0 2 (by decide)) hlast
  have hsecond : out.method.graph.Walk 1 3 ([1, 2] ++ [3]) :=
    .step (hedge 1 2 (by decide)) hlast
  exact ⟨out, hrun, hmany, hnone, hdefined, hfirst, hsecond,
    run_lastIn_eq_iff {} nestedHead out hrun (List.cons_ne_nil _ _) rfl 0 hmany 0 1
      (by decide) (by decide) 3 hnone [0, 2] [1, 2] hfirst hsecond
      ⟨2, by decide, hdefined⟩ ⟨2, by decide, hdefined⟩⟩

/-- Two heads that each define the register and meet in the next block. -/
def separateEntries : Method where
  name := "entries"
  heads := [0, 1]
  blocks := #[
    { instructions := [.assign 0 0], terminator := .jump 2 },
    { instructions := [.assign 0 1], terminator := .jump 2 },
    { terminator := .ret none, preds := [0, 1] }]

/-- Walks from two heads may end with different definitions in a block without a phi. -/
theorem run_unmerged_separateEntries :
    ∃ out, run {} separateEntries = .ok out ∧ separateEntries.heads = [0, 1] ∧
      separateEntries.hasRegions = false ∧ (separateEntries.definers 0).Nontrivial ∧
      2 ∉ out.method.phiBlocks 0 ∧ out.method.graph.Walk 0 2 ([0] ++ [2]) ∧
      out.method.graph.Walk 1 2 ([1] ++ [2]) ∧ 0 ∈ out.method.definers 0 ∧
      1 ∈ out.method.definers 0 ∧
      ¬ ∃ last, Graph.LastIn (out.method.definers 0) [0] last ∧
        Graph.LastIn (out.method.definers 0) [1] last := by
  have hmethod : (run {} separateEntries).map (·.method) = .ok separateEntries := by decide +kernel
  obtain ⟨out, hrun, hmethod⟩ := Except.exists_ok_of_map hmethod
  have hzero : 0 ∈ separateEntries.definers 0 := ⟨_, rfl, by decide⟩
  have hone : 1 ∈ separateEntries.definers 0 := ⟨_, rfl, by decide⟩
  have hedge : ∀ source target, target ∈ separateEntries.successors source →
      target ∈ separateEntries.graph.successors source := fun source target h =>
    (Graph.successors_graph separateEntries source).symm ▸ h
  refine ⟨out, hrun, rfl, rfl, ⟨0, hzero, 1, hone, by decide⟩, ?_⟩
  rw [hmethod]
  refine ⟨?_, .step (hedge 0 2 (by decide)) (.here 2),
    .step (hedge 1 2 (by decide)) (.here 2), hzero, hone, ?_⟩
  · rintro ⟨found, hfound, hhas⟩
    obtain rfl := Option.some.inj hfound
    exact absurd hhas (by decide)
  · rintro ⟨last, ⟨before, after, hsplit, -⟩, before', after', hsplit', -⟩
    have hfirst : last ∈ [0] := hsplit ▸ by simp
    have hsecond : last ∈ [1] := hsplit' ▸ by simp
    exact absurd ((List.mem_singleton.mp hfirst).symm.trans (List.mem_singleton.mp hsecond))
      (by decide)

end Placement

end MinimalSsa
