import MinimalSsa.Dominance
import MinimalSsa.Proofs.Sweep

/-!
# The analysis computes dominance

On a graph with agreeing edges the analysis of an existing head succeeds, and its
answers are the facts about walks from that head. Edges that come from blocks out
of reach are on no such walk, and striking them from the predecessor lists gives
the very same analysis.

* `Dominance.compute_eq_ok`: the analysis succeeds, for the order of a search.
* `Dominance.IsExact`: what its answers mean.
* `Dominance.compute_isExact`: they mean that for every method with consistent edges.
-/

namespace MinimalSsa

/-! ## Striking predecessors -/

namespace Graph

/-- The graph without the predecessors that `keep` refuses. -/
def keepPreds (graph : Graph) (keep : BlockId → Bool) : Graph where
  nodes := graph.nodes.map fun node => { node with preds := node.preds.filter keep }

variable {graph : Graph} {keep : BlockId → Bool}

@[simp] theorem size_keepPreds : (graph.keepPreds keep).size = graph.size := by
  simp [size, keepPreds]

@[simp] theorem successors_keepPreds (block : BlockId) :
    (graph.keepPreds keep).successors block = graph.successors block := by
  simp only [successors, keepPreds, Array.getElem?_map]
  cases graph.nodes[block]? with
  | none => rfl
  | some node => rfl

@[simp] theorem predecessors_keepPreds (block : BlockId) :
    (graph.keepPreds keep).predecessors block = (graph.predecessors block).filter keep := by
  simp only [predecessors, keepPreds, Array.getElem?_map]
  cases graph.nodes[block]? with
  | none => rfl
  | some node => rfl

/-- A search does not look at predecessors. -/
theorem explore_keepPreds (path : List Frame) (seen : BlockSet) (order : List BlockId) :
    (graph.keepPreds keep).explore path seen order = graph.explore path seen order := by
  induction path, seen, order using explore.induct graph with
  | case1 seen order => rw [explore, explore]
  | case2 block path seen order ih =>
    rw [explore, explore]
    exact ih
  | case3 block next rest path seen order hlacks ih =>
    rw [explore, explore, if_pos hlacks, if_pos hlacks, successors_keepPreds]
    exact ih
  | case4 block next rest path seen order hlacks hseen ih =>
    rw [explore, explore, if_neg hlacks, if_neg hlacks, if_pos hseen, if_pos hseen]
    exact ih
  | case5 block next rest path seen order hlacks hseen =>
    rw [explore, explore, if_neg hlacks, if_neg hlacks, if_neg hseen, if_neg hseen]

theorem reversePostorder_keepPreds (head : BlockId) :
    (graph.keepPreds keep).reversePostorder head = graph.reversePostorder head := by
  rw [reversePostorder, reversePostorder, size_keepPreds, successors_keepPreds,
    explore_keepPreds]

/-- As long as only kept blocks have entries, an update does not miss the others. -/
theorem update_keepPreds {positions : Positions} {parents : Parents} {block : BlockId}
    (hkeep : ∀ other, (parents.parent? other).isSome → keep other = true) :
    Parents.update (graph.keepPreds keep) positions parents block =
      Parents.update graph positions parents block := by
  have hmeet : parents.meetAll positions ((graph.keepPreds keep).predecessors block) =
      parents.meetAll positions (graph.predecessors block) := by
    rw [predecessors_keepPreds]
    refine Parents.foldl_meetPred_filter keep _ (fun pred _ hdrop => ?_) none
    by_contra hsome
    have hkept := hkeep pred (Option.isSome_iff_ne_none.mpr hsome)
    simp [hdrop] at hkept
  rw [Parents.update, Parents.update, hmeet]

/-- An update gives an entry to no other block. -/
theorem isSome_of_update {positions : Positions} {parents : Parents} {block other : BlockId}
    (hsome : ((Parents.update graph positions parents block).parent? other).isSome) :
    other = block ∨ (parents.parent? other).isSome := by
  rw [Parents.update] at hsome
  split at hsome
  · exact .inr hsome
  · by_cases heq : other = block
    · exact .inl heq
    · rw [Parents.parent?, Array.getElem?_setIfInBounds_ne (Ne.symm heq)] at hsome
      exact .inr hsome

/-- Sweeping over kept blocks only gives entries to them, whichever of the two graphs is
looked at. -/
theorem sweep_keepPreds {positions : Positions} {parents : Parents} {blocks : List BlockId}
    (hblocks : ∀ block ∈ blocks, keep block = true)
    (hkeep : ∀ other, (parents.parent? other).isSome → keep other = true) :
    Parents.sweep (graph.keepPreds keep) positions blocks parents =
        Parents.sweep graph positions blocks parents ∧
      ∀ other, ((Parents.sweep graph positions blocks parents).parent? other).isSome →
        keep other = true := by
  induction blocks generalizing parents with
  | nil => exact ⟨rfl, hkeep⟩
  | cons block blocks ih =>
    have hnext : ∀ other, ((Parents.update graph positions parents block).parent? other).isSome →
        keep other = true := by
      intro other hsome
      rcases isSome_of_update hsome with rfl | hsome
      · exact hblocks other List.mem_cons_self
      · exact hkeep other hsome
    obtain ⟨heq, hall⟩ :=
      ih (fun other hother => hblocks other (List.mem_cons_of_mem _ hother)) hnext
    refine ⟨?_, hall⟩
    show Parents.sweep _ positions blocks (Parents.update _ positions parents block) = _
    rw [update_keepPreds hkeep, heq]
    rfl

/-- The same for repeated sweeps. -/
theorem settle_keepPreds {positions : Positions} {parents : Parents} {blocks : List BlockId}
    (hblocks : ∀ block ∈ blocks, keep block = true)
    (hkeep : ∀ other, (parents.parent? other).isSome → keep other = true) (count : Nat) :
    Parents.settle (graph.keepPreds keep) positions blocks count parents =
      Parents.settle graph positions blocks count parents := by
  induction count generalizing parents with
  | zero => rfl
  | succ count ih =>
    obtain ⟨heq, hnext⟩ := sweep_keepPreds hblocks hkeep
    rw [Parents.settle, Parents.settle, heq]
    split
    · rfl
    · exact ih hnext

/-- Frontiers leave out the blocks without a position, so these may be struck first. -/
theorem frontiers_keepPreds {order : List BlockId} {parents : Parents} :
    (graph.keepPreds fun pred =>
        ((Positions.ofOrder graph.size order).position? pred).isSome).frontiers order parents =
      graph.frontiers order parents := by
  simp only [Graph.frontiers, size_keepPreds]
  congr 1
  funext frontiers block
  simp only [Frontiers.recordBlock, predecessors_keepPreds, List.filter_filter, Bool.and_self]

end Graph

/-! ## The analysis -/

namespace Dominance

variable {graph : Graph} {head a b block : BlockId} {order : List BlockId}

/-- Where edges agree, no predecessor is missing. -/
theorem missingPred?_eq_none {blocks : List BlockId}
    (h : ∀ block, ∀ pred ∈ graph.predecessors block, pred < graph.size) :
    missingPred? graph blocks = none := by
  rw [missingPred?, List.find?_eq_none]
  intro pred hpred
  obtain ⟨block, -, hmem⟩ := List.mem_flatMap.mp hpred
  simpa using h block pred hmem

/-- Only heads that exist are analysed. -/
theorem lt_size_of_compute {dominance : Dominance} (h : compute graph head = .ok dominance) :
    head < graph.size := by
  by_contra hge
  rw [compute, if_neg hge] at h
  cases h

/-- The analysis of an existing head succeeds. -/
theorem compute_eq_ok (hmirrored : graph.Mirrored) (hhead : head < graph.size) :
    ∃ order, graph.Searched head order ∧ graph.reversePostorder head = .ok order ∧
      compute graph head = .ok (ofOrder graph head order) := by
  obtain ⟨order, horder, hsearch⟩ := Graph.exists_searchOrder hmirrored.target_lt hhead
  have hpred : ∀ block, ∀ pred ∈ graph.predecessors block, pred < graph.size :=
    fun block pred hmem => Graph.source_lt ((hmirrored.pred_iff pred block).mp hmem)
  refine ⟨order, ⟨hsearch, hmirrored, hhead⟩, horder, ?_⟩
  rw [compute, if_pos hhead, horder]
  simp only [missingPred?_eq_none hpred]

section Queries

variable (hsearch : graph.Searched head order)

include hsearch

theorem isReachable_iff :
    (ofOrder graph head order).isReachable block = true ↔ graph.Reaches head block := by
  rw [← hsearch.mem_iff block, ← hsearch.isSome_position?]
  rfl

/-- The chain of a reachable block holds its dominators. -/
theorem mem_chain_iff (hb : graph.Reaches head b) :
    a ∈ (graph.parents head order).chain b ↔ graph.Dominates head a b := by
  have htree := Graph.parents_isDominatorTree hsearch
  rw [htree.forest.mem_chain_iff, htree.above_iff a b hb]
  rw [htree.size_eq]
  exact hsearch.rank_lt_size ((hsearch.mem_iff b).mpr hb)

theorem dominates_iff :
    (ofOrder graph head order).dominates a b = true ↔ graph.Dominates head a b := by
  rw [dominates, Bool.and_eq_true, Bool.and_eq_true, isReachable_iff hsearch,
    isReachable_iff hsearch, List.contains_iff_mem]
  constructor
  · rintro ⟨⟨-, hb⟩, hmem⟩
    exact (mem_chain_iff hsearch hb).mp hmem
  · intro hdom
    exact ⟨⟨hdom.reaches, hdom.1⟩, (mem_chain_iff hsearch hdom.1).mpr hdom⟩

theorem strictlyDominates_iff :
    (ofOrder graph head order).strictlyDominates a b = true ↔
      graph.StrictlyDominates head a b := by
  rw [strictlyDominates, Bool.and_eq_true, bne_iff_ne, dominates_iff hsearch]
  rfl

theorem immediateDominator?_eq_none_iff :
    (ofOrder graph head order).immediateDominator? block = none ↔
      block = head ∨ ¬ graph.Reaches head block := by
  have htree := Graph.parents_isDominatorTree hsearch
  rw [← Option.not_isSome_iff_eq_none, immediateDominator?]
  rw [show (ofOrder graph head order).parents = graph.parents head order from rfl,
    htree.isSome_iff block, not_and_or, not_not]

theorem immediateDominator?_eq_some_iff :
    (ofOrder graph head order).immediateDominator? b = some a ↔
      graph.ImmediatelyDominates head a b := by
  have htree := Graph.parents_isDominatorTree hsearch
  refine ⟨htree.immediate b a, fun h => ?_⟩
  -- a block with a strict dominator is reached and not the head, so it has an entry
  have hsome := (htree.isSome_iff b).mpr ⟨h.1.ne_head, h.1.2.1⟩
  obtain ⟨parent, hparent⟩ := Option.isSome_iff_exists.mp hsome
  rw [immediateDominator?, ← (htree.immediate b parent hparent).unique h]
  exact hparent

/-- Striking the predecessors out of reach gives the same tree. -/
theorem parents_keepPreds :
    (graph.keepPreds (ofOrder graph head order).isReachable).parents head order =
      graph.parents head order := by
  have hblocks : ∀ block ∈ order.tail, (ofOrder graph head order).isReachable block = true :=
    fun block hblock => (isReachable_iff hsearch).mpr
      ((hsearch.mem_iff block).mp (List.mem_of_mem_tail hblock))
  have hstart : ∀ other, ((Parents.start graph.size head).parent? other).isSome →
      (ofOrder graph head order).isReachable other = true := fun other hsome =>
    (isReachable_iff hsearch).mpr ((Graph.Tentative.start hsearch).reached other hsome)
  simp only [Graph.parents, Graph.size_keepPreds, Graph.settle_keepPreds hblocks hstart]

/-- Striking the predecessors out of reach gives the same analysis. -/
theorem compute_keepPreds (horder : graph.reversePostorder head = .ok order) :
    compute (graph.keepPreds (ofOrder graph head order).isReachable) head =
      .ok (ofOrder graph head order) := by
  have hpred : ∀ block,
      ∀ pred ∈ (graph.keepPreds (ofOrder graph head order).isReachable).predecessors block,
        pred < (graph.keepPreds (ofOrder graph head order).isReachable).size := by
    intro block pred hmem
    rw [Graph.predecessors_keepPreds] at hmem
    rw [Graph.size_keepPreds]
    exact Graph.source_lt
      ((hsearch.mirrored.pred_iff pred block).mp (List.mem_of_mem_filter hmem))
  have hsame : ofOrder (graph.keepPreds (ofOrder graph head order).isReachable) head order =
      ofOrder graph head order := by
    have hfrontiers : (graph.keepPreds (ofOrder graph head order).isReachable).frontiers order
        (graph.parents head order) = graph.frontiers order (graph.parents head order) :=
      Graph.frontiers_keepPreds
    have hparents := parents_keepPreds hsearch
    show Dominance.mk head order _ _ _ _ = Dominance.mk head order _ _ _ _
    rw [hparents, hfrontiers, Graph.size_keepPreds]
  rw [compute, Graph.size_keepPreds, if_pos hsearch.head_lt, Graph.reversePostorder_keepPreds,
    horder]
  simp only [missingPred?_eq_none hpred, hsame]

end Queries

/-! ## What the answers mean -/

/-- The answers of an analysis are the facts about walks from its head: what is reached,
what every walk to a block visits, and which strict dominator comes last. Predecessors
out of reach have no part in them. -/
structure IsExact (dominance : Dominance) (graph : Graph) (head : BlockId) : Prop where
  isReachable_iff : ∀ block,
    dominance.isReachable block = true ↔ ∃ visited, graph.Walk head block visited
  dominates_iff : ∀ a b, dominance.dominates a b = true ↔
    graph.Reaches head b ∧ ∀ visited, graph.Walk head b visited → a ∈ visited
  strictlyDominates_iff : ∀ a b, dominance.strictlyDominates a b = true ↔
    a ≠ b ∧ graph.Reaches head b ∧ ∀ visited, graph.Walk head b visited → a ∈ visited
  immediateDominator?_eq_none_iff : ∀ block,
    dominance.immediateDominator? block = none ↔ block = head ∨ ¬ graph.Reaches head block
  immediateDominator?_eq_some_iff : ∀ a b,
    dominance.immediateDominator? b = some a ↔ graph.StrictlyDominates head a b ∧
      ∀ other, graph.StrictlyDominates head other b → other ≠ a →
        graph.Dominates head other a
  compute_keepPreds : compute (graph.keepPreds dominance.isReachable) head = .ok dominance

/-- The analysis of an existing block of a method with consistent edges succeeds and is
exact. -/
theorem compute_isExact (method : Method) (head : BlockId)
    (hverify : method.verify = .ok ()) (hhead : head < method.size) :
    ∃ dominance, compute method.graph head = .ok dominance ∧
      dominance.IsExact method.graph head := by
  have hmirrored := (Method.verify_eq_ok_iff.mp hverify).mirrored
  rw [← Graph.size_graph] at hhead
  obtain ⟨order, hsearch, horder, hok⟩ := compute_eq_ok hmirrored hhead
  refine ⟨_, hok, ?_⟩
  constructor
  case isReachable_iff => exact fun _ => isReachable_iff hsearch
  case dominates_iff => exact fun _ _ => dominates_iff hsearch
  case strictlyDominates_iff => exact fun _ _ => strictlyDominates_iff hsearch
  case immediateDominator?_eq_none_iff =>
    exact fun _ => immediateDominator?_eq_none_iff hsearch
  case immediateDominator?_eq_some_iff =>
    intro a b
    rw [immediateDominator?_eq_some_iff hsearch]
    refine and_congr_right fun hstrict => forall₂_congr fun other hother => ?_
    refine ⟨fun hdom _ => hdom, fun hdom => ?_⟩
    -- the block itself dominates itself
    by_cases heq : other = a
    · rw [heq]
      exact Graph.Dominates.refl hstrict.2.reaches
    · exact hdom heq
  case compute_keepPreds => exact compute_keepPreds hsearch horder

/-- A loop between blocks 1 and 2 that is entered at both, left from block 1 to block 3,
to which block 4 leads from out of reach. -/
def crossedLoop : Method where
  name := "crossed"
  heads := [0]
  blocks := #[
    { terminator := .branch (.boolean true) 1 2 },
    { terminator := .branch (.boolean true) 2 3, preds := [0, 2] },
    { terminator := .jump 1, preds := [0, 1] },
    { terminator := .ret none, preds := [1, 4] },
    { terminator := .jump 3 }]

theorem compute_isExact_crossedLoop :
    crossedLoop.verify = .ok () ∧ 0 < crossedLoop.size ∧
      ∃ dominance, compute crossedLoop.graph 0 = .ok dominance ∧
        dominance.IsExact crossedLoop.graph 0 :=
  ⟨rfl, by decide, compute_isExact crossedLoop 0 rfl (by decide)⟩

end Dominance

end MinimalSsa
