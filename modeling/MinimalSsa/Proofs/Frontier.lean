import Mathlib.Data.List.TakeWhile
import Mathlib.Data.Set.Basic
import MinimalSsa.Definitions
import MinimalSsa.Proofs.Dominance
import MinimalSsa.Proofs.Worklist

/-!
# Frontiers by their definition

The frontier of a block is read off walks: its dominance reaches the source of an
edge and ends at the target. The table of frontiers is filled from the other side,
edge by edge, and holds the same; so the least set that the worklist finds is the
iterated frontier.

* `Graph.InFrontier`: the definition by dominance.
* `Graph.IteratedFrontier`: the least set that holds the frontiers of given blocks and
  of its own members.
* `Dominance.mem_frontierOf_iff`: the table against the definition.
* `Dominance.mem_closeFrontier_iff`, `Dominance.iteratedFrontier_eq_ok`: the worklist
  against the least set.
-/

namespace MinimalSsa

namespace Graph

/-- The dominance of `x` ends at `y`: `x` dominates the source of an edge to `y`, but
does not strictly dominate `y`. -/
def InFrontier (graph : Graph) (head x y : BlockId) : Prop :=
  (∃ pred, y ∈ graph.successors pred ∧ graph.Dominates head x pred) ∧
    ¬ graph.StrictlyDominates head x y

/-- The least set that holds the frontiers of `blocks` and those of its members. -/
inductive IteratedFrontier (graph : Graph) (head : BlockId) (blocks : Set BlockId) :
    BlockId → Prop where
  | base {x y : BlockId} : x ∈ blocks → graph.InFrontier head x y →
      IteratedFrontier graph head blocks y
  | next {x y : BlockId} : IteratedFrontier graph head blocks x →
      graph.InFrontier head x y → IteratedFrontier graph head blocks y

variable {graph : Graph} {head x y : BlockId} {blocks others : Set BlockId}

/-- A frontier consists of reached blocks. -/
theorem InFrontier.reaches (h : graph.InFrontier head x y) : graph.Reaches head y := by
  obtain ⟨⟨pred, hedge, hdom⟩, -⟩ := h
  exact hdom.1.step hedge

namespace IteratedFrontier

theorem reaches (h : graph.IteratedFrontier head blocks y) : graph.Reaches head y := by
  cases h with
  | base _ hfrontier => exact hfrontier.reaches
  | next _ hfrontier => exact hfrontier.reaches

/-- A set that holds the frontiers of `blocks` and of its members holds the iterated
frontier. -/
theorem subset_of_closed {region : Set BlockId}
    (hbase : ∀ x ∈ blocks, ∀ y, graph.InFrontier head x y → y ∈ region)
    (hnext : ∀ x ∈ region, ∀ y, graph.InFrontier head x y → y ∈ region)
    (h : graph.IteratedFrontier head blocks y) : y ∈ region := by
  induction h with
  | base hmem hfrontier => exact hbase _ hmem _ hfrontier
  | next _ hfrontier ih => exact hnext _ ih _ hfrontier

/-- The blocks and their iterated frontier have no frontiers outside of it. -/
theorem of_inFrontier (hx : x ∈ blocks ∪ {y | graph.IteratedFrontier head blocks y})
    (hfrontier : graph.InFrontier head x y) : graph.IteratedFrontier head blocks y := by
  rcases hx with hx | hx
  · exact .base hx hfrontier
  · exact .next hx hfrontier

/-- More blocks have a larger iterated frontier. -/
theorem mono (hsub : blocks ⊆ others) (h : graph.IteratedFrontier head blocks y) :
    graph.IteratedFrontier head others y :=
  h.subset_of_closed (fun _ hmem _ => .base (hsub hmem)) fun _ hmem _ => .next hmem

end IteratedFrontier

end Graph

/-! ## The table of frontiers -/

namespace Frontiers

variable {frontiers : Array (List BlockId)} {block x y : BlockId}

/-- Recording adds one block to one list. -/
theorem mem_record_iff (runner : BlockId) :
    y ∈ (record block frontiers runner)[x]?.getD [] ↔
      y ∈ frontiers[x]?.getD [] ∨ (y = block ∧ x = runner ∧ x < frontiers.size) := by
  rw [record, Array.getElem?_modify]
  by_cases heq : runner = x
  · subst heq
    rw [if_pos rfl]
    by_cases hx : runner < frontiers.size
    · simp only [Array.getElem?_eq_getElem hx, Option.map_some, Option.getD_some,
        DefinitionMap.mem_insertBlock, hx, and_true]
    · simp [hx]
  · rw [if_neg heq]
    simp [Ne.symm heq]

@[simp] theorem size_record (runner : BlockId) :
    (record block frontiers runner).size = frontiers.size := by
  simp [record]

theorem mem_foldl_record_iff (runners : List BlockId) :
    y ∈ (runners.foldl (record block) frontiers)[x]?.getD [] ↔
      y ∈ frontiers[x]?.getD [] ∨ (y = block ∧ x ∈ runners ∧ x < frontiers.size) := by
  induction runners generalizing frontiers with
  | nil => simp
  | cons runner runners ih =>
    rw [List.foldl_cons, ih, mem_record_iff, size_record, List.mem_cons]
    tauto

theorem size_foldl_record (runners : List BlockId) :
    (runners.foldl (record block) frontiers).size = frontiers.size := by
  induction runners generalizing frontiers with
  | nil => rfl
  | cons runner runners ih => rw [List.foldl_cons, ih, size_record]

/-- One block is recorded for everything passed on its incoming edges. -/
theorem mem_recordBlock_iff (graph : Graph) (positions : Positions) (parents : Parents) :
    y ∈ (recordBlock graph positions parents frontiers block)[x]?.getD [] ↔
      y ∈ frontiers[x]?.getD [] ∨ (y = block ∧ x < frontiers.size ∧
        ∃ pred ∈ graph.predecessors block, (positions.position? pred).isSome ∧
          x ∈ parents.passed block pred) := by
  rw [recordBlock, mem_foldl_record_iff]
  simp only [List.mem_flatMap, List.mem_filter]
  tauto

theorem size_recordBlock (graph : Graph) (positions : Positions) (parents : Parents) :
    (recordBlock graph positions parents frontiers block).size = frontiers.size :=
  size_foldl_record _

/-- The blocks of a list are recorded one after the other. -/
theorem mem_foldl_recordBlock_iff (graph : Graph) (positions : Positions) (parents : Parents)
    (blocks : List BlockId) :
    y ∈ (blocks.foldl (recordBlock graph positions parents) frontiers)[x]?.getD [] ↔
      y ∈ frontiers[x]?.getD [] ∨ (y ∈ blocks ∧ x < frontiers.size ∧
        ∃ pred ∈ graph.predecessors y, (positions.position? pred).isSome ∧
          x ∈ parents.passed y pred) := by
  induction blocks generalizing frontiers with
  | nil => simp
  | cons block blocks ih =>
    rw [List.foldl_cons, ih, mem_recordBlock_iff, size_recordBlock, List.mem_cons]
    constructor
    · rintro ((hold | ⟨rfl, hpassed⟩) | ⟨hmem, hpassed⟩)
      · exact .inl hold
      · exact .inr ⟨.inl rfl, hpassed⟩
      · exact .inr ⟨.inr hmem, hpassed⟩
    · rintro (hold | ⟨rfl | hmem, hpassed⟩)
      · exact .inl (.inl hold)
      · exact .inl (.inr ⟨rfl, hpassed⟩)
      · exact .inr ⟨hmem, hpassed⟩

theorem size_foldl_recordBlock (graph : Graph) (positions : Positions) (parents : Parents)
    (blocks : List BlockId) :
    (blocks.foldl (recordBlock graph positions parents) frontiers).size = frontiers.size := by
  induction blocks generalizing frontiers with
  | nil => rfl
  | cons block blocks ih => rw [List.foldl_cons, ih, size_recordBlock]

end Frontiers

namespace Dominance

variable {graph : Graph} {head block pred x y : BlockId} {order : List BlockId}

section Frontiers

variable (hsearch : graph.Searched head order)

include hsearch

/-- Up from the source of an edge, what is passed before the parent of its target
dominates the source and does not strictly dominate the target. -/
theorem mem_passed_iff (hedge : block ∈ graph.successors pred)
    (hpred : graph.Reaches head pred) :
    x ∈ (graph.parents head order).passed block pred ↔
      graph.Dominates head x pred ∧ ¬ graph.StrictlyDominates head x block := by
  have htree := Graph.parents_isDominatorTree hsearch
  cases hparent : (graph.parents head order).parent? block with
  | none =>
    -- the target is the head: everything up to the head is passed
    have hhead : block = head := by
      by_contra hne
      have hsome := (htree.isSome_iff block).mpr ⟨hne, hpred.step hedge⟩
      simp [hparent] at hsome
    have hstrict : ¬ graph.StrictlyDominates head x block := fun h => h.ne_head hhead
    have hall : (graph.parents head order).passed block pred =
        (graph.parents head order).chain pred := by
      rw [Parents.passed, hparent, List.takeWhile_eq_self_iff]
      exact fun _ _ => rfl
    rw [hall, mem_chain_iff hsearch hpred]
    exact (and_iff_left hstrict).symm
  | some parent =>
    obtain ⟨hstrict, hnearest⟩ := htree.immediate block parent hparent
    have hrank : (Positions.ofOrder graph.size order).rank pred <
        (graph.parents head order).size := by
      rw [htree.size_eq]
      exact hsearch.rank_lt_size ((hsearch.mem_iff pred).mpr hpred)
    have habove := (htree.above_iff parent pred hpred).mpr (hstrict.of_edge hedge hpred)
    rw [Parents.passed, hparent, Parents.chain,
      htree.forest.mem_takeWhile_chainUpTo habove hrank, htree.above_iff x pred hpred,
      htree.above_iff x parent hstrict.2.reaches]
    refine and_congr_right fun _ => not_congr ⟨fun hdom => ⟨?_, hdom.trans hstrict.2⟩,
      hnearest x⟩
    rintro rfl
    exact hstrict.1 (hstrict.2.antisymm hdom)

/-- The recorded frontier of a block is its frontier. -/
theorem mem_frontierOf_iff (hx : graph.Reaches head x) :
    y ∈ (ofOrder graph head order).frontierOf x ↔ graph.InFrontier head x y := by
  have hlt : x < graph.size := hsearch.lt_size ((hsearch.mem_iff x).mpr hx)
  have htable : y ∈ (ofOrder graph head order).frontierOf x ↔
      y ∈ order ∧ ∃ pred ∈ graph.predecessors y,
        ((Positions.ofOrder graph.size order).position? pred).isSome ∧
          x ∈ (graph.parents head order).passed y pred := by
    show y ∈ (graph.frontiers order (graph.parents head order))[x]?.getD [] ↔ _
    rw [Graph.frontiers, Frontiers.mem_foldl_recordBlock_iff]
    simp [hlt]
  rw [htable]
  constructor
  · rintro ⟨-, pred, hmem, hpos, hpassed⟩
    have hedge := (hsearch.mirrored.pred_iff pred y).mp hmem
    have hpred := (hsearch.mem_iff pred).mp (hsearch.isSome_position?.mp hpos)
    obtain ⟨hdom, hstrict⟩ := (mem_passed_iff hsearch hedge hpred).mp hpassed
    exact ⟨⟨pred, hedge, hdom⟩, hstrict⟩
  · intro hfrontier
    have hreach := hfrontier.reaches
    obtain ⟨⟨pred, hedge, hdom⟩, hstrict⟩ := hfrontier
    refine ⟨(hsearch.mem_iff y).mpr hreach, pred,
      (hsearch.mirrored.pred_iff pred y).mpr hedge,
      hsearch.isSome_position?.mpr ((hsearch.mem_iff pred).mpr hdom.1), ?_⟩
    exact (mem_passed_iff hsearch hedge hdom.1).mpr ⟨hdom, hstrict⟩

end Frontiers

/-! ## Iterated frontiers -/

theorem size_frontiers_ofOrder (graph : Graph) (head : BlockId) (order : List BlockId) :
    (ofOrder graph head order).frontiers.size = graph.size := by
  show (graph.frontiers order (graph.parents head order)).size = graph.size
  rw [Graph.frontiers, Frontiers.size_foldl_recordBlock, Array.size_replicate]

section Frontiers

variable (hsearch : graph.Searched head order)

include hsearch

/-- Recorded frontiers hold blocks of the graph. -/
theorem lt_size_of_mem_frontierOf (h : y ∈ (ofOrder graph head order).frontierOf x) :
    y < graph.size := by
  have htable : y ∈ (graph.frontiers order (graph.parents head order))[x]?.getD [] := h
  rw [Graph.frontiers, Frontiers.mem_foldl_recordBlock_iff] at htable
  rcases htable with hempty | ⟨hmem, -⟩
  · by_cases hx : x < graph.size <;> simp [hx] at hempty
  · exact hsearch.lt_size hmem

/-- The worklist ends with the iterated frontier. -/
theorem mem_closeFrontier_iff {blocks : List BlockId}
    (hblocks : ∀ x ∈ blocks, graph.Reaches head x) :
    y ∈ (ofOrder graph head order).closeFrontier blocks ↔
      graph.IteratedFrontier head {x | x ∈ blocks} y := by
  have hrange : ∀ x, ∀ y ∈ (ofOrder graph head order).frontierOf x,
      y < (ofOrder graph head order).frontiers.size := fun x y hy =>
    size_frontiers_ofOrder graph head order ▸ lt_size_of_mem_frontierOf hsearch hy
  have hseeds : ∀ x ∈ blocks, x < (ofOrder graph head order).frontiers.size := fun x hx =>
    size_frontiers_ofOrder graph head order ▸ hsearch.lt_size ((hsearch.mem_iff x).mpr (hblocks x hx))
  obtain ⟨hclosed, hleast⟩ := isLeast_drain hrange hseeds
  rw [closeFrontier, met, List.mem_filter]
  constructor
  · -- nothing is found beyond the least set
    rintro ⟨-, hfound⟩
    refine @hleast {y | graph.IteratedFrontier head {x | x ∈ blocks} y} ?_ y hfound
    rintro x (hx | hx) y hy
    · exact .base hx ((mem_frontierOf_iff hsearch (hblocks x hx)).mp hy)
    · exact .next hx ((mem_frontierOf_iff hsearch hx.reaches).mp hy)
  · -- and nothing of it is missed
    intro hy
    refine ⟨(hsearch.mem_iff y).mpr hy.reaches, ?_⟩
    induction hy with
    | base hx hfrontier =>
      exact hclosed _ (.inl hx) _ ((mem_frontierOf_iff hsearch (hblocks _ hx)).mpr hfrontier)
    | next hx hfrontier ih =>
      exact hclosed _ (.inr ih) _ ((mem_frontierOf_iff hsearch hx.reaches).mpr hfrontier)

/-- For reachable blocks the query succeeds with their iterated frontier. -/
theorem iteratedFrontier_eq_ok {blocks : List BlockId}
    (hblocks : ∀ x ∈ blocks, graph.Reaches head x) :
    (ofOrder graph head order).iteratedFrontier blocks =
      .ok ((ofOrder graph head order).closeFrontier blocks) := by
  have hnone : blocks.find? (fun block => !(ofOrder graph head order).isReachable block) =
      none := by
    rw [List.find?_eq_none]
    intro x hx
    simp [(isReachable_iff hsearch).mpr (hblocks x hx)]
  rw [iteratedFrontier_eq, hnone]

end Frontiers

end Dominance

end MinimalSsa
