import Mathlib.Order.Bounds.Defs
import MinimalSsa.Proofs.Frontier

/-!
# Frontiers as lists

Frontiers are answered as lists, and the lists say more than which blocks they hold:
every block comes once, and the blocks come in the order of the search. The table is
filled in that order, block by block, so a list that holds part of the blocks done so
far can only get the block that is being recorded, at its end.

* `Frontiers.sublist_foldl_recordBlock`: the lists of the table are parts of the order.
* `Dominance.frontier_lists_definition`: the frontier of a block against its definition
  by walks, as a list; blocks out of reach are refused.
* `Dominance.HoldsFrontiers`: sets that are closed under the frontiers of an analysis.
* `Dominance.iteratedFrontier_isLeast`: the worklist answers with the least such set, as
  a list; the first block out of reach is refused.
-/

namespace MinimalSsa

/-! ## The lists of the table -/

namespace Frontiers

variable {frontiers : Array (List BlockId)} {block : BlockId} {list before : List BlockId}

/-- A part of a list that does not hold its last block is a part of the rest. -/
theorem sublist_of_notMem (hsub : list.Sublist (before ++ [block])) (hnew : block ∉ list) :
    list.Sublist before := by
  obtain ⟨front, back, rfl, hfront, hback⟩ := List.sublist_append_iff.mp hsub
  rcases List.sublist_singleton.mp hback with rfl | rfl
  · rwa [List.append_nil]
  · exact absurd (List.mem_append_right front (List.mem_singleton_self block)) hnew

/-- Recording a block keeps the lists parts of an order that ends with it. -/
theorem sublist_record (runner : BlockId)
    (h : ∀ x : BlockId, (frontiers[x]?.getD []).Sublist (before ++ [block])) (x : BlockId) :
    ((record block frontiers runner)[x]?.getD []).Sublist (before ++ [block]) := by
  have hx := h x
  rw [record, Array.getElem?_modify]
  by_cases hrunner : runner = x
  · rw [if_pos hrunner]
    cases hlist : frontiers[x]? with
    | none => exact List.nil_sublist _
    | some list =>
      rw [hlist, Option.getD_some] at hx
      rw [Option.map_some, Option.getD_some]
      by_cases hmem : block ∈ list
      · rwa [if_pos (List.contains_iff_mem.mpr hmem)]
      · rw [if_neg fun hcontains => hmem (List.contains_iff_mem.mp hcontains)]
        exact (sublist_of_notMem hx hmem).append (List.Sublist.refl [block])
  · rwa [if_neg hrunner]

theorem sublist_foldl_record (runners : List BlockId)
    (h : ∀ x : BlockId, (frontiers[x]?.getD []).Sublist (before ++ [block])) :
    ∀ x : BlockId, ((runners.foldl (record block) frontiers)[x]?.getD []).Sublist
      (before ++ [block]) := by
  induction runners generalizing frontiers with
  | nil => exact h
  | cons runner runners ih => exact ih (sublist_record runner h)

/-- The blocks of a list, recorded one after the other, lengthen the lists in that
order. -/
theorem sublist_foldl_recordBlock (graph : Graph) (positions : Positions)
    (parents : Parents) (blocks : List BlockId)
    (h : ∀ x : BlockId, (frontiers[x]?.getD []).Sublist before) :
    ∀ x : BlockId,
      ((blocks.foldl (recordBlock graph positions parents) frontiers)[x]?.getD []).Sublist
        (before ++ blocks) := by
  induction blocks generalizing frontiers before with
  | nil => simpa using h
  | cons block blocks ih =>
    have hnext : ∀ x : BlockId,
        ((recordBlock graph positions parents frontiers block)[x]?.getD []).Sublist
          (before ++ [block]) :=
      sublist_foldl_record _ fun x => (h x).trans (List.sublist_append_left before [block])
    rw [List.foldl_cons, List.append_cons]
    exact ih hnext

end Frontiers

namespace Dominance

variable {graph : Graph} {head x y : BlockId} {order : List BlockId}

/-- A recorded frontier is a part of the order of the search. -/
theorem frontierOf_sublist (graph : Graph) (head x : BlockId) (order : List BlockId) :
    ((ofOrder graph head order).frontierOf x).Sublist order := by
  have hempty : ∀ x : BlockId,
      ((Array.replicate graph.size ([] : List BlockId))[x]?.getD []).Sublist [] := by
    intro x
    by_cases hx : x < graph.size <;> simp [hx]
  exact Frontiers.sublist_foldl_recordBlock graph (Positions.ofOrder graph.size order)
    (graph.parents head order) order hempty x

section Queries

variable (hsearch : graph.Searched head order)

include hsearch

/-- The frontier of a reached block is answered. -/
theorem frontier_eq_ok (hx : graph.Reaches head x) :
    (ofOrder graph head order).frontier x =
      .ok ((ofOrder graph head order).frontierOf x) := by
  rw [frontier, if_pos ((isReachable_iff hsearch).mpr hx)]

/-- A block out of reach is refused. -/
theorem frontier_eq_error (hx : ¬ graph.Reaches head x) :
    (ofOrder graph head order).frontier x = .error (.unreachableBlock x head) := by
  rw [frontier, if_neg fun hreach => hx ((isReachable_iff hsearch).mp hreach)]
  rfl

/-- The first block out of reach is refused. -/
theorem iteratedFrontier_eq_error {before after : List BlockId}
    (hbefore : ∀ seed ∈ before, graph.Reaches head seed) (hx : ¬ graph.Reaches head x) :
    (ofOrder graph head order).iteratedFrontier (before ++ x :: after) =
      .error (.unreachableBlock x head) := by
  have hfind : (before ++ x :: after).find?
      (fun block => !(ofOrder graph head order).isReachable block) = some x := by
    rw [List.find?_eq_some_iff_append]
    refine ⟨?_, before, after, rfl, fun seed hseed => ?_⟩
    · rw [Bool.not_eq_true', ← Bool.not_eq_true, isReachable_iff hsearch]
      exact hx
    · rw [Bool.not_not, isReachable_iff hsearch]
      exact hbefore seed hseed
  rw [iteratedFrontier_eq, hfind]
  rfl

/-- The definition of a frontier, told from the side of the target: some reached
predecessor is dominated, and the target is not strictly so. -/
theorem inFrontier_iff_pred : graph.InFrontier head x y ↔
    graph.Reaches head y ∧
      (∃ pred ∈ graph.predecessors y,
        graph.Reaches head pred ∧ graph.Dominates head x pred) ∧
      ¬ graph.StrictlyDominates head x y := by
  constructor
  · intro h
    obtain ⟨pred, hedge, hdom⟩ := h.1
    exact ⟨h.reaches, ⟨pred, (hsearch.mirrored.pred_iff pred y).mpr hedge, hdom.1, hdom⟩, h.2⟩
  · rintro ⟨-, ⟨pred, hpred, -, hdom⟩, hstrict⟩
    exact ⟨⟨pred, (hsearch.mirrored.pred_iff pred y).mp hpred, hdom⟩, hstrict⟩

/-- The head is in its own frontier when an edge leads back to it. -/
theorem head_inFrontier_iff : graph.InFrontier head head head ↔
    ∃ pred ∈ graph.predecessors head, graph.Reaches head pred := by
  rw [inFrontier_iff_pred hsearch]
  constructor
  · rintro ⟨-, ⟨pred, hpred, hreach, -⟩, -⟩
    exact ⟨pred, hpred, hreach⟩
  · rintro ⟨pred, hpred, hreach⟩
    refine ⟨.refl graph head, ⟨pred, hpred, hreach, .of_head hreach⟩, fun hstrict => ?_⟩
    exact hstrict.ne_head rfl

/-- The answers for single blocks hold exactly what the definition asks for. -/
theorem exists_frontier_iff :
    (∃ frontier, (ofOrder graph head order).frontier x = .ok frontier ∧ y ∈ frontier) ↔
      graph.InFrontier head x y := by
  by_cases hx : graph.Reaches head x
  · rw [frontier_eq_ok hsearch hx, ← mem_frontierOf_iff hsearch hx]
    simp
  · rw [frontier_eq_error hsearch hx]
    constructor
    · rintro ⟨frontier, hok, -⟩
      cases hok
    · rintro ⟨⟨pred, -, hdom⟩, -⟩
      exact absurd hdom.reaches hx

end Queries

/-! ## Single blocks -/

/-- The frontiers of an analysis are those of the definition by walks, each listed once
and in the order of the search. The head is in its own exactly if a reached block leads
back to it. Blocks out of reach and missing ones are refused. -/
theorem frontier_lists_definition (method : Method) (head : BlockId)
    (hverify : method.verify = .ok ()) (hhead : head < method.size) :
    ∃ dominance order, compute method.graph head = .ok dominance ∧
      method.graph.reversePostorder head = .ok order ∧
      (∀ x, method.graph.Reaches head x →
        ∃ frontier, dominance.frontier x = .ok frontier ∧ Along order frontier ∧
          ∀ y, y ∈ frontier ↔ method.graph.Reaches head y ∧
            (∃ pred ∈ method.graph.predecessors y,
              method.graph.Reaches head pred ∧ method.graph.Dominates head x pred) ∧
            ¬ method.graph.StrictlyDominates head x y) ∧
      (∃ own, dominance.frontier head = .ok own ∧
        (head ∈ own ↔ ∃ pred ∈ method.graph.predecessors head,
          method.graph.Reaches head pred)) ∧
      ∀ x, ¬ method.graph.Reaches head x ∨ method.size ≤ x →
        dominance.frontier x = .error (.unreachableBlock x head) := by
  have hmirrored := (Method.verify_eq_ok_iff.mp hverify).mirrored
  rw [← Graph.size_graph] at hhead ⊢
  obtain ⟨order, hsearch, horder, hok⟩ := compute_eq_ok hmirrored hhead
  refine ⟨_, order, hok, horder, fun x hx => ?_, ?_, fun x hx => ?_⟩
  · refine ⟨_, frontier_eq_ok hsearch hx, ?_, fun y => ?_⟩
    · exact .of_sublist (frontierOf_sublist method.graph head x order) hsearch.nodup
    · rw [mem_frontierOf_iff hsearch hx, inFrontier_iff_pred hsearch]
  · have hself := Graph.Reaches.refl method.graph head
    refine ⟨_, frontier_eq_ok hsearch hself, ?_⟩
    rw [mem_frontierOf_iff hsearch hself, head_inFrontier_iff hsearch]
  · refine frontier_eq_error hsearch fun hreach => hx.elim (· hreach) fun hle => ?_
    exact Nat.not_le_of_lt (hsearch.lt_size ((hsearch.mem_iff x).mpr hreach)) hle

/-- Block 1 leads back to the head, block 2 ends the method, and block 3 leads there from
out of reach. -/
def headLoop : Method where
  name := "headLoop"
  heads := [0]
  blocks := #[
    { terminator := .branch (.boolean true) 1 2, preds := [1] },
    { terminator := .jump 0, preds := [0] },
    { terminator := .ret none, preds := [0, 3] },
    { terminator := .jump 2 }]

theorem frontier_lists_definition_headLoop :
    headLoop.verify = .ok () ∧ 0 < headLoop.size ∧
      ∃ dominance order, compute headLoop.graph 0 = .ok dominance ∧
        headLoop.graph.reversePostorder 0 = .ok order ∧
        (∃ own, dominance.frontier 0 = .ok own ∧ Along order own ∧ 0 ∈ own) ∧
        dominance.frontier 7 = .error (.unreachableBlock 7 0) := by
  obtain ⟨dominance, order, hok, horder, hlists, ⟨own, hown, hback⟩, hrefused⟩ :=
    frontier_lists_definition headLoop 0 rfl (by decide)
  have hone : headLoop.graph.Reaches 0 1 := by
    refine (Graph.Reaches.refl headLoop.graph 0).step ?_
    rw [Graph.successors_graph]
    decide
  obtain ⟨frontier, hfrontier, halong, -⟩ := hlists 0 (.refl headLoop.graph 0)
  obtain rfl := Except.ok.inj (hown.symm.trans hfrontier)
  refine ⟨rfl, by decide, dominance, order, hok, horder, ⟨own, hown, halong, ?_⟩, ?_⟩
  · rw [hback, Graph.predecessors_graph rfl]
    exact ⟨1, by decide, hone⟩
  · exact hrefused 7 (.inr (by decide))

/-! ## The worklist -/

/-- `region` holds the frontiers of `blocks` and those of its own members, as far as the
analysis answers for them. -/
def HoldsFrontiers (dominance : Dominance) (blocks : List BlockId) (region : Set BlockId) :
    Prop :=
  ∀ x, x ∈ blocks ∨ x ∈ region → ∀ frontier, dominance.frontier x = .ok frontier →
    ∀ y ∈ frontier, y ∈ region

theorem holdsFrontiers_iff (hsearch : graph.Searched head order) {blocks : List BlockId}
    {region : Set BlockId} : (ofOrder graph head order).HoldsFrontiers blocks region ↔
      ∀ x, x ∈ blocks ∨ x ∈ region → ∀ y, graph.InFrontier head x y → y ∈ region := by
  refine forall₂_congr fun x _ => ?_
  simp only [← exists_frontier_iff hsearch]
  exact ⟨fun h y ⟨frontier, hok, hy⟩ => h frontier hok y hy,
    fun h frontier hok y hy => h y ⟨frontier, hok, hy⟩⟩

/-- The worklist answers with the least set that holds the frontiers of the given blocks
and of its members, each block once and in the order of the search. If a given block is
out of reach, the first such block is refused. -/
theorem iteratedFrontier_isLeast (method : Method) (head : BlockId) (dominance : Dominance)
    (blocks : List BlockId) (hverify : method.verify = .ok ())
    (hcompute : compute method.graph head = .ok dominance) :
    (∀ before x after, blocks = before ++ x :: after →
      (∀ seed ∈ before, method.graph.Reaches head seed) → ¬ method.graph.Reaches head x →
        dominance.iteratedFrontier blocks = .error (.unreachableBlock x head)) ∧
    ((∀ seed ∈ blocks, method.graph.Reaches head seed) →
      ∃ order found, method.graph.reversePostorder head = .ok order ∧
        dominance.iteratedFrontier blocks = .ok found ∧ Along order found ∧
        (∀ x, x ∈ blocks ∨ x ∈ found → ∃ frontier, dominance.frontier x = .ok frontier) ∧
        IsLeast {region | dominance.HoldsFrontiers blocks region} {y | y ∈ found}) := by
  have hmirrored := (Method.verify_eq_ok_iff.mp hverify).mirrored
  obtain ⟨order, hsearch, horder, hok⟩ := compute_eq_ok hmirrored (lt_size_of_compute hcompute)
  obtain rfl := Except.ok.inj (hcompute.symm.trans hok)
  constructor
  · rintro before x after rfl hbefore hx
    exact iteratedFrontier_eq_error hsearch hbefore hx
  · intro hblocks
    have hmem : ∀ y, y ∈ (ofOrder method.graph head order).closeFrontier blocks ↔
        method.graph.IteratedFrontier head {x | x ∈ blocks} y := fun y =>
      mem_closeFrontier_iff hsearch hblocks
    refine ⟨order, _, horder, iteratedFrontier_eq_ok hsearch hblocks, ?_, ?_, ?_⟩
    · exact .of_sublist List.filter_sublist hsearch.nodup
    · rintro x (hx | hx)
      · exact ⟨_, frontier_eq_ok hsearch (hblocks x hx)⟩
      · exact ⟨_, frontier_eq_ok hsearch ((hmem x).mp hx).reaches⟩
    · simp only [holdsFrontiers_iff hsearch, hmem]
      constructor
      · rintro x (hx | hx) y hfrontier
        · exact .base hx hfrontier
        · exact .next hx hfrontier
      · intro region hclosed y hy
        exact hy.subset_of_closed (fun x hx => hclosed x (.inl hx))
          fun x hx => hclosed x (.inr hx)

theorem iteratedFrontier_isLeast_crossedLoop :
    crossedLoop.verify = .ok () ∧ ∃ dominance, compute crossedLoop.graph 0 = .ok dominance ∧
      dominance.iteratedFrontier [1, 4, 2, 9] = .error (.unreachableBlock 4 0) ∧
      ∃ order found, crossedLoop.graph.reversePostorder 0 = .ok order ∧
        dominance.iteratedFrontier [1, 1] = .ok found ∧ Along order found ∧
        IsLeast {region | dominance.HoldsFrontiers [1, 1] region} {y | y ∈ found} := by
  have hconsistent : crossedLoop.Consistent := Method.verify_eq_ok_iff.mp rfl
  have hhead : 0 < crossedLoop.graph.size := by
    rw [Graph.size_graph]
    decide
  obtain ⟨order, -, -, hok⟩ := compute_eq_ok hconsistent.mirrored hhead
  have hone : ∀ seed ∈ [1, 1], crossedLoop.graph.Reaches 0 seed := by
    intro seed hseed
    obtain rfl : seed = 1 := by simpa using hseed
    refine (Graph.Reaches.refl crossedLoop.graph 0).step ?_
    rw [Graph.successors_graph]
    decide
  have hfour : ¬ crossedLoop.graph.Reaches 0 4 := by
    rintro ⟨visited, hwalk⟩
    rcases hwalk.last_step with ⟨heq, -⟩ | ⟨pred, before, -, -, hedge⟩
    · exact absurd heq (by decide)
    · -- no edge leads to block 4
      rw [← hconsistent.mirrored.pred_iff pred 4, Graph.predecessors_graph rfl] at hedge
      exact absurd hedge List.not_mem_nil
  have hrefused := (iteratedFrontier_isLeast crossedLoop 0 _ [1, 4, 2, 9] rfl hok).1
    [1] 4 [2, 9] rfl (by simpa using hone) hfour
  obtain ⟨order, found, horder, hfound, halong, -, hleast⟩ :=
    (iteratedFrontier_isLeast crossedLoop 0 _ [1, 1] rfl hok).2 hone
  exact ⟨rfl, _, hok, hrefused, order, found, horder, hfound, halong, hleast⟩

end Dominance

end MinimalSsa
