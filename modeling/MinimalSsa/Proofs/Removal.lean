import Mathlib.Data.List.Perm.Subperm
import MinimalSsa.Dominance.Removal
import MinimalSsa.Proofs.Flood
import MinimalSsa.Proofs.Frontier

/-!
# Removal and the fast analysis agree

Removing one block after the other gives a table of dominators that is right by
definition, and every query of the removal analysis is read off that table. The fast
analysis goes through a tree instead. Both are measured against the same notions on
walks, so they answer alike.

* `Removal.Tabulates`: what the tables hold; `Removal.compute_eq_ok`: they are made.
* `Removal.immediateDominator?_eq_ok`, `Removal.frontier_eq_ok`,
  `Removal.iteratedFrontier_eq_ok`: the queries against walks. Iterated frontiers are
  rounds from the empty set, each of which but the last finds a further block.
* `Removal.compute_agrees`: the two analyses of a head answer every query alike.
-/

namespace MinimalSsa

/-! ## Members of a set of blocks -/

namespace BlockSet

variable {set other : BlockSet} {block : BlockId}

theorem lt_size_of_contains (h : set.contains block = true) : block < set.size := by
  have hsome : set.marks[block]? = some true := by simpa [contains] using h
  exact (Array.getElem?_eq_some_iff.mp hsome).1

theorem mem_toList_iff : block ∈ set.toList ↔ set.contains block = true := by
  rw [toList, List.mem_filter, List.mem_range]
  exact ⟨fun h => h.2, fun h => ⟨lt_size_of_contains h, h⟩⟩

theorem nodup_toList (set : BlockSet) : set.toList.Nodup :=
  List.nodup_range.filter _

/-- Sets of blocks of one graph are told apart by their members. -/
theorem ext_contains (hsize : set.size = other.size)
    (h : ∀ block, set.contains block = true ↔ other.contains block = true) : set = other := by
  obtain ⟨marks⟩ := set
  obtain ⟨others⟩ := other
  refine congrArg mk (Array.ext hsize fun block hblock hother => ?_)
  have hentry := h block
  simp only [contains, Array.getElem?_eq_getElem hblock, Array.getElem?_eq_getElem hother,
    beq_iff_eq, Option.some.injEq] at hentry
  exact Bool.eq_iff_iff.mpr hentry

/-- A larger set that is another set lists more members. -/
theorem length_toList_lt (hsize : set.size = other.size)
    (hsub : ∀ block, set.contains block = true → other.contains block = true)
    (hne : other ≠ set) : set.toList.length < other.toList.length := by
  have hperm : set.toList.Subperm other.toList := set.nodup_toList.subperm fun block hblock =>
    mem_toList_iff.mpr (hsub block (mem_toList_iff.mp hblock))
  by_contra hle
  have hsame := hperm.perm_of_length_le (Nat.le_of_not_lt hle)
  refine hne (ext_contains hsize.symm fun block => ?_)
  rw [← mem_toList_iff, ← mem_toList_iff, hsame.mem_iff]

theorem length_toList_le (set : BlockSet) : set.toList.length ≤ set.size := by
  have hle := List.length_filter_le set.contains (List.range set.size)
  rwa [List.length_range] at hle

end BlockSet

namespace Removal

variable {graph : Graph} {head a b block x y : BlockId} {removal : Removal}
variable {blocks : List BlockId}

/-! ## The tables -/

/-- The tables of a graph with agreeing edges: they tell which blocks the head reaches,
and list the dominators of every block. -/
structure Tabulates (removal : Removal) (graph : Graph) (head : BlockId) : Prop where
  mirrored : graph.Mirrored
  graph_eq : removal.graph = graph
  size_eq : removal.reachable.size = graph.size
  reachable_iff : ∀ block, removal.reachable.contains block = true ↔ graph.Reaches head block
  dominators : ∀ block < graph.size, ∃ dominators,
    removal.dominatorList block = .ok dominators ∧
      ∀ a, a ∈ dominators ↔ graph.Dominates head a block

/-- Every candidate is removed in turn. -/
theorem reachableAround_eq_ok (hmirrored : graph.Mirrored) (hhead : head < graph.size)
    (candidates : List BlockId) :
    ∃ around, reachableAround graph head candidates = .ok around ∧
      around.map Prod.fst = candidates ∧
      ∀ entry ∈ around, ∀ block,
        entry.2.contains block = true ↔ graph.ReachesAround (some entry.1) head block := by
  induction candidates with
  | nil => exact ⟨[], rfl, rfl, by simp⟩
  | cons candidate candidates ih =>
    obtain ⟨found, hfound, -, hiff⟩ :=
      Graph.reachableWithout_eq_ok hmirrored.target_lt hhead (some candidate)
    obtain ⟨around, haround, hmap, hall⟩ := ih
    refine ⟨(candidate, found) :: around, by simp only [reachableAround, hfound, haround],
      by rw [List.map_cons, hmap], ?_⟩
    exact List.forall_mem_cons.mpr ⟨hiff, hall⟩

/-- The reachable blocks that cut a block off, and the block itself, are its
dominators. -/
theorem mem_dominatorsOf_iff {reachable : BlockSet} {around : List (BlockId × BlockSet)}
    (hreachable : ∀ block, reachable.contains block = true ↔ graph.Reaches head block)
    (hmap : around.map Prod.fst = reachable.toList)
    (haround : ∀ entry ∈ around, ∀ block,
      entry.2.contains block = true ↔ graph.ReachesAround (some entry.1) head block) :
    a ∈ dominatorsOf reachable around block ↔ graph.Dominates head a block := by
  rw [dominatorsOf]
  by_cases hblock : graph.Reaches head block
  · rw [if_pos ((hreachable block).mpr hblock), List.mem_map]
    constructor
    · rintro ⟨⟨candidate, found⟩, hmem, rfl⟩
      obtain ⟨hentry, htest⟩ := List.mem_filter.mp hmem
      rw [Bool.or_eq_true, beq_iff_eq, Bool.not_eq_true', ← Bool.not_eq_true,
        haround _ hentry block] at htest
      rcases htest with rfl | hcut
      · exact Graph.Dominates.refl hblock
      · exact Graph.dominates_iff_not_reachesAround.mpr ⟨hblock, hcut⟩
    · intro hdom
      have hlisted : a ∈ around.map Prod.fst := by
        rw [hmap, BlockSet.mem_toList_iff]
        exact (hreachable a).mpr hdom.reaches
      obtain ⟨entry, hentry, rfl⟩ := List.mem_map.mp hlisted
      refine ⟨entry, List.mem_filter.mpr ⟨hentry, ?_⟩, rfl⟩
      rw [Bool.or_eq_true, Bool.not_eq_true', ← Bool.not_eq_true, haround _ hentry block]
      exact .inr (Graph.dominates_iff_not_reachesAround.mp hdom).2
  · rw [if_neg fun hfound => hblock ((hreachable block).mp hfound)]
    exact ⟨fun hmem => absurd hmem List.not_mem_nil, fun hdom => absurd hdom.1 hblock⟩

/-- The tables of an existing head are made. -/
theorem compute_eq_ok (hmirrored : graph.Mirrored) (hhead : head < graph.size) :
    ∃ removal, compute graph head = .ok removal ∧ removal.Tabulates graph head := by
  obtain ⟨reachable, hreach, hsize, hiff⟩ :=
    Graph.reachableWithout_eq_ok hmirrored.target_lt hhead none
  obtain ⟨around, haround, hmap, hall⟩ :=
    reachableAround_eq_ok hmirrored hhead reachable.toList
  simp only [Graph.reachesAround_none_iff] at hiff
  simp only [compute, hreach, haround]
  refine ⟨_, rfl, hmirrored, rfl, hsize, hiff, ?_⟩
  intro block hblock
  refine ⟨dominatorsOf reachable around block, ?_, fun a => mem_dominatorsOf_iff hiff hmap hall⟩
  simp [dominatorList, hblock]

/-! ## The tree -/

section Queries

variable (h : removal.Tabulates graph head)

include h

theorem Tabulates.lt_size (hreach : graph.Reaches head block) : block < graph.size := by
  rw [← h.size_eq]
  exact BlockSet.lt_size_of_contains ((h.reachable_iff block).mpr hreach)

theorem isReachable_eq_ok (hblock : block < graph.size) :
    ∃ answer, removal.isReachable block = .ok answer ∧
      (answer = true ↔ graph.Reaches head block) := by
  have hlt : block < removal.reachable.marks.size := by
    rw [show removal.reachable.marks.size = graph.size from h.size_eq]
    exact hblock
  refine ⟨removal.reachable.marks[block], by simp [isReachable, hlt], ?_⟩
  rw [← h.reachable_iff block]
  simp [BlockSet.contains, hlt]

theorem dominates_eq_ok (a : BlockId) (hb : b < graph.size) :
    ∃ answer, removal.dominates a b = .ok answer ∧
      (answer = true ↔ graph.Dominates head a b) := by
  obtain ⟨dominators, hlist, hmem⟩ := h.dominators b hb
  refine ⟨dominators.contains a, by rw [dominates, hlist]; rfl, ?_⟩
  rw [List.contains_iff_mem, hmem]

theorem allDominate_eq_ok (hblock : block < graph.size) (strict : List BlockId) :
    ∃ answer, removal.allDominate block strict = .ok answer ∧
      (answer = true ↔ ∀ dominator ∈ strict, graph.Dominates head dominator block) := by
  induction strict with
  | nil => exact ⟨true, rfl, by simp⟩
  | cons dominator strict ih =>
    obtain ⟨answer, hdominates, hiff⟩ := dominates_eq_ok h dominator hblock
    obtain ⟨others, hothers, hall⟩ := ih
    simp only [allDominate, hdominates, List.forall_mem_cons, ← hiff, ← hall]
    cases answer with
    | false => exact ⟨false, rfl, by simp⟩
    | true => exact ⟨others, hothers, by simp⟩

/-- The first candidate that all of `strict` dominate is found if there is one. -/
theorem findImmediate_eq_ok {strict : List BlockId} (candidates : List BlockId)
    (hlt : ∀ candidate ∈ candidates, candidate < graph.size) :
    ∃ answer, removal.findImmediate strict candidates = .ok answer ∧
      (∀ found, answer = some found → found ∈ candidates ∧
        ∀ dominator ∈ strict, graph.Dominates head dominator found) ∧
      (answer = none → ∀ candidate ∈ candidates,
        ¬ ∀ dominator ∈ strict, graph.Dominates head dominator candidate) := by
  induction candidates with
  | nil => exact ⟨none, rfl, by simp, by simp⟩
  | cons candidate candidates ih =>
    obtain ⟨hfirst, hrest⟩ := List.forall_mem_cons.mp hlt
    obtain ⟨all, hall, hiff⟩ := allDominate_eq_ok h hfirst strict
    simp only [findImmediate, hall]
    cases all with
    | true =>
      refine ⟨some candidate, rfl, ?_, fun hnone => absurd hnone (Option.some_ne_none _)⟩
      rintro found heq
      obtain rfl := Option.some.inj heq
      exact ⟨List.mem_cons_self, hiff.mp rfl⟩
    | false =>
      obtain ⟨answer, hanswer, hsome, hnone⟩ := ih hrest
      refine ⟨answer, hanswer, fun found heq => ?_, fun heq => ?_⟩
      · obtain ⟨hmem, hdom⟩ := hsome found heq
        exact ⟨List.mem_cons_of_mem _ hmem, hdom⟩
      · refine List.forall_mem_cons.mpr ⟨fun hdom => ?_, hnone heq⟩
        exact Bool.false_ne_true (hiff.mpr hdom)

theorem immediateDominator?_eq_ok (hblock : block < graph.size) :
    ∃ answer, removal.immediateDominator? block = .ok answer ∧
      ∀ a, answer = some a ↔ graph.ImmediatelyDominates head a block := by
  obtain ⟨dominators, hlist, hmem⟩ := h.dominators block hblock
  have hstrict : ∀ a, a ∈ dominators.filter (· != block) ↔
      graph.StrictlyDominates head a block := by
    intro a
    rw [List.mem_filter, hmem, bne_iff_ne, and_comm]
    rfl
  obtain ⟨answer, hanswer, hsome, hnone⟩ := findImmediate_eq_ok h
    (dominators.filter (· != block)) fun a ha => h.lt_size ((hstrict a).mp ha).2.reaches
  have hfound : ∀ a, answer = some a → graph.ImmediatelyDominates head a block := by
    intro a heq
    obtain ⟨ha, hall⟩ := hsome a heq
    exact ⟨(hstrict a).mp ha, fun other hother => hall other ((hstrict other).mpr hother)⟩
  refine ⟨answer, by simp only [immediateDominator?, hlist, hanswer],
    fun a => ⟨hfound a, fun himmediate => ?_⟩⟩
  cases answer with
  | none =>
    -- the closest strict dominator would have been found
    refine absurd (fun other hother => ?_) (hnone rfl a ((hstrict a).mpr himmediate.1))
    exact himmediate.2 other ((hstrict other).mp hother)
  | some found => exact congrArg some ((hfound found rfl).unique himmediate)

/-! ## Frontiers -/

theorem dominatesSome_eq_ok (x : BlockId) (preds : List BlockId)
    (hlt : ∀ pred ∈ preds, pred < graph.size) :
    ∃ answer, removal.dominatesSome x preds = .ok answer ∧
      (answer = true ↔ ∃ pred ∈ preds, graph.Dominates head x pred) := by
  induction preds with
  | nil => exact ⟨false, rfl, by simp⟩
  | cons pred preds ih =>
    obtain ⟨hfirst, hrest⟩ := List.forall_mem_cons.mp hlt
    obtain ⟨reached, hreached, hreach⟩ := isReachable_eq_ok h hfirst
    obtain ⟨dominated, hdominated, hdom⟩ := dominates_eq_ok h x hfirst
    obtain ⟨others, hothers, hsome⟩ := ih hrest
    simp only [dominatesSome, hreached, hdominated, List.exists_mem_cons_iff, ← hdom, ← hsome]
    cases reached with
    | false =>
      have hnot : dominated ≠ true := fun htrue =>
        Bool.false_ne_true (hreach.mpr (hdom.mp htrue).1)
      exact ⟨others, hothers, by simp [hnot]⟩
    | true =>
      cases dominated with
      | true => exact ⟨true, rfl, by simp⟩
      | false => exact ⟨others, hothers, by simp⟩

theorem inFrontier_eq_ok (x : BlockId) (hy : y < graph.size) :
    ∃ answer, removal.inFrontier x y = .ok answer ∧
      (answer = true ↔ graph.InFrontier head x y) := by
  obtain ⟨reached, hreached, hreach⟩ := isReachable_eq_ok h hy
  obtain ⟨dominated, hdominated, hdom⟩ := dominates_eq_ok h x hy
  have hpreds : ∀ pred, pred ∈ graph.predecessors y ↔ y ∈ graph.successors pred :=
    fun pred => h.mirrored.pred_iff pred y
  obtain ⟨atPred, hatPred, hiff⟩ := dominatesSome_eq_ok h x (graph.predecessors y)
    fun pred hpred => Graph.source_lt ((hpreds pred).mp hpred)
  simp only [hpreds] at hiff
  simp only [inFrontier, hreached, hdominated, h.graph_eq, hatPred]
  cases reached with
  | false =>
    -- frontiers consist of reached blocks
    refine ⟨false, rfl, fun hfalse => absurd hfalse Bool.false_ne_true, fun hin => ?_⟩
    exact hreach.mpr hin.reaches
  | true =>
    have hstrict : (x != y && dominated) = true ↔ graph.StrictlyDominates head x y := by
      rw [Bool.and_eq_true, bne_iff_ne, hdom]
      rfl
    by_cases hends : (x != y && dominated) = true
    · rw [if_pos hends]
      refine ⟨false, rfl, fun hfalse => absurd hfalse Bool.false_ne_true, fun hin => ?_⟩
      exact absurd (hstrict.mp hends) hin.2
    · rw [if_neg hends]
      refine ⟨atPred, rfl, hiff.trans ?_⟩
      exact (and_iff_left fun hdom => hends (hstrict.mpr hdom)).symm

theorem frontierAmong_eq_ok (x : BlockId) (candidates : List BlockId)
    (hlt : ∀ y ∈ candidates, y < graph.size) :
    ∃ members, removal.frontierAmong x candidates = .ok members ∧
      ∀ y, y ∈ members ↔ y ∈ candidates ∧ graph.InFrontier head x y := by
  induction candidates with
  | nil => exact ⟨[], rfl, by simp⟩
  | cons candidate candidates ih =>
    obtain ⟨hfirst, hrest⟩ := List.forall_mem_cons.mp hlt
    obtain ⟨member, hmember, hiff⟩ := inFrontier_eq_ok h x hfirst
    obtain ⟨others, hothers, hmem⟩ := ih hrest
    simp only [frontierAmong, hmember, hothers]
    refine ⟨_, rfl, fun y => ?_⟩
    cases member with
    | true =>
      rw [if_pos rfl, List.mem_cons, List.mem_cons, hmem, or_and_right]
      refine or_congr_left ⟨fun heq => ⟨heq, heq ▸ hiff.mp rfl⟩, And.left⟩
    | false =>
      rw [if_neg Bool.false_ne_true, hmem, List.mem_cons]
      refine and_congr_left fun hin => ⟨.inr, fun hor => hor.resolve_left fun heq => ?_⟩
      exact Bool.false_ne_true (hiff.mpr (heq ▸ hin))

theorem frontier_eq_ok (x : BlockId) :
    ∃ frontier, removal.frontier x = .ok frontier ∧
      ∀ y, y ∈ frontier ↔ graph.InFrontier head x y := by
  obtain ⟨frontier, hfrontier, hmem⟩ := frontierAmong_eq_ok h x (List.range graph.size)
    fun y hy => List.mem_range.mp hy
  refine ⟨frontier, by rw [Removal.frontier, h.graph_eq, hfrontier], fun y => ?_⟩
  rw [hmem, List.mem_range]
  exact and_iff_right_of_imp fun hin => h.lt_size hin.reaches

/-! ## Rounds of frontiers -/

theorem frontierUnion_eq_ok (blocks : List BlockId) (found : BlockSet)
    (hsize : found.size = graph.size) :
    ∃ union, removal.frontierUnion blocks found = .ok union ∧ union.size = graph.size ∧
      ∀ y, union.contains y = true ↔
        found.contains y = true ∨ ∃ x ∈ blocks, graph.InFrontier head x y := by
  induction blocks generalizing found with
  | nil => exact ⟨found, rfl, hsize, by simp⟩
  | cons block blocks ih =>
    obtain ⟨frontier, hfrontier, hmem⟩ := frontier_eq_ok h block
    have hlt : ∀ y ∈ frontier, y < found.size := fun y hy => by
      rw [hsize]
      exact h.lt_size ((hmem y).mp hy).reaches
    obtain ⟨union, hunion, hunionSize, hiff⟩ := ih (found.insertAll frontier)
      (by rw [BlockSet.size_insertAll, hsize])
    refine ⟨union, by simp only [frontierUnion, hfrontier, hunion], hunionSize, fun y => ?_⟩
    rw [hiff, BlockSet.contains_insertAll_iff hlt, hmem, List.exists_mem_cons_iff]
    tauto

/-- From a set that the next round does not shrink, with a round for every block that can
still be found, the rounds end with the iterated frontier. -/
theorem iterate_eq_ok (blocks : List BlockId) (count : Nat) (found : BlockSet)
    (hsize : found.size = graph.size)
    (hinside : ∀ y, found.contains y = true →
      graph.IteratedFrontier head {x | x ∈ blocks} y)
    (hgrows : ∀ y, found.contains y = true →
      ∃ x ∈ blocks ++ found.toList, graph.InFrontier head x y)
    (hcount : graph.size < count + found.toList.length) :
    ∃ final, removal.iterate blocks count found = .ok final ∧
      ∀ y, final.contains y = true ↔ graph.IteratedFrontier head {x | x ∈ blocks} y := by
  induction count generalizing found with
  | zero =>
    have hle := found.length_toList_le
    omega
  | succ count ih =>
    have hempty : (BlockSet.empty graph.size).size = graph.size := by
      simp [BlockSet.empty, BlockSet.size]
    obtain ⟨next, hnext, hnextSize, hiff⟩ :=
      frontierUnion_eq_ok h (blocks ++ found.toList) (BlockSet.empty graph.size) hempty
    simp only [BlockSet.contains_empty, Bool.false_eq_true, false_or] at hiff
    simp only [iterate, h.graph_eq, hnext]
    by_cases hsame : next = found
    · -- a round that finds nothing new is closed under frontiers
      rw [if_pos hsame]
      refine ⟨found, rfl, fun y => ⟨hinside y, fun hy => ?_⟩⟩
      have hclosed : ∀ x ∈ blocks ++ found.toList, ∀ y, graph.InFrontier head x y →
          found.contains y = true := fun x hx y hin => hsame ▸ (hiff y).mpr ⟨x, hx, hin⟩
      show y ∈ {y | found.contains y = true}
      refine hy.subset_of_closed ?_ ?_
      · exact fun x hx y hin => hclosed x (List.mem_append_left _ hx) y hin
      · exact fun x hx y hin =>
          hclosed x (List.mem_append_right _ (BlockSet.mem_toList_iff.mpr hx)) y hin
    · rw [if_neg hsame]
      have hmore : ∀ y, found.contains y = true → next.contains y = true := fun y hy =>
        (hiff y).mpr (hgrows y hy)
      have hlength := BlockSet.length_toList_lt (hsize.trans hnextSize.symm) hmore hsame
      refine ih next hnextSize (fun y hy => ?_) (fun y hy => ?_) (by omega)
      · obtain ⟨x, hx, hin⟩ := (hiff y).mp hy
        rcases List.mem_append.mp hx with hx | hx
        · exact .base hx hin
        · exact .next (hinside x (BlockSet.mem_toList_iff.mp hx)) hin
      · obtain ⟨x, hx, hin⟩ := (hiff y).mp hy
        refine ⟨x, ?_, hin⟩
        rcases List.mem_append.mp hx with hx | hx
        · exact List.mem_append_left _ hx
        · refine List.mem_append_right _ (BlockSet.mem_toList_iff.mpr ?_)
          exact hmore x (BlockSet.mem_toList_iff.mp hx)

theorem iteratedFrontier_eq_ok (blocks : List BlockId) :
    ∃ frontier, removal.iteratedFrontier blocks = .ok frontier ∧
      ∀ y, y ∈ frontier ↔ graph.IteratedFrontier head {x | x ∈ blocks} y := by
  have hempty : (BlockSet.empty graph.size).size = graph.size := by
    simp [BlockSet.empty, BlockSet.size]
  obtain ⟨final, hfinal, hiff⟩ := iterate_eq_ok h blocks (graph.size + 1)
    (BlockSet.empty graph.size) hempty (by simp) (by simp) (by omega)
  refine ⟨final.toList, ?_, fun y => BlockSet.mem_toList_iff.trans (hiff y)⟩
  rw [iteratedFrontier, h.graph_eq, hfinal]
  rfl

end Queries

/-! ## Agreement -/

/-- The two analyses answer every query about blocks of the graph alike. Lists of blocks
are compared as sets. -/
structure Agrees (removal : Removal) (dominance : Dominance) (graph : Graph)
    (head : BlockId) : Prop where
  isReachable : ∀ block < graph.size,
    removal.isReachable block = .ok (dominance.isReachable block)
  dominates : ∀ a, ∀ b < graph.size,
    removal.dominates a b = .ok (dominance.dominates a b)
  immediateDominator? : ∀ block < graph.size,
    removal.immediateDominator? block = .ok (dominance.immediateDominator? block)
  frontier : ∀ x, graph.Reaches head x → ∃ fast slow,
    dominance.frontier x = .ok fast ∧ removal.frontier x = .ok slow ∧
      ∀ y, y ∈ fast ↔ y ∈ slow
  iteratedFrontier : ∀ blocks : List BlockId, (∀ x ∈ blocks, graph.Reaches head x) →
    ∃ fast slow, dominance.iteratedFrontier blocks = .ok fast ∧
      removal.iteratedFrontier blocks = .ok slow ∧ ∀ y, y ∈ fast ↔ y ∈ slow

/-- Both analyses of an existing block of a method with consistent edges succeed, and
they agree. -/
theorem compute_agrees (method : Method) (head : BlockId)
    (hverify : method.verify = .ok ()) (hhead : head < method.size) :
    ∃ dominance removal, Dominance.compute method.graph head = .ok dominance ∧
      compute method.graph head = .ok removal ∧
      removal.Agrees dominance method.graph head := by
  have hmirrored := (Method.verify_eq_ok_iff.mp hverify).mirrored
  rw [← Graph.size_graph] at hhead
  obtain ⟨order, hsearch, -, hok⟩ := Dominance.compute_eq_ok hmirrored hhead
  obtain ⟨removal, hremoval, htables⟩ := compute_eq_ok hmirrored hhead
  refine ⟨_, removal, hok, hremoval, ?_⟩
  constructor
  case isReachable =>
    intro block hblock
    obtain ⟨answer, hanswer, hiff⟩ := isReachable_eq_ok htables hblock
    rw [hanswer, Bool.eq_iff_iff.mpr (hiff.trans (Dominance.isReachable_iff hsearch).symm)]
  case dominates =>
    intro a b hb
    obtain ⟨answer, hanswer, hiff⟩ := dominates_eq_ok htables a hb
    rw [hanswer, Bool.eq_iff_iff.mpr (hiff.trans (Dominance.dominates_iff hsearch).symm)]
  case immediateDominator? =>
    intro block hblock
    obtain ⟨answer, hanswer, hiff⟩ := immediateDominator?_eq_ok htables hblock
    rw [hanswer]
    refine congrArg Except.ok (Option.ext fun a => ?_)
    exact (hiff a).trans (Dominance.immediateDominator?_eq_some_iff hsearch).symm
  case frontier =>
    intro x hx
    obtain ⟨slow, hslow, hmem⟩ := frontier_eq_ok htables x
    refine ⟨_, slow, ?_, hslow, fun y =>
      (Dominance.mem_frontierOf_iff hsearch hx).trans (hmem y).symm⟩
    rw [Dominance.frontier, if_pos ((Dominance.isReachable_iff hsearch).mpr hx)]
  case iteratedFrontier =>
    intro blocks hblocks
    obtain ⟨slow, hslow, hmem⟩ := iteratedFrontier_eq_ok htables blocks
    refine ⟨_, slow, Dominance.iteratedFrontier_eq_ok hsearch hblocks, hslow, fun y => ?_⟩
    exact (Dominance.mem_closeFrontier_iff hsearch hblocks).trans (hmem y).symm

theorem compute_agrees_crossedLoop :
    Dominance.crossedLoop.verify = .ok () ∧ 0 < Dominance.crossedLoop.size ∧
      ∃ dominance removal, Dominance.compute Dominance.crossedLoop.graph 0 = .ok dominance ∧
        compute Dominance.crossedLoop.graph 0 = .ok removal ∧
        removal.Agrees dominance Dominance.crossedLoop.graph 0 :=
  ⟨rfl, by decide, compute_agrees Dominance.crossedLoop 0 rfl (by decide)⟩

end Removal

end MinimalSsa
