import MinimalSsa.Proofs.Repetition
import MinimalSsa.Proofs.Tree

/-!
# Placement always answers

Once the edges are checked, placement reads tables at blocks that other tables name, and
repeats sweeps, climbs and rounds up to a bound. Neither is a way to fail. The tables have
an entry for every block and name no others, also midway through a sweep; and each loop
comes to its end within the bound, so a higher bound gives the same. What is left are the
two checks, which come before anything is changed.

* `Parents.Bounded`, `Dominance.Bounded`: tables that name no missing block;
  `Dominance.InRange`: so no query looks one up.
* `Graph.Swept`: the tables that the sweeps pass through.
* `Dominance.Settled`: no loop of an analysis is cut off by its bound.
* `Sites.settle_eq_of_lt`: nor are the rounds over the heads.
* `Method.Orphaned`, `Placement.run_eq_error_iff`: when placement fails, and how.
* `Placement.run_total_and_atomic`: all of it, for any method at all.
-/

namespace MinimalSsa

/-! ## Climbs -/

namespace Parents

variable {parents : Parents} {positions : Positions} {head a b block : BlockId}

/-- The table has an entry for each of `size` blocks and names no other block. -/
structure Bounded (parents : Parents) (size : Nat) : Prop where
  size_eq : parents.size = size
  parent_lt : ∀ block parent, parents.parent? block = some parent → parent < size

theorem Bounded.chainUpTo_lt {size : Nat} (h : parents.Bounded size) (hblock : block < size)
    (count : Nat) : ∀ runner ∈ parents.chainUpTo count block, runner < size := by
  induction count generalizing block with
  | zero => simp [chainUpTo]
  | succ count ih =>
    rw [chainUpTo, List.forall_mem_cons]
    refine ⟨hblock, ?_⟩
    cases hparent : parents.parent? block with
    | none => simp
    | some parent => exact ih (h.parent_lt block parent hparent)

/-- Two blocks meet within the bound: further climbs would find them there already. -/
theorem Rooted.meetUpTo_eq_meet (h : parents.Rooted positions head)
    (ha : (parents.parent? a).isSome) (hb : (parents.parent? b).isSome) {count : Nat}
    (hcount : 2 * parents.size ≤ count) :
    parents.meetUpTo positions count a b = parents.meet positions a b := by
  have hheights : parents.height positions a + parents.height positions b ≤ count := by
    have hlea : parents.height positions a ≤ parents.size := height_le_size
    have hleb : parents.height positions b ≤ parents.size := height_le_size
    omega
  have hfirst : a = a ∨ a = b := .inl rfl
  exact h.isMeet_unique (h.isMeet_meetUpTo count a b ha hb hheights) (h.isMeet_meet ha hb)
    hfirst ha

end Parents

/-! ## Sweeps -/

namespace Graph

variable {graph : Graph} {head : BlockId} {order : List BlockId} {parents : Parents}

theorem Tentative.bounded (h : graph.Tentative head order parents) :
    parents.Bounded graph.size where
  size_eq := h.size_eq
  parent_lt block parent hparent := by
    rw [← h.size_eq]
    exact Parents.lt_size_of_isSome (h.rooted.parent_isSome block parent hparent)

/-- Updating a part of the order, when the blocks before it have entries. -/
theorem Tentative.foldl_update_front (hsearch : graph.Searched head order)
    (h : graph.Tentative head order parents) {done front back : List BlockId}
    (horder : order = done ++ (front ++ back)) (hhead : head ∈ done)
    (hdone : ∀ block ∈ done, (parents.parent? block).isSome) :
    graph.Tentative head order
      (front.foldl (Parents.update graph (Positions.ofOrder graph.size order)) parents) := by
  induction front generalizing done parents with
  | nil => exact h
  | cons block front ih =>
    obtain ⟨-, -, -, -, -, hnext, hdone'⟩ := h.update_next hsearch horder hhead hdone
    exact ih hnext (by simpa using horder) (List.mem_append_left _ hhead) hdone'

/-- A table that the sweeps pass through: after some of them and a part of the next. -/
def Swept (graph : Graph) (head : BlockId) (order : List BlockId) (parents : Parents) : Prop :=
  ∃ count front back, order.tail = front ++ back ∧
    parents = front.foldl (Parents.update graph (Positions.ofOrder graph.size order))
      (graph.sweeps head order count)

theorem Swept.tentative (hsearch : graph.Searched head order)
    (h : graph.Swept head order parents) : graph.Tentative head order parents := by
  obtain ⟨count, front, back, htail, rfl⟩ := h
  have hsweeps := sweeps_tentative hsearch count
  obtain ⟨rest, hrest⟩ := hsearch.first
  have horder : order = [head] ++ (front ++ back) := by
    rw [hrest, List.tail_cons] at htail
    rw [hrest, htail, List.singleton_append]
  refine hsweeps.foldl_update_front hsearch horder (List.mem_singleton_self head) ?_
  intro block hblock
  rw [List.mem_singleton.mp hblock, hsweeps.rooted.root]
  rfl

/-- The sweeps settle within their bound. -/
theorem settle_eq_rounds (hsearch : graph.Searched head order) {count : Nat}
    (hcount : Parents.rounds graph.size ≤ count) :
    Parents.settle graph (Positions.ofOrder graph.size order) order.tail count
        (Parents.start graph.size head) =
      Parents.settle graph (Positions.ofOrder graph.size order) order.tail
        (Parents.rounds graph.size) (Parents.start graph.size head) := by
  have hsize : graph.size ≤ 2 * graph.size * graph.size :=
    Nat.le_of_lt_succ (size_lt_rounds graph.size)
  obtain ⟨more, rfl⟩ := Nat.exists_eq_add_of_le' hcount
  rw [settle_eq_iterate, settle_eq_iterate, Function.iterate_add_apply]
  exact Function.iterate_fixed (sweep_sweeps hsearch hsize) more

end Graph

/-! ## An analysis -/

namespace Dominance

variable {graph : Graph} {head : BlockId} {order : List BlockId}

/-- The tables of an analysis have an entry for every block of the graph and name no other
block, and so have those that the sweeps went through. -/
structure Bounded (dominance : Dominance) (graph : Graph) : Prop where
  order_lt : ∀ block ∈ dominance.order, block < graph.size
  size_positions : dominance.positions.size = graph.size
  swept : ∀ parents, graph.Swept dominance.head dominance.order parents →
    parents.Bounded graph.size
  parents : dominance.parents.Bounded graph.size
  size_children : dominance.children.size = graph.size
  size_frontiers : dominance.frontiers.size = graph.size
  frontier_lt : ∀ block, ∀ member ∈ dominance.frontierOf block, member < graph.size

/-- No loop of an analysis is cut off by its bound: neither the sweeps, nor the climbs from
two blocks to their meeting point, nor the way up from a block. -/
structure Settled (dominance : Dominance) (graph : Graph) : Prop where
  sweeps : ∀ count, Parents.rounds graph.size ≤ count →
    Parents.settle graph dominance.positions dominance.order.tail count
        (Parents.start graph.size dominance.head) =
      Parents.settle graph dominance.positions dominance.order.tail
        (Parents.rounds graph.size) (Parents.start graph.size dominance.head)
  climbs : ∀ parents, graph.Swept dominance.head dominance.order parents →
    ∀ a b, (parents.parent? a).isSome → (parents.parent? b).isSome →
      ∀ count, 2 * graph.size ≤ count →
        parents.meetUpTo dominance.positions count a b = parents.meet dominance.positions a b
  chains : ∀ block, dominance.isReachable block = true → ∀ count, graph.size ≤ count →
    dominance.parents.chainUpTo count block = dominance.parents.chain block

theorem bounded_ofOrder (hsearch : graph.Searched head order) :
    (ofOrder graph head order).Bounded graph := by
  have htree := Graph.parents_isDominatorTree hsearch
  constructor
  case order_lt => exact fun block => hsearch.lt_size
  case size_positions => exact Positions.size_ofOrder
  case swept => exact fun parents hswept => (hswept.tentative hsearch).bounded
  case parents =>
    refine ⟨htree.size_eq, fun block parent hparent => ?_⟩
    have hdom := (htree.immediate block parent hparent).1.2
    exact hsearch.lt_size ((hsearch.mem_iff parent).mpr hdom.reaches)
  case size_children =>
    exact (Parents.size_children (graph.parents head order) order).trans htree.size_eq
  case size_frontiers => exact size_frontiers_ofOrder graph head order
  case frontier_lt => exact fun block member => lt_size_of_mem_frontierOf hsearch

theorem bounded_of_compute {dominance : Dominance} (hmirrored : graph.Mirrored)
    (h : compute graph head = .ok dominance) : dominance.Bounded graph := by
  obtain ⟨order, hsearch, -, hok⟩ := compute_eq_ok hmirrored (lt_size_of_compute h)
  obtain rfl := Except.ok.inj (h.symm.trans hok)
  exact bounded_ofOrder hsearch

/-- All that the queries of an analysis look up is there: the way up from a reachable block,
the frontier of a reachable block, and in the two sets of a search the blocks it begins with
and those it meets. -/
structure InRange (dominance : Dominance) : Prop where
  chain_lt : ∀ block, dominance.isReachable block = true →
    ∀ runner ∈ dominance.parents.chain block, runner < dominance.parents.size
  reachable_lt : ∀ block, dominance.isReachable block = true →
    block < dominance.frontiers.size
  frontier_lt : ∀ block, ∀ member ∈ dominance.frontierOf block,
    member < dominance.frontiers.size
  order_lt : ∀ block ∈ dominance.order,
    block < dominance.parents.size ∧ block < dominance.frontiers.size

theorem Bounded.inRange {dominance : Dominance} (h : dominance.Bounded graph) :
    dominance.InRange := by
  have hreachable : ∀ block, dominance.isReachable block = true → block < graph.size := by
    intro block hblock
    obtain ⟨position, hposition⟩ := Option.isSome_iff_exists.mp hblock
    rw [← h.size_positions]
    exact (Array.getElem?_eq_some_iff.mp (Positions.getElem?_of_position? hposition)).1
  constructor
  case chain_lt =>
    intro block hblock
    rw [h.parents.size_eq]
    exact h.parents.chainUpTo_lt (hreachable block hblock) _
  case reachable_lt =>
    rw [h.size_frontiers]
    exact hreachable
  case frontier_lt =>
    rw [h.size_frontiers]
    exact h.frontier_lt
  case order_lt =>
    rw [h.size_frontiers, h.parents.size_eq]
    exact fun block hblock => ⟨h.order_lt block hblock, h.order_lt block hblock⟩

theorem settled_ofOrder (hsearch : graph.Searched head order) :
    (ofOrder graph head order).Settled graph := by
  constructor
  case sweeps => exact fun count => Graph.settle_eq_rounds hsearch
  case climbs =>
    intro parents hswept a b ha hb count hcount
    have htentative := hswept.tentative hsearch
    rw [← htentative.size_eq] at hcount
    exact htentative.rooted.meetUpTo_eq_meet ha hb hcount
  case chains =>
    exact fun block hblock count =>
      chainUpTo_eq_chain hsearch ((isReachable_iff hsearch).mp hblock)

end Dominance

/-! ## The rounds over the heads -/

/-- The rounds are over once no block can be added, within any bound that allows for all
of them. -/
theorem Sites.settle_eq_of_lt {graph : Graph} {analyses : List Dominance}
    (hanalysed : ∀ dominance ∈ analyses, graph.Analysed dominance) (blocks : List BlockId)
    {sites : List BlockId} {count enough : Nat} (hnodup : sites.Nodup)
    (hlt : ∀ y ∈ sites, y < graph.size) (hcount : graph.size < count + sites.length)
    (henough : graph.size < enough + sites.length) :
    settle analyses blocks count sites = settle analyses blocks enough sites := by
  have hlength := length_le_size hnodup hlt
  induction count generalizing sites enough with
  | zero => omega
  | succ count ih =>
    cases enough with
    | zero => omega
    | succ enough =>
      obtain ⟨grown, hok, hgrows, -⟩ := visitAll_grows hanalysed
        (fun dominance hmem => List.mem_map_of_mem hmem) blocks sites
      have hle := hgrows.length_le
      have hnodup' := hgrows.nodup hnodup
      have hlt' := hgrows.lt_size hlt
      simp only [settle, hok]
      by_cases hsame : grown.length = sites.length
      · rw [if_pos hsame, if_pos hsame]
      · rw [if_neg hsame, if_neg hsame]
        exact ih hnodup' hlt' (by omega) (by omega) (length_le_size hnodup' hlt')

/-! ## The two checks -/

namespace Method

variable {method : Method}

/-- No head reaches the block. -/
def Orphaned (method : Method) (block : BlockId) : Prop :=
  block < method.size ∧ ∀ head ∈ method.heads, ¬ method.graph.Reaches head block

/-- The check of the edges finds missing blocks and unequal counts. -/
theorem verify_error_cases {violation : Violation} (h : method.verify = .error violation) :
    (∃ block target, violation = .missingBlock block target) ∨
      ∃ source target successors predecessors,
        violation = .inconsistentEdge source target successors predecessors := by
  unfold verify at h
  split at h
  · exact .inl ⟨_, _, (Except.error.inj h).symm⟩
  · split at h
    · exact .inr ⟨_, _, _, _, (Except.error.inj h).symm⟩
    · cases h

/-- Past the edge check, the search for blocks out of reach names the least one first. -/
theorem Consistent.unreachable_cases (hconsistent : method.Consistent) :
    method.unreachable = .ok [] ∧ (∀ block, ¬ method.Orphaned block) ∨
      ∃ block blocks, method.unreachable = .ok (block :: blocks) ∧
        IsLeast {block | method.Orphaned block} block := by
  obtain ⟨blocks, hblocks, hmem⟩ :=
    unreachable_eq_ok hconsistent.mirrored.target_lt hconsistent.head_lt
  have horphaned : ∀ block, block ∈ blocks ↔ method.Orphaned block := by
    intro block
    rw [hmem, Orphaned]
    push Not
    rfl
  cases blocks with
  | nil => exact .inl ⟨hblocks, fun block horphan => absurd ((horphaned block).mpr horphan)
      List.not_mem_nil⟩
  | cons block blocks =>
    refine .inr ⟨block, blocks, hblocks, (horphaned block).mp List.mem_cons_self, ?_⟩
    intro other hother
    rcases List.mem_cons.mp ((horphaned other).mpr hother) with rfl | hrest
    · exact Nat.le_refl other
    · exact Nat.le_of_lt (List.rel_of_pairwise_cons (pairwise_unreachable hblocks) hrest)

end Method

namespace Placement

variable {stats : Stats} {method : Method}

/-- A run fails with what the two checks find, and with nothing else. -/
theorem run_eq_error_iff {failure : Failure} : run stats method = .error failure ↔
    method.heads ≠ [] ∧ method.hasRegions = false ∧
      ∃ violation, failure = .violation violation ∧
        (method.verify = .error violation ∨
          method.verify = .ok () ∧ ∃ block, IsLeast {block | method.Orphaned block} block ∧
            violation = .orphanedBlock block) := by
  rcases attempt_cases stats method with ⟨hskip, event, hattempt⟩ |
    ⟨hheads, hregions, hchecked⟩
  · rw [run, hattempt]
    refine iff_of_false (by simp [Attempt.result]) ?_
    rintro ⟨hheads, hregions, -⟩
    exact hskip.elim hheads (by simp [hregions])
  simp only [ne_eq, hheads, not_false_eq_true, hregions, true_and]
  rcases hchecked with ⟨found, hverify, hattempt⟩ |
    ⟨block, blocks, hconsistent, hblocks, hattempt⟩ | ⟨hconsistent, hnone, hattempt⟩
  · rw [run, hattempt, hverify]
    simp [eq_comm]
  · have hleast : IsLeast {block | method.Orphaned block} block := by
      rcases hconsistent.unreachable_cases with ⟨hnil, -⟩ | ⟨other, others, hothers, hleast⟩
      · cases hblocks.symm.trans hnil
      · obtain ⟨rfl, -⟩ := List.cons.inj (Except.ok.inj (hblocks.symm.trans hothers))
        exact hleast
    rw [run, hattempt, Attempt.result_refuse, Method.verify_eq_ok_iff.mpr hconsistent]
    constructor
    · intro herror
      exact ⟨_, (Except.error.inj herror).symm, .inr ⟨rfl, block, hleast, rfl⟩⟩
    · rintro ⟨violation, rfl, herror | ⟨-, other, hother, rfl⟩⟩
      · cases herror
      · rw [hleast.unique hother]
  · have hall : ∀ block, ¬ method.Orphaned block := by
      rcases hconsistent.unreachable_cases with ⟨-, hall⟩ | ⟨other, others, hothers, -⟩
      · exact hall
      · cases hnone.symm.trans hothers
    obtain ⟨-, out, -, hplace, -, -⟩ := place_eq_ok hconsistent stats
    rw [run, hattempt, ← place, hplace, Method.verify_eq_ok_iff.mpr hconsistent]
    refine iff_of_false (by simp) ?_
    rintro ⟨violation, -, herror | ⟨-, block, hblock, -⟩⟩
    · cases herror
    · exact hall block hblock.1

/-- Placement answers for every method. It fails with what one of its two checks finds, and
then leaves the method and its statistics as they were. Past the first check nothing can
fail any more: all blocks that are looked up are there, and all loops end before their
bounds. -/
theorem run_total_and_atomic (stats : Stats) (method : Method) :
    (∀ fault, run stats method ≠ .error (.fault fault)) ∧
    (∀ block head, run stats method ≠ .error (.violation (.unreachableBlock block head))) ∧
    (∀ violation, run stats method = .error (.violation violation) ↔
      method.heads ≠ [] ∧ method.hasRegions = false ∧
        (method.verify = .error violation ∨
          method.verify = .ok () ∧ ∃ block, IsLeast {block | method.Orphaned block} block ∧
            violation = .orphanedBlock block)) ∧
    (∀ failure, run stats method = .error failure →
      Pass.runPlace stats method = (stats, { method := method, outcome := .error failure })) ∧
    (method.verify = .ok () → ∃ analyses sites out,
      Sites.analyses method.graph method.heads = .ok analyses ∧
      (∀ dominance ∈ analyses,
        dominance.Bounded method.graph ∧ dominance.Settled method.graph) ∧
      (∀ blocks known, ∃ grown, Sites.visitAll blocks analyses known = .ok grown) ∧
      (∀ blocks count, method.size < count →
        Sites.settle analyses blocks count [] =
          Sites.settle analyses blocks (method.size + 1) []) ∧
      Sites.all method (({} : Collector).collect method).1 = .ok sites ∧
      (∀ site ∈ sites, site.1 < method.size) ∧
      place stats method = .ok out) := by
  refine ⟨fun fault hrun => ?_, fun block head hrun => ?_, fun violation => ?_,
    fun failure hrun => ?_, fun hverify => ?_⟩
  · obtain ⟨-, -, violation, hfailure, -⟩ := run_eq_error_iff.mp hrun
    cases hfailure
  · obtain ⟨-, -, violation, hfailure, hcause⟩ := run_eq_error_iff.mp hrun
    obtain rfl := Failure.violation.inj hfailure
    rcases hcause with herror | ⟨-, orphan, -, horphan⟩
    · rcases Method.verify_error_cases herror with ⟨_, _, hmissing⟩ | ⟨_, _, _, _, hedge⟩
      · cases hmissing
      · cases hedge
    · cases horphan
  · rw [run_eq_error_iff]
    simp
  · exact Pass.runPlace_of_error hrun
  · have hconsistent : method.Consistent := Method.verify_eq_ok_iff.mp hverify
    obtain ⟨analyses, hanalyses, -, hanalysed⟩ :=
      Sites.analyses_eq_ok hconsistent.mirrored hconsistent.head_lt
    obtain ⟨sites, hsites, hlt, -⟩ := Sites.all_eq_ok hconsistent {}
    obtain ⟨-, out, -, hplace, -, -⟩ := place_eq_ok hconsistent stats
    refine ⟨analyses, sites, out, hanalyses, ?_, ?_, ?_, hsites, hlt, hplace⟩
    · intro dominance hdominance
      obtain ⟨head, order, hsearch, rfl⟩ := hanalysed dominance hdominance
      exact ⟨Dominance.bounded_ofOrder hsearch, Dominance.settled_ofOrder hsearch⟩
    · intro blocks known
      obtain ⟨grown, hgrown, -, -⟩ := Sites.visitAll_grows hanalysed
        (fun dominance hmem => List.mem_map_of_mem hmem) blocks known
      exact ⟨grown, hgrown⟩
    · intro blocks count hcount
      rw [← Graph.size_graph] at hcount ⊢
      exact Sites.settle_eq_of_lt hanalysed blocks List.nodup_nil (by simp) hcount (by simp)

/-- The head returns at once, and no head reaches the loop of blocks 1 and 2. -/
def strayLoop : Method where
  name := "stray"
  heads := [0]
  blocks := #[
    { terminator := .ret none },
    { instructions := [.assign 0 0], terminator := .jump 2, preds := [2] },
    { instructions := [.assign 0 1], terminator := .jump 1, preds := [1] }]

theorem run_total_and_atomic_strayLoop :
    run { scanned := 4 } strayLoop = .error (.violation (.orphanedBlock 1)) ∧
      strayLoop.verify = .ok () ∧ IsLeast {block | strayLoop.Orphaned block} 1 ∧
      Pass.runPlace { scanned := 4 } strayLoop = ({ scanned := 4 },
        { method := strayLoop, outcome := .error (.violation (.orphanedBlock 1)) }) ∧
      ∃ out, place { scanned := 4 } strayLoop = .ok out := by
  have hrun : run { scanned := 4 } strayLoop = .error (.violation (.orphanedBlock 1)) := by decide +kernel
  obtain ⟨-, -, hiff, hsame, hlookups⟩ := run_total_and_atomic { scanned := 4 } strayLoop
  have hverify : strayLoop.verify = .ok () := rfl
  obtain ⟨-, -, herror | ⟨-, block, hleast, hblock⟩⟩ := (hiff _).mp hrun
  · cases hverify.symm.trans herror
  · obtain rfl := Violation.orphanedBlock.inj hblock
    obtain ⟨-, -, out, -, -, -, -, -, -, hplace⟩ := hlookups hverify
    exact ⟨hrun, hverify, hleast, hsame _ hrun, out, hplace⟩

end Placement

end MinimalSsa
