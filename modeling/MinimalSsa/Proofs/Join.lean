import Mathlib.Data.List.Chain
import Mathlib.Data.Set.Basic
import Mathlib.Order.Bounds.Defs
import MinimalSsa.Proofs.Frontier

/-!
# Frontiers are where walks join

Two walks from different places join in a block when they have no earlier block in
common. The iterated frontier of some blocks is the least set that holds every block
in which walks from those blocks, from its own members and from outside the method
join. Outside the method is a virtual entry with a single edge, to the head.

Both inclusions are about one idea. Dominance does not end between two definitions:
along an edge into a block that is in no frontier of a set, the members of the set
that dominate the source are those that strictly dominate the target. So along a
walk the last member of the set stays the closest one above, and two walks to the
same block have the same last member.

* `Graph.EntryEdge`, `Graph.EntryWalk`: the graph with its virtual entry, and walks in
  it with at least one edge.
* `Graph.last_source_unique`: the last members of a closed set on two walks to a block
  outside its frontiers are the same.
* `Graph.Converge`, `Graph.JoinClosed`: walks that join, and the sets that hold all
  joins.
* `Graph.isLeast_joinClosed`: the iterated frontier is the least such set.
* `Dominance.iteratedFrontier_isLeast_joins`: so is the answer to a query.
-/

namespace MinimalSsa

namespace Graph

variable {graph : Graph} {head x y z d : BlockId} {region : Set BlockId}
variable {source target : Option BlockId} {between : List (Option BlockId)}

/-! ## The virtual entry -/

/-- The edges of the graph, and one from the virtual entry `none` to the head. -/
def EntryEdge (graph : Graph) (head : BlockId) : Option BlockId → Option BlockId → Prop
  | none, some target => target = head
  | some source, some target => target ∈ graph.successors source
  | _, none => False

/-- A walk with at least one edge, from `source` over the nodes `between` to `target`. -/
def EntryWalk (graph : Graph) (head : BlockId) (source : Option BlockId)
    (between : List (Option BlockId)) (target : Option BlockId) : Prop :=
  (source :: between ++ [target]).IsChain (graph.EntryEdge head)

/-- The virtual entry and the blocks that the head reaches. -/
def Entered (graph : Graph) (head : BlockId) : Option BlockId → Prop
  | none => True
  | some block => graph.Reaches head block

theorem Entered.step (h : graph.Entered head source)
    (hedge : graph.EntryEdge head source target) : graph.Entered head target := by
  cases target with
  | none => trivial
  | some target =>
    cases source with
    | none =>
      obtain rfl : target = head := hedge
      exact Reaches.refl graph target
    | some source => exact Reaches.step h hedge

/-- `d` dominates the node; nothing dominates the virtual entry. -/
def Covers (graph : Graph) (head d : BlockId) : Option BlockId → Prop
  | none => False
  | some block => graph.Dominates head d block

/-! ## The last member of a closed set -/

/-- A set that holds the frontiers of its members. -/
def FrontierClosed (graph : Graph) (head : BlockId) (region : Set BlockId) : Prop :=
  ∀ x ∈ region, ∀ y, graph.InFrontier head x y → y ∈ region

/-- Along an edge into a block outside the frontier of `d`, dominance of the source is
strict dominance of the target. -/
theorem covers_iff_of_edge (hsource : graph.Entered head source)
    (hedge : graph.EntryEdge head source (some z)) (hz : ¬ graph.InFrontier head d z) :
    graph.Covers head d source ↔ graph.StrictlyDominates head d z := by
  cases source with
  | none =>
    obtain rfl : z = head := hedge
    exact ⟨fun h => h.elim, fun h => absurd rfl h.ne_head⟩
  | some source =>
    refine ⟨fun hdom => ?_, fun hstrict => hstrict.of_edge hedge hsource⟩
    by_contra hnot
    exact hz ⟨⟨source, hedge, hdom⟩, hnot⟩

/-- The same along a walk that meets no member of a closed set on its way. -/
theorem covers_iff_of_walk (hclosed : graph.FrontierClosed head region) (hd : d ∈ region)
    (hz : ¬ graph.InFrontier head d z) (hsource : graph.Entered head source)
    (hwalk : graph.EntryWalk head source between (some z))
    (hbetween : ∀ block ∈ region, some block ∉ between) :
    graph.Covers head d source ↔ graph.StrictlyDominates head d z := by
  induction between generalizing source with
  | nil => exact covers_iff_of_edge hsource (List.isChain_pair.mp hwalk) hz
  | cons node between ih =>
    obtain ⟨hedge, hrest⟩ := List.isChain_cons_cons.mp hwalk
    cases node with
    | none => cases source <;> exact hedge.elim
    | some block =>
      have hblock : block ∉ region := fun hmem => hbetween block hmem List.mem_cons_self
      have hne : d ≠ block := fun heq => hblock (heq ▸ hd)
      have hstep := covers_iff_of_edge hsource hedge fun hin => hblock (hclosed d hd block hin)
      rw [hstep, ← ih (hsource.step hedge) hrest fun other hother hmem =>
        hbetween other hother (List.mem_cons_of_mem _ hmem)]
      exact and_iff_right hne

/-- The virtual entry and the members of a set. -/
def IsSource (region : Set BlockId) : Option BlockId → Prop
  | none => True
  | some block => block ∈ region

/-- The last members of a closed set, or the virtual entry, on two walks to a block that
is in no frontier of the set are the same. -/
theorem last_source_unique (hclosed : graph.FrontierClosed head region)
    (hreach : ∀ d ∈ region, graph.Reaches head d)
    (hz : ∀ d ∈ region, ¬ graph.InFrontier head d z) {first second : Option BlockId}
    {firsts seconds : List (Option BlockId)} (hfirst : IsSource region first)
    (hsecond : IsSource region second)
    (hfirstWalk : graph.EntryWalk head first firsts (some z))
    (hsecondWalk : graph.EntryWalk head second seconds (some z))
    (hfirsts : ∀ node ∈ firsts, ¬ IsSource region node)
    (hseconds : ∀ node ∈ seconds, ¬ IsSource region node) : first = second := by
  have hentered : ∀ node, IsSource region node → graph.Entered head node := by
    intro node hnode
    cases node with
    | none => trivial
    | some d => exact hreach d hnode
  -- members that dominate the two ends are the strict dominators of `z` among them
  have hsame : ∀ d ∈ region, graph.Covers head d first ↔ graph.Covers head d second := by
    intro d hd
    rw [covers_iff_of_walk hclosed hd (hz d hd) (hentered _ hfirst) hfirstWalk
        fun block hblock hmem => hfirsts _ hmem hblock,
      covers_iff_of_walk hclosed hd (hz d hd) (hentered _ hsecond) hsecondWalk
        fun block hblock hmem => hseconds _ hmem hblock]
  cases first with
  | none =>
    cases second with
    | none => rfl
    | some e => exact ((hsame e hsecond).mpr (Dominates.refl (hreach e hsecond))).elim
  | some d =>
    have hde := (hsame d hfirst).mp (Dominates.refl (hreach d hfirst))
    cases second with
    | none => exact hde.elim
    | some e =>
      have hed := (hsame e hsecond).mpr (Dominates.refl (hreach e hsecond))
      exact congrArg some (Dominates.antisymm hde hed)

/-- Where some node of a list has a property, there is a last one. -/
theorem exists_last {α : Type} {property : α → Prop} {nodes : List α}
    (h : ∃ node ∈ nodes, property node) :
    ∃ before node after, nodes = before ++ node :: after ∧ property node ∧
      ∀ other ∈ after, ¬ property other := by
  induction nodes with
  | nil =>
    obtain ⟨node, hmem, -⟩ := h
    exact absurd hmem List.not_mem_nil
  | cons first rest ih =>
    by_cases hrest : ∃ node ∈ rest, property node
    · obtain ⟨before, node, after, rfl, hnode, hafter⟩ := ih hrest
      exact ⟨first :: before, node, after, rfl, hnode, hafter⟩
    · obtain ⟨node, hmem, hnode⟩ := h
      rcases List.mem_cons.mp hmem with rfl | hmem
      · exact ⟨[], node, rest, rfl, hnode, fun other hother hp => hrest ⟨other, hother, hp⟩⟩
      · exact absurd ⟨node, hmem, hnode⟩ hrest

/-! ## Joins -/

/-- Two walks that join in `z`: if the `i`-th node of one is the `l`-th node of the other,
then at least one of the two is the end of its walk. -/
structure Converge (graph : Graph) (head : BlockId) (x y z : Option BlockId)
    (xs ys : List (Option BlockId)) : Prop where
  left : graph.EntryWalk head x xs z
  right : graph.EntryWalk head y ys z
  apart : ∀ i l node, (x :: xs ++ [z])[i]? = some node → (y :: ys ++ [z])[l]? = some node →
    i = xs.length + 1 ∨ l = ys.length + 1

/-- A set that holds every node in which two walks from different nodes join, where the
walks start at `blocks`, at the virtual entry, or at members of the set. -/
def JoinClosed (graph : Graph) (head : BlockId) (blocks : Set BlockId)
    (joins : Set (Option BlockId)) : Prop :=
  ∀ x y z xs ys, x ∈ insert none (some '' blocks ∪ joins) →
    y ∈ insert none (some '' blocks ∪ joins) → x ≠ y →
    graph.Converge head x y z xs ys → z ∈ joins

/-- The nodes of a walk after its last source, up to its end. -/
theorem EntryWalk.exists_last_source
    (hwalk : graph.EntryWalk head source between target) (hsource : IsSource region source) :
    ∃ before last after, source :: between = before ++ last :: after ∧ IsSource region last ∧
      (∀ node ∈ after, ¬ IsSource region node) ∧ graph.EntryWalk head last after target := by
  obtain ⟨before, last, after, hsplit, hlast, hafter⟩ :=
    exists_last ⟨source, List.mem_cons_self, hsource⟩
  refine ⟨before, last, after, hsplit, hlast, hafter, ?_⟩
  have hchain : (before ++ (last :: after ++ [target])).IsChain (graph.EntryEdge head) := by
    rw [← List.append_assoc, ← hsplit]
    exact hwalk
  exact hchain.right_of_append

/-- No edge leads to the virtual entry. -/
theorem EntryWalk.exists_target (hwalk : graph.EntryWalk head source between target) :
    ∃ block, target = some block := by
  induction between generalizing source with
  | nil =>
    have hedge : graph.EntryEdge head source target := List.isChain_pair.mp hwalk
    cases target with
    | none => cases source <;> exact hedge.elim
    | some block => exact ⟨block, rfl⟩
  | cons node between ih => exact ih (List.isChain_cons_cons.mp hwalk).2

/-- Every join is in the iterated frontier. -/
theorem joinClosed_iteratedFrontier {blocks : Set BlockId}
    (hblocks : ∀ x ∈ blocks, graph.Reaches head x) :
    graph.JoinClosed head blocks (some '' {y | graph.IteratedFrontier head blocks y}) := by
  intro x y z xs ys hx hy hne hjoin
  obtain ⟨z, rfl⟩ := hjoin.left.exists_target
  by_contra hnot
  -- 1. the blocks together with their iterated frontier are closed
  let region : Set BlockId := blocks ∪ {y | graph.IteratedFrontier head blocks y}
  have hclosed : graph.FrontierClosed head region := fun d hd y hin =>
    .inr (IteratedFrontier.of_inFrontier hd hin)
  have hz : ∀ d ∈ region, ¬ graph.InFrontier head d z := fun d hd hin =>
    hnot ⟨z, IteratedFrontier.of_inFrontier hd hin, rfl⟩
  have hreach : ∀ d ∈ region, graph.Reaches head d := by
    rintro d (hd | hd)
    · exact hblocks d hd
    · exact hd.reaches
  have hsources : ∀ node, node ∈ insert none (some '' blocks ∪
      some '' {y | graph.IteratedFrontier head blocks y}) → IsSource region node := by
    rintro node (rfl | ⟨d, hd, rfl⟩ | ⟨d, hd, rfl⟩)
    · trivial
    · exact .inl hd
    · exact .inr hd
  -- 2. the last sources of the two walks are one node
  obtain ⟨before, last, after, hsplit, hlast, hafter, hwalk⟩ :=
    hjoin.left.exists_last_source (hsources x hx)
  obtain ⟨before', last', after', hsplit', hlast', hafter', hwalk'⟩ :=
    hjoin.right.exists_last_source (hsources y hy)
  obtain rfl : last = last' :=
    last_source_unique hclosed hreach hz hlast hlast' hwalk hwalk' hafter hafter'
  -- 3. so the walks have met before their ends
  have hlength := congrArg List.length hsplit
  have hlength' := congrArg List.length hsplit'
  simp only [List.length_cons, List.length_append] at hlength hlength'
  have hends := hjoin.apart before.length before'.length last (by simp [hsplit])
    (by simp [hsplit'])
  omega

/-- The blocks of a walk as nodes. -/
theorem Walk.isChain (head : BlockId) {first : BlockId} {visited : List BlockId}
    (h : graph.Walk first z visited) :
    (visited.map some).IsChain (graph.EntryEdge head) := by
  induction h with
  | here block => exact List.isChain_singleton _
  | step hedge htail ih =>
    obtain ⟨rest, rfl⟩ := htail.eq_cons
    exact List.isChain_cons_cons.mpr ⟨hedge, ih⟩

/-- A walk from the head starts at the virtual entry. -/
theorem Walk.entryWalk {before : List BlockId} (h : graph.Walk head z (before ++ [z])) :
    graph.EntryWalk head none (before.map some) (some z) := by
  have hchain := h.isChain head
  obtain ⟨rest, hrest⟩ := h.eq_cons
  have hnodes : before.map some ++ [some z] = some head :: rest.map some := by
    simpa using congrArg (List.map some) hrest
  show (none :: (before.map some ++ [some z])).IsChain (graph.EntryEdge head)
  rw [hrest, List.map_cons] at hchain
  rw [hnodes]
  exact List.isChain_cons_cons.mpr ⟨rfl, hchain⟩

/-- A block that does not strictly dominate `z` can be avoided on the way to `z`. -/
theorem exists_walk_avoiding (hz : graph.Reaches head z)
    (hnot : ¬ graph.StrictlyDominates head x z) :
    ∃ before, graph.Walk head z (before ++ [z]) ∧ x ∉ before := by
  by_cases heq : x = z
  · -- stop at the first visit
    subst heq
    obtain ⟨visited, hwalk⟩ := hz
    obtain ⟨before, after, rfl, hfirst⟩ := List.eq_append_cons_of_mem hwalk.target_mem
    exact ⟨before, hwalk.split.1, hfirst⟩
  · have hdom : ¬ graph.Dominates head x z := fun hdom => hnot ⟨heq, hdom⟩
    obtain ⟨visited, hwalk, hmem⟩ : ∃ visited, graph.Walk head z visited ∧ x ∉ visited := by
      by_contra hall
      refine hdom ⟨hz, fun visited hwalk => ?_⟩
      by_contra hmem
      exact hall ⟨visited, hwalk, hmem⟩
    rcases hwalk.last_step with ⟨rfl, rfl⟩ | ⟨pred, before, rfl, -, -⟩
    · exact ⟨[], hwalk, List.not_mem_nil⟩
    · exact ⟨before, hwalk, fun hin => hmem (List.mem_append_left _ hin)⟩

/-- From a dominator there is a walk that does not come back to it. -/
theorem Dominates.exists_walk_leaving (h : graph.Dominates head x y) :
    ∃ after, graph.Walk x y (x :: after) ∧ x ∉ after := by
  obtain ⟨⟨visited, hwalk⟩, hall⟩ := h
  obtain ⟨before, node, after, rfl, hnode, hafter⟩ :=
    exists_last ⟨x, hall visited hwalk, Eq.refl x⟩
  subst hnode
  exact ⟨after, hwalk.split.2, fun hmem => hafter x hmem rfl⟩

theorem mem_of_getElem?_concat {α : Type} {nodes : List α} {last node : α} {i : Nat}
    (h : (nodes ++ [last])[i]? = some node) (hne : i ≠ nodes.length) : node ∈ nodes := by
  have hlt : i < nodes.length + 1 := by simpa using (List.getElem?_eq_some_iff.mp h).1
  rw [List.getElem?_append_left (by omega)] at h
  exact List.mem_of_getElem? h

/-- The dominance of `x` ends at `z` only where a walk from `x` and one from outside
join. -/
theorem InFrontier.converge (h : graph.InFrontier head x z) :
    ∃ xs ys, graph.Converge head (some x) none (some z) xs ys := by
  have hreach := h.reaches
  obtain ⟨⟨pred, hedge, hdom⟩, hnot⟩ := h
  obtain ⟨before, hto, havoid⟩ := exists_walk_avoiding hreach hnot
  obtain ⟨after, hfrom, hleave⟩ := hdom.exists_walk_leaving
  -- a block on both ways would give a way around `x` to the predecessor
  have hapart : ∀ u ∈ x :: after, u ∉ before := by
    intro u hu hmem
    have hne : x ≠ u := fun heq => havoid (heq ▸ hmem)
    obtain ⟨early, late, rfl⟩ := List.append_of_mem hmem
    obtain ⟨front, back, rfl⟩ :=
      List.append_of_mem ((List.mem_cons.mp hu).resolve_left (Ne.symm hne))
    rw [List.append_assoc, List.cons_append] at hto
    rw [← List.cons_append] at hfrom
    have haround := hto.split.1.append hfrom.split.2
    have hx := hdom.2 _ haround
    simp only [List.mem_append, List.mem_cons, List.not_mem_nil, or_false] at hx havoid hleave
    tauto
  refine ⟨after.map some, before.map some, ?_, hto.entryWalk, ?_⟩
  · have hchain := Walk.isChain head (hfrom.snoc hedge)
    simpa [EntryWalk] using hchain
  · -- a node on both walks before their ends is a block on both ways
    intro i l node hi hl
    by_contra hends
    obtain ⟨hiEnd, hlEnd⟩ := not_or.mp hends
    have hleft : node ∈ (x :: after).map some := mem_of_getElem?_concat hi hiEnd
    obtain ⟨u, hu, rfl⟩ := List.mem_map.mp hleft
    have hright : some u ∈ none :: before.map some := mem_of_getElem?_concat hl hlEnd
    have hmem : u ∈ before := by simpa using hright
    exact hapart u hu hmem

/-- The iterated frontier is the least set that holds every join. -/
theorem isLeast_joinClosed {blocks : Set BlockId}
    (hblocks : ∀ x ∈ blocks, graph.Reaches head x) :
    IsLeast {joins | graph.JoinClosed head blocks joins}
      (some '' {y | graph.IteratedFrontier head blocks y}) := by
  refine ⟨joinClosed_iteratedFrontier hblocks, fun joins hclosed => ?_⟩
  rintro _ ⟨z, hz, rfl⟩
  -- each frontier step is a join with a walk from outside
  induction hz with
  | base hmem hfrontier =>
    obtain ⟨xs, ys, hjoin⟩ := hfrontier.converge
    refine hclosed _ _ _ xs ys (.inr (.inl ⟨_, hmem, rfl⟩)) (.inl rfl) ?_ hjoin
    exact Option.some_ne_none _
  | next _ hfrontier ih =>
    obtain ⟨xs, ys, hjoin⟩ := hfrontier.converge
    refine hclosed _ _ _ xs ys (.inr (.inr ih)) (.inl rfl) ?_ hjoin
    exact Option.some_ne_none _

end Graph

namespace Dominance

/-- The iterated frontier of reachable blocks, as it is computed, is the least set that
holds every join of walks from those blocks, from the virtual entry and from itself. -/
theorem iteratedFrontier_isLeast_joins (method : Method) (head : BlockId)
    (blocks : List BlockId) (hverify : method.verify = .ok ()) (hhead : head < method.size)
    (hblocks : ∀ block ∈ blocks, method.graph.Reaches head block) :
    ∃ dominance frontier, compute method.graph head = .ok dominance ∧
      dominance.iteratedFrontier blocks = .ok frontier ∧
      IsLeast {joins | method.graph.JoinClosed head {block | block ∈ blocks} joins}
        (some '' {block | block ∈ frontier}) := by
  have hmirrored := (Method.verify_eq_ok_iff.mp hverify).mirrored
  rw [← Graph.size_graph] at hhead
  obtain ⟨order, hsearch, -, hok⟩ := compute_eq_ok hmirrored hhead
  refine ⟨_, _, hok, iteratedFrontier_eq_ok hsearch hblocks, ?_⟩
  simp only [mem_closeFrontier_iff hsearch hblocks]
  exact Graph.isLeast_joinClosed hblocks

theorem crossedLoop_reaches : ∀ block ∈ [1, 2], crossedLoop.graph.Reaches 0 block := by
  intro block hblock
  refine (Graph.Reaches.refl crossedLoop.graph 0).step ?_
  rw [Graph.successors_graph]
  exact hblock

theorem iteratedFrontier_isLeast_joins_crossedLoop :
    crossedLoop.verify = .ok () ∧ 0 < crossedLoop.size ∧
      (∀ block ∈ [1, 2], crossedLoop.graph.Reaches 0 block) ∧
      ∃ dominance frontier, compute crossedLoop.graph 0 = .ok dominance ∧
        dominance.iteratedFrontier [1, 2] = .ok frontier ∧
        IsLeast {joins | crossedLoop.graph.JoinClosed 0 {block | block ∈ [1, 2]} joins}
          (some '' {block | block ∈ frontier}) :=
  ⟨rfl, by decide, crossedLoop_reaches,
    iteratedFrontier_isLeast_joins crossedLoop 0 [1, 2] rfl (by decide) crossedLoop_reaches⟩

end Dominance

end MinimalSsa
