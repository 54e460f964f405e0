import Mathlib.Data.Finset.Card
import Mathlib.Data.Finset.Range
import MinimalSsa.Proofs.Numbering

/-!
# The search against the recursive search

The search keeps its path by hand, with the successors that each block on it has yet to
explore. A frame of the path does with its successors what the recursive search does with
a list of blocks, and does it before the frames below are looked at again. So the two
leave blocks in the same order, and what is known of the recursive search by induction
over its calls is known of the order: an edge that leads back in it closes a cycle.

* `Graph.Explored.unique`, `Graph.exists_explored`: the recursive search has one result.
* `Graph.Explored.explore_eq`: a frame does what the recursive search does.
* `Graph.Explored.edge`: where the edges out of a block lead once it is left.
* `Graph.DepthFirst`: the order of a search, by itself and against the recursive search.
* `Method.searches_depthFirst`: the orders from all blocks, and what no head reaches.
-/

namespace MinimalSsa

namespace Graph

variable {graph : Graph} {head block u v : BlockId}
variable {seen blocks post order : List BlockId}

/-! ## The recursive search -/

/-- The recursive search leaves blocks behind in one order only. -/
theorem Explored.unique {other : List BlockId} (h : graph.Explored seen blocks post)
    (hother : graph.Explored seen blocks other) : post = other := by
  induction h generalizing other with
  | done seen =>
    cases hother
    rfl
  | skip hmem _ ih =>
    cases hother with
    | skip _ hrest => exact ih hrest
    | visit hnew _ _ => exact absurd hmem hnew
  | visit hnew _ _ ihbelow ihbeside =>
    cases hother with
    | skip hmem _ => exact absurd hmem hnew
    | visit _ hbelow hbeside =>
      obtain rfl := ihbelow hbelow
      obtain rfl := ihbeside hbeside
      rfl

/-- The blocks of a graph that a search has yet to meet. -/
def unmet (graph : Graph) (seen : List BlockId) : Finset BlockId :=
  (Finset.range graph.size).filter (· ∉ seen)

/-- Every new block leaves fewer of them. -/
theorem card_unmet_lt {more : List BlockId} (hlt : block < graph.size) (hnew : block ∉ seen)
    (hmem : block ∈ more) (hsub : seen ⊆ more) :
    (graph.unmet more).card < (graph.unmet seen).card := by
  refine Finset.card_lt_card (Finset.ssubset_iff_of_subset ?_ |>.mpr ⟨block, ?_, ?_⟩)
  · exact Finset.monotone_filter_right _ fun other _ hother hseen => hother (hsub hseen)
  · exact Finset.mem_filter.mpr ⟨Finset.mem_range.mpr hlt, hnew⟩
  · exact fun hunmet => (Finset.mem_filter.mp hunmet).2 hmem

/-- Where edges lead to blocks, the recursive search comes to its end. -/
theorem exists_explored
    (hclosed : ∀ source target, target ∈ graph.successors source → target < graph.size)
    (hblocks : ∀ block ∈ blocks, block < graph.size) :
    ∃ post, graph.Explored seen blocks post := by
  -- a call further down has fewer blocks to meet, one further on has a shorter list
  induction hcard : (graph.unmet seen).card using Nat.strongRecOn generalizing seen blocks with
  | _ card ihcard =>
    induction blocks with
    | nil => exact ⟨[], .done seen⟩
    | cons block rest ihrest =>
      obtain ⟨hblock, hrest⟩ := List.forall_mem_cons.mp hblocks
      by_cases hmem : block ∈ seen
      · obtain ⟨post, hpost⟩ := ihrest hrest
        exact ⟨post, .skip hmem hpost⟩
      · have hfewer : (graph.unmet (block :: seen)).card < card :=
          hcard ▸ card_unmet_lt hblock hmem List.mem_cons_self (List.subset_cons_self block seen)
        obtain ⟨below, hbelow⟩ := ihcard _ hfewer (hclosed block) rfl
        have hfewer' : (graph.unmet (below ++ block :: seen)).card < card := by
          refine hcard ▸ card_unmet_lt hblock hmem ?_ fun other hother => ?_
          · exact List.mem_append_right _ List.mem_cons_self
          · exact List.mem_append_right _ (List.mem_cons_of_mem _ hother)
        obtain ⟨beside, hbeside⟩ := ihcard _ hfewer' hrest rfl
        exact ⟨_, .visit hmem hbelow hbeside⟩

namespace Explored

/-- The blocks it is given are left behind unless they were met before. -/
theorem covers (h : graph.Explored seen blocks post) :
    ∀ block ∈ blocks, block ∈ seen ∨ block ∈ post := by
  induction h with
  | done seen => exact fun block hblock => absurd hblock List.not_mem_nil
  | skip hmem _ ih => exact List.forall_mem_cons.mpr ⟨.inl hmem, ih⟩
  | @visit seen rest below beside first _ _ _ _ ih =>
    refine List.forall_mem_cons.mpr ⟨.inr (by simp), fun block hblock => ?_⟩
    rcases ih block hblock with hseen | hbeside
    · simp only [List.mem_append, List.mem_cons] at hseen ⊢
      tauto
    · exact .inr (by simp [hbeside])

/-- Whatever is left behind is reached from one of them. -/
theorem reached (h : graph.Explored seen blocks post) :
    ∀ block ∈ post, ∃ source ∈ blocks, graph.Reaches source block := by
  induction h with
  | done seen => exact fun block hblock => absurd hblock List.not_mem_nil
  | skip _ _ ih =>
    intro block hblock
    obtain ⟨source, hsource, hreach⟩ := ih block hblock
    exact ⟨source, List.mem_cons_of_mem _ hsource, hreach⟩
  | @visit seen rest below beside first _ _ _ ihbelow ihbeside =>
    intro block hblock
    rcases List.mem_append.mp hblock with hbelow | hrest
    · obtain ⟨source, hsource, visited, hwalk⟩ := ihbelow block hbelow
      exact ⟨first, List.mem_cons_self, first :: visited, .step hsource hwalk⟩
    · rcases List.mem_cons.mp hrest with rfl | hbeside
      · exact ⟨block, List.mem_cons_self, .refl graph block⟩
      · obtain ⟨source, hsource, hreach⟩ := ihbeside block hbeside
        exact ⟨source, List.mem_cons_of_mem _ hsource, hreach⟩

/-- An edge out of a block that is left behind leads to a block met before the search, to
one left earlier, or to one from which the search came: that one leads back. -/
theorem edge (h : graph.Explored seen blocks post) :
    ∀ u ∈ post, ∀ v ∈ graph.successors u,
      v ∈ seen ∨ [v, u].Sublist post ∨ graph.Reaches v u := by
  induction h with
  | done seen => exact fun u hu => absurd hu List.not_mem_nil
  | skip _ _ ih => exact ih
  | @visit seen rest below beside first _ hbelow _ ihbelow ihbeside =>
    have hfront : below.Sublist (below ++ first :: beside) := List.sublist_append_left _ _
    have hback : beside.Sublist (below ++ first :: beside) :=
      (List.sublist_cons_self first beside).trans (List.sublist_append_right _ _)
    intro u hu v hedge
    rcases List.mem_append.mp hu with hdown | hup
    · -- further down: `first` is under way, and leads to all that is left there
      rcases ihbelow u hdown v hedge with hseen | hsub | hreach
      · rcases List.mem_cons.mp hseen with rfl | hseen
        · obtain ⟨source, hsource, visited, hwalk⟩ := hbelow.reached u hdown
          exact .inr (.inr ⟨v :: visited, .step hsource hwalk⟩)
        · exact .inl hseen
      · exact .inr (.inl (hsub.trans hfront))
      · exact .inr (.inr hreach)
    rcases List.mem_cons.mp hup with rfl | hlater
    · -- `first` itself: its successors were met, or are left by now
      rcases hbelow.covers v hedge with hseen | hv
      · rcases List.mem_cons.mp hseen with rfl | hseen
        · exact .inr (.inr (.refl graph v))
        · exact .inl hseen
      · refine .inr (.inl ?_)
        exact (List.singleton_sublist.mpr hv).append
          (List.singleton_sublist.mpr List.mem_cons_self)
    · -- further on: all of the above is left already
      rcases ihbeside u hlater v hedge with hseen | hsub | hreach
      · rw [List.append_cons] at hseen ⊢
        rcases List.mem_append.mp hseen with hleft | hseen
        · refine .inr (.inl ?_)
          exact (List.singleton_sublist.mpr hleft).append (List.singleton_sublist.mpr hlater)
        · exact .inl hseen
      · exact .inr (.inl (hsub.trans hback))
      · exact .inr (.inr hreach)

/-- A frame of the search path does with its successors what the recursive search does:
it is back, without successors, when they are left behind. -/
theorem explore_eq
    (hclosed : ∀ source target, target ∈ graph.successors source → target < graph.size)
    (h : graph.Explored seen blocks post) (hblocks : ∀ block ∈ blocks, block < graph.size)
    {found : BlockSet} (hsize : found.size = graph.size)
    (hfound : ∀ block, found.contains block = true ↔ block ∈ seen)
    (block : BlockId) (path : List Frame) (order : List BlockId) :
    ∃ after : BlockSet, after.size = graph.size ∧
      (∀ block, after.contains block = true ↔ block ∈ post ++ seen) ∧
      graph.explore (⟨block, blocks⟩ :: path) found order =
        graph.explore (⟨block, []⟩ :: path) after (post.reverse ++ order) := by
  induction h generalizing found block path order with
  | done seen => exact ⟨found, hsize, hfound, rfl⟩
  | @skip seen rest post next hmem _ ih =>
    obtain ⟨-, hrest⟩ := List.forall_mem_cons.mp hblocks
    obtain ⟨after, hsize', hafter, heq⟩ := ih hrest hsize hfound block path order
    have hcontains : found.contains next = true := (hfound next).mpr hmem
    have hlacks : ¬ found.lacks next = true := fun hlacks => by
      simp [BlockSet.not_contains_of_lacks hlacks] at hcontains
    refine ⟨after, hsize', hafter, ?_⟩
    rw [← heq, explore, if_neg hlacks, if_pos hcontains]
  | @visit seen rest below beside next hnew _ _ ihbelow ihbeside =>
    obtain ⟨hnext, hrest⟩ := List.forall_mem_cons.mp hblocks
    have hlt : next < found.size := hsize ▸ hnext
    have hlacks : found.lacks next = true :=
      (BlockSet.contains_or_lacks hlt).resolve_left fun hin => hnew ((hfound next).mp hin)
    have hgrown : (found.insert next).size = graph.size := by
      rw [BlockSet.size_insert, hsize]
    have hinsert : ∀ other, (found.insert next).contains other = true ↔
        other ∈ next :: seen := by
      intro other
      rw [BlockSet.contains_insert_iff hlt, hfound, List.mem_cons]
    -- 1. the frame of `next` comes on top, and is left when it has no successors
    obtain ⟨between, hsize', hbetween, hdown⟩ :=
      ihbelow (hclosed next) hgrown hinsert next (⟨block, rest⟩ :: path) order
    -- 2. then the frame of the block goes on with the rest
    obtain ⟨after, hsize'', hafter, hon⟩ := ihbeside hrest hsize' hbetween
      block path (next :: (below.reverse ++ order))
    refine ⟨after, hsize'', fun other => ?_, ?_⟩
    · rw [hafter]
      simp only [List.mem_append, List.mem_cons]
      tauto
    · have hpost : (below ++ next :: beside).reverse ++ order =
          beside.reverse ++ next :: (below.reverse ++ order) := by simp
      rw [hpost, ← hon, explore, if_pos hlacks, hdown, explore]

end Explored

/-- The search from a block answers with the reverse of what the recursive search leaves
behind. -/
theorem reversePostorder_eq
    (hclosed : ∀ source target, target ∈ graph.successors source → target < graph.size)
    (hhead : head < graph.size) (h : graph.Explored [] [head] post) :
    graph.reversePostorder head = .ok post.reverse := by
  cases h with
  | skip hmem _ => exact absurd hmem List.not_mem_nil
  | @visit _ _ below beside _ _ hbelow hbeside =>
    cases hbeside
    have hstart := Searching.start hhead
    have hseen : ∀ other, ((BlockSet.empty graph.size).insert head).contains other = true ↔
        other ∈ [head] := hstart.seen_iff
    obtain ⟨after, -, -, heq⟩ :=
      hbelow.explore_eq hclosed (hclosed head) hstart.size_eq hseen head [] []
    rw [reversePostorder, if_pos hhead, heq, explore, explore]
    simp

/-! ## The order -/

/-- `order` lists the blocks that `head` reaches in reverse postorder: it is the reverse of
what the recursive search leaves behind. Every block but the head comes after one of its
predecessors, and an edge that does not lead forward lies on a cycle. -/
structure DepthFirst (graph : Graph) (head : BlockId) (order : List BlockId) : Prop where
  nodup : order.Nodup
  first : order.head? = some head
  mem_iff : ∀ block, block ∈ order ↔ graph.Reaches head block
  explored_iff : ∀ post, graph.Explored [] [head] post ↔ post = order.reverse
  entered : ∀ block ∈ order, block ≠ head →
    ∃ pred ∈ order, block ∈ graph.successors pred ∧ order.idxOf pred < order.idxOf block
  retreating : ∀ u ∈ order, ∀ v ∈ graph.successors u, order.idxOf v ≤ order.idxOf u →
    graph.Reaches v u
  /-- If no walk from a listed block comes back to it, all edges lead forward. -/
  topological : (∀ block ∈ order, ∀ visited, graph.Walk block block visited →
      visited = [block]) →
    ∀ u ∈ order, ∀ v ∈ graph.successors u, order.idxOf u < order.idxOf v

/-- Where edges lead to blocks, the search from a block is depth-first. -/
theorem exists_depthFirst
    (hclosed : ∀ source target, target ∈ graph.successors source → target < graph.size)
    (hhead : head < graph.size) :
    ∃ order, graph.reversePostorder head = .ok order ∧ graph.DepthFirst head order := by
  obtain ⟨order, horder, hsearch⟩ := exists_searchOrder hclosed hhead
  obtain ⟨post, hpost⟩ : ∃ post, graph.Explored [] [head] post :=
    exists_explored hclosed (by simpa using hhead)
  obtain rfl : order = post.reverse :=
    Except.ok.inj (horder.symm.trans (reversePostorder_eq hclosed hhead hpost))
  have hretreating : ∀ u ∈ post.reverse, ∀ v ∈ graph.successors u,
      post.reverse.idxOf v ≤ post.reverse.idxOf u → graph.Reaches v u := by
    intro u hu v hedge hle
    rcases hpost.edge u (List.mem_reverse.mp hu) v hedge with hseen | hsub | hreach
    · exact absurd hseen List.not_mem_nil
    · -- a block left earlier comes later in the reverse
      have hlt := (Along.of_sublist hsub.reverse hsearch.nodup).idxOf_lt
      omega
    · exact hreach
  refine ⟨post.reverse, horder, ?_⟩
  constructor
  case nodup => exact hsearch.nodup
  case first =>
    obtain ⟨rest, hrest⟩ := hsearch.first
    rw [hrest, List.head?_cons]
  case mem_iff => exact hsearch.mem_iff
  case explored_iff =>
    intro other
    rw [List.reverse_reverse]
    exact ⟨fun hother => hother.unique hpost, fun heq => heq ▸ hpost⟩
  case entered =>
    intro block hblock hne
    obtain ⟨pred, hedge, hsub⟩ := (hsearch.entered block hblock).resolve_left hne
    exact ⟨pred, hsub.subset List.mem_cons_self, hedge,
      (Along.of_sublist hsub hsearch.nodup).idxOf_lt⟩
  case retreating => exact hretreating
  case topological =>
    intro hacyclic u hu v hedge
    by_contra hle
    obtain ⟨visited, hwalk⟩ := hretreating u hu v hedge (Nat.le_of_not_lt hle)
    have hround := hacyclic u hu (u :: visited) (.step hedge hwalk)
    obtain ⟨rest, rfl⟩ := hwalk.eq_cons
    simp at hround

end Graph

namespace Method

/-- In a method whose targets exist, the search from any block is depth-first. So if the
heads exist too, the blocks that none of them reaches are found, in ascending order. What
the blocks list for their predecessors does not matter. -/
theorem searches_depthFirst (method : Method)
    (htargets : ∀ block, ∀ target ∈ method.successors block, target < method.size) :
    (∀ head < method.size, ∃ order, method.graph.reversePostorder head = .ok order ∧
      method.graph.DepthFirst head order) ∧
    ((∀ head ∈ method.heads, head < method.size) →
      ∃ blocks, method.unreachable = .ok blocks ∧ blocks.Pairwise (· < ·) ∧
        ∀ block, block ∈ blocks ↔
          block < method.size ∧ ∀ head ∈ method.heads, ¬ method.graph.Reaches head block) := by
  have hclosed : ∀ source target, target ∈ method.graph.successors source →
      target < method.graph.size := by
    intro source target hedge
    rw [Graph.successors_graph] at hedge
    rw [Graph.size_graph]
    exact htargets source target hedge
  rw [← Graph.size_graph]
  refine ⟨fun head => Graph.exists_depthFirst hclosed, fun hheads => ?_⟩
  obtain ⟨blocks, hblocks, hmem⟩ := unreachable_eq_ok hclosed hheads
  refine ⟨blocks, hblocks, pairwise_unreachable hblocks, fun block => ?_⟩
  rw [hmem, Graph.size_graph]
  push Not
  rfl

/-- The head leads to block 1 twice, and to block 2 in between; block 1 leads to itself and
back to the head. Block 3 is out of reach and lists a predecessor that does not exist. -/
def knot : Method where
  name := "knot"
  heads := [0]
  blocks := #[
    { terminator := .switch (.integer 0) [1, 2] 1 },
    { terminator := .branch (.boolean true) 1 0, preds := [0, 0, 1] },
    { terminator := .ret none, preds := [3, 0] },
    { terminator := .jump 2, preds := [9] }]

theorem searches_depthFirst_knot :
    (∀ block, ∀ target ∈ knot.successors block, target < knot.size) ∧
      knot.graph.reversePostorder 0 = .ok [0, 2, 1] ∧
      knot.graph.DepthFirst 0 [0, 2, 1] ∧
      knot.graph.Explored [] [0] [1, 2, 0] ∧
      (∀ head ∈ knot.heads, head < knot.size) ∧ knot.unreachable = .ok [3] ∧
      ¬ knot.graph.Reaches 0 3 := by
  have htargets : ∀ block, ∀ target ∈ knot.successors block, target < knot.size := by
    intro block target hedge
    have hall : ∀ block < knot.size, ∀ target ∈ knot.successors block, target < knot.size := by
      decide
    rw [← Graph.successors_graph] at hedge
    have hblock := Graph.source_lt hedge
    rw [Graph.size_graph] at hblock
    rw [Graph.successors_graph] at hedge
    exact hall block hblock target hedge
  have hheads : ∀ head ∈ knot.heads, head < knot.size := by decide
  have horder : knot.graph.reversePostorder 0 = .ok [0, 2, 1] := by decide +kernel
  have hlist : knot.unreachable = .ok [3] := by decide +kernel
  obtain ⟨hsearch, hout⟩ := searches_depthFirst knot htargets
  obtain ⟨order, hok, hdepth⟩ := hsearch 0 (by decide)
  obtain rfl := Except.ok.inj (horder.symm.trans hok)
  obtain ⟨blocks, hblocks, -, hmem⟩ := hout hheads
  obtain rfl := Except.ok.inj (hlist.symm.trans hblocks)
  refine ⟨htargets, horder, hdepth, (hdepth.explored_iff _).mpr rfl, hheads, hlist, ?_⟩
  exact ((hmem 3).mp (List.mem_singleton_self 3)).2 0 (by decide)

end Method

end MinimalSsa
