import Mathlib.Data.List.Nodup
import MinimalSsa.Graph.Postorder
import MinimalSsa.Proofs.Walk

/-!
# What the depth-first search lists

The search keeps a path of half-explored blocks and an order of those it left.
Written one after the other, path outermost first, they form a trail, and leaving
a block does not change the trail. So what holds of the trail while the search
goes on holds of the order in the end.

* `Graph.Trail`: no block is listed twice, the head comes first, and every other
  block comes after one of its predecessors.
* `Graph.Searching`: the invariant of the search, with one lemma per step.
* `Graph.SearchOrder`: a trail of exactly the blocks that the head reaches.
* `Graph.exists_searchOrder`: where edges lead to blocks, the search ends with such
  an order.
* `Method.unreachable_eq_ok`, `Method.pairwise_unreachable`: what several searches together
  leave out.
-/

namespace MinimalSsa

namespace BlockSet

/-- A block of the graph is a member or lacking. -/
theorem contains_or_lacks {set : BlockSet} {block : BlockId} (h : block < set.size) :
    set.contains block = true ∨ set.lacks block = true := by
  have hlt : block < set.marks.size := h
  cases hmark : set.marks[block] with
  | false => exact .inr (by simp [lacks, hlt, hmark])
  | true => exact .inl (by simp [contains, hlt, hmark])

theorem lt_size_of_lacks {set : BlockSet} {block : BlockId} (h : set.lacks block = true) :
    block < set.size := by
  have hsome : set.marks[block]? = some false := by simpa [lacks] using h
  exact (Array.getElem?_eq_some_iff.mp hsome).1

theorem not_contains_of_lacks {set : BlockSet} {block : BlockId}
    (h : set.lacks block = true) : set.contains block = false := by
  have hsome : set.marks[block]? = some false := by simpa [lacks] using h
  simp [contains, hsome]

/-- The members after an insertion, for a block that was lacking. -/
theorem contains_insert_iff {set : BlockSet} {block : BlockId} (h : block < set.size)
    (other : BlockId) :
    (set.insert block).contains other = true ↔ other = block ∨ set.contains other = true := by
  rw [contains_insert h, Bool.or_eq_true, beq_iff_eq, eq_comm]

theorem contains_insertAll_iff {set : BlockSet} {blocks : List BlockId}
    (h : ∀ block ∈ blocks, block < set.size) (other : BlockId) :
    (set.insertAll blocks).contains other = true ↔
      other ∈ blocks ∨ set.contains other = true := by
  induction blocks generalizing set with
  | nil => simp [insertAll]
  | cons block blocks ih =>
    obtain ⟨hblock, hblocks⟩ := List.forall_mem_cons.mp h
    show ((set.insert block).insertAll blocks).contains other = true ↔ _
    rw [ih (by simpa using hblocks), contains_insert_iff hblock, List.mem_cons]
    tauto

/-- The complement holds the other blocks of the graph. -/
theorem mem_complement_iff {set : BlockSet} {block : BlockId} :
    block ∈ set.complement ↔ block < set.size ∧ ¬ set.contains block = true := by
  rw [complement, List.mem_filter, List.mem_range]
  refine and_congr_right fun hlt => ⟨fun hlacks => ?_, (contains_or_lacks hlt).resolve_left⟩
  simp [not_contains_of_lacks hlacks]

end BlockSet

namespace Graph

variable {graph : Graph} {head block next : BlockId}
variable {rest order : List BlockId} {path : List Frame} {seen : BlockSet}

/-! ## Trails -/

/-- The blocks on a search path, outermost first, and then those left behind. -/
def trail (path : List Frame) (order : List BlockId) : List BlockId :=
  (path.map (·.block)).reverse ++ order

/-- Leaving a block keeps the trail. -/
@[simp] theorem trail_leave (path : List Frame) (block : BlockId) (rest order : List BlockId) :
    trail (⟨block, rest⟩ :: path) order = trail path (block :: order) := by
  simp [trail]

/-- The head first, and every other block after one of its predecessors. -/
structure Trail (graph : Graph) (head : BlockId) (blocks : List BlockId) : Prop where
  nodup : blocks.Nodup
  first : ∃ rest, blocks = head :: rest
  entered : ∀ block ∈ blocks, block = head ∨
    ∃ pred, block ∈ graph.successors pred ∧ [pred, block].Sublist blocks

/-- A new block may be put anywhere after one of its predecessors. -/
theorem Trail.insert {before after : List BlockId} {pred : BlockId}
    (h : graph.Trail head (before ++ after)) (hpred : pred ∈ before)
    (hedge : block ∈ graph.successors pred) (hnew : block ∉ before ++ after) :
    graph.Trail head (before ++ block :: after) where
  nodup := by
    rw [List.nodup_middle]
    exact List.nodup_cons.mpr ⟨hnew, h.nodup⟩
  first := by
    obtain ⟨rest, hrest⟩ := h.first
    cases before with
    | nil => exact absurd hpred List.not_mem_nil
    | cons first before =>
      obtain ⟨rfl, -⟩ := List.cons.inj hrest
      exact ⟨before ++ block :: after, rfl⟩
  entered := by
    have hsub : (before ++ after).Sublist (before ++ block :: after) :=
      (List.sublist_cons_self block after).append_left before
    intro other hother
    rcases List.mem_append.mp hother with hother | hother
    · refine (h.entered other (List.mem_append_left _ hother)).imp_right ?_
      exact fun ⟨source, hsource, hsublist⟩ => ⟨source, hsource, hsublist.trans hsub⟩
    · rcases List.mem_cons.mp hother with rfl | hother
      · refine .inr ⟨pred, hedge, ?_⟩
        exact (List.singleton_sublist.mpr hpred).append
          (List.singleton_sublist.mpr List.mem_cons_self)
      · refine (h.entered other (List.mem_append_right _ hother)).imp_right ?_
        exact fun ⟨source, hsource, hsublist⟩ => ⟨source, hsource, hsublist.trans hsub⟩

/-! ## The search -/

/-- What holds while the search goes on: the blocks met are those of the trail, all
of them are reached, and no edge out of them is forgotten. -/
structure Searching (graph : Graph) (head : BlockId) (path : List Frame) (seen : BlockSet)
    (order : List BlockId) : Prop where
  size_eq : seen.size = graph.size
  seen_iff : ∀ block, seen.contains block = true ↔ block ∈ trail path order
  trail : graph.Trail head (trail path order)
  reached : ∀ block ∈ Graph.trail path order, graph.Reaches head block
  left_closed : ∀ block ∈ order, ∀ next ∈ graph.successors block,
    next ∈ Graph.trail path order
  rest_edge : ∀ frame ∈ path, ∀ next ∈ frame.rest, next ∈ graph.successors frame.block
  path_closed : ∀ frame ∈ path, ∀ next ∈ graph.successors frame.block,
    next ∈ frame.rest ∨ next ∈ Graph.trail path order

namespace Searching

/-- A block without unexplored successors is left. -/
theorem leave (h : graph.Searching head (⟨block, []⟩ :: path) seen order) :
    graph.Searching head path seen (block :: order) where
  size_eq := h.size_eq
  seen_iff := by simpa using h.seen_iff
  trail := by simpa using h.trail
  reached := by simpa using h.reached
  left_closed := by
    intro other hother next hnext
    rw [← trail_leave path block [] order]
    rcases List.mem_cons.mp hother with rfl | hother
    · exact (h.path_closed ⟨other, []⟩ List.mem_cons_self next hnext).resolve_left
        List.not_mem_nil
    · exact h.left_closed other hother next hnext
  rest_edge := fun frame hframe => h.rest_edge frame (List.mem_cons_of_mem _ hframe)
  path_closed := by
    intro frame hframe next hnext
    rw [← trail_leave path block [] order]
    exact h.path_closed frame (List.mem_cons_of_mem _ hframe) next hnext

/-- What is left to explore without `next` still consists of successors. -/
theorem rest_edge_tail (h : graph.Searching head (⟨block, next :: rest⟩ :: path) seen order) :
    ∀ frame ∈ (⟨block, rest⟩ :: path : List Frame), ∀ other ∈ frame.rest,
      other ∈ graph.successors frame.block := by
  intro frame hframe other hother
  rcases List.mem_cons.mp hframe with rfl | hframe
  · exact h.rest_edge ⟨block, next :: rest⟩ List.mem_cons_self other
      (List.mem_cons_of_mem _ hother)
  · exact h.rest_edge frame (List.mem_cons_of_mem _ hframe) other hother

/-- The other successors on the path are `next` or were met. -/
theorem path_closed_tail (h : graph.Searching head (⟨block, next :: rest⟩ :: path) seen order) :
    ∀ frame ∈ (⟨block, rest⟩ :: path : List Frame), ∀ other ∈ graph.successors frame.block,
      other ∈ frame.rest ∨ other = next ∨
        other ∈ Graph.trail (⟨block, next :: rest⟩ :: path) order := by
  intro frame hframe other hother
  rcases List.mem_cons.mp hframe with rfl | hframe
  · rcases h.path_closed ⟨block, next :: rest⟩ List.mem_cons_self other hother with
      hrest | htrail
    · rcases List.mem_cons.mp hrest with rfl | hrest
      · exact .inr (.inl rfl)
      · exact .inl hrest
    · exact .inr (.inr htrail)
  · have hclosed := h.path_closed frame (List.mem_cons_of_mem _ hframe) other hother
    exact hclosed.imp_right .inr

/-- A successor that was met before is passed over. -/
theorem skip (h : graph.Searching head (⟨block, next :: rest⟩ :: path) seen order)
    (hseen : seen.contains next = true) :
    graph.Searching head (⟨block, rest⟩ :: path) seen order where
  size_eq := h.size_eq
  seen_iff := h.seen_iff
  trail := h.trail
  reached := h.reached
  left_closed := h.left_closed
  rest_edge := h.rest_edge_tail
  path_closed := by
    intro frame hframe other hother
    rcases h.path_closed_tail frame hframe other hother with hrest | rfl | htrail
    · exact .inl hrest
    · exact .inr ((h.seen_iff other).mp hseen)
    · exact .inr htrail

/-- A new successor joins the path. -/
theorem enter (h : graph.Searching head (⟨block, next :: rest⟩ :: path) seen order)
    (hnew : seen.lacks next = true) :
    graph.Searching head (⟨next, graph.successors next⟩ :: ⟨block, rest⟩ :: path)
      (seen.insert next) order := by
  have hedge : next ∈ graph.successors block :=
    h.rest_edge ⟨block, next :: rest⟩ List.mem_cons_self next List.mem_cons_self
  have hsplit : Graph.trail (⟨next, graph.successors next⟩ :: ⟨block, rest⟩ :: path) order
      = (((⟨block, rest⟩ : Frame) :: path).map (·.block)).reverse ++ next :: order := by
    simp [Graph.trail]
  have hmem : ∀ other,
      other ∈ Graph.trail (⟨next, graph.successors next⟩ :: ⟨block, rest⟩ :: path) order ↔
        other = next ∨ other ∈ Graph.trail (⟨block, next :: rest⟩ :: path) order := by
    intro other
    rw [hsplit, List.mem_append, List.mem_cons, or_left_comm, ← List.mem_append]
    rfl
  have hpath : block ∈ (((⟨block, rest⟩ : Frame) :: path).map (·.block)).reverse := by simp
  have hfresh : next ∉ Graph.trail (⟨block, next :: rest⟩ :: path) order := by
    intro hin
    have hseen := (h.seen_iff next).mpr hin
    simp [BlockSet.not_contains_of_lacks hnew] at hseen
  constructor
  case size_eq => simpa using h.size_eq
  case seen_iff =>
    intro other
    rw [BlockSet.contains_insert_iff (BlockSet.lt_size_of_lacks hnew), hmem, h.seen_iff]
  case trail =>
    rw [hsplit]
    exact h.trail.insert hpath hedge hfresh
  case reached =>
    intro other hother
    rcases (hmem other).mp hother with rfl | hother
    · refine (h.reached block ?_).step hedge
      exact List.mem_append_left _ hpath
    · exact h.reached other hother
  case left_closed =>
    intro other hother target htarget
    exact (hmem target).mpr (.inr (h.left_closed other hother target htarget))
  case rest_edge =>
    intro frame hframe other hother
    rcases List.mem_cons.mp hframe with rfl | hframe
    · exact hother
    · exact h.rest_edge_tail frame hframe other hother
  case path_closed =>
    intro frame hframe other hother
    rcases List.mem_cons.mp hframe with rfl | hframe
    · exact .inl hother
    · exact (h.path_closed_tail frame hframe other hother).imp_right (hmem other).mpr

/-- The search from a head starts with a path of the head alone. -/
theorem start (hhead : head < graph.size) :
    graph.Searching head [⟨head, graph.successors head⟩]
      ((BlockSet.empty graph.size).insert head) [] := by
  have hsize : head < (BlockSet.empty graph.size).size := by
    simpa [BlockSet.empty, BlockSet.size] using hhead
  constructor
  case size_eq => simp [BlockSet.empty, BlockSet.size, BlockSet.insert]
  case seen_iff =>
    intro other
    rw [BlockSet.contains_insert_iff hsize]
    simp [Graph.trail]
  case trail => exact ⟨by simp [Graph.trail], ⟨[], rfl⟩, by simp [Graph.trail]⟩
  case reached =>
    intro other hother
    obtain rfl : other = head := by simpa [Graph.trail] using hother
    exact Reaches.refl graph other
  case left_closed => simp
  case rest_edge => simp
  case path_closed =>
    intro frame hframe next hnext
    obtain rfl := List.mem_singleton.mp hframe
    exact .inl hnext

end Searching

/-! ## The order -/

/-- A trail of the blocks that the head reaches. -/
structure SearchOrder (graph : Graph) (head : BlockId) (order : List BlockId) : Prop
    extends graph.Trail head order where
  mem_iff : ∀ block, block ∈ order ↔ graph.Reaches head block

/-- A search that has left every block has listed what the head reaches. -/
theorem Searching.finish (h : graph.Searching head [] seen order) :
    graph.SearchOrder head order where
  toTrail := h.trail
  mem_iff block := by
    refine ⟨h.reached block, fun hreach => ?_⟩
    obtain ⟨rest, hrest⟩ := h.trail.first
    have hhead : head ∈ order := by
      rw [show order = head :: rest from hrest]
      exact List.mem_cons_self
    exact hreach.mem_of_closed hhead h.left_closed

/-- The search ends, whatever it has left to do. -/
theorem Searching.explore_eq_ok
    (hclosed : ∀ source target, target ∈ graph.successors source → target < graph.size)
    (h : graph.Searching head path seen order) :
    ∃ result, graph.explore path seen order = .ok result ∧ graph.SearchOrder head result := by
  induction path, seen, order using explore.induct graph with
  | case1 seen order =>
    rw [explore]
    exact ⟨order, rfl, h.finish⟩
  | case2 block path seen order ih =>
    rw [explore]
    exact ih h.leave
  | case3 block next rest path seen order hlacks ih =>
    rw [explore, if_pos hlacks]
    exact ih (h.enter hlacks)
  | case4 block next rest path seen order hlacks hseen ih =>
    rw [explore, if_neg hlacks, if_pos hseen]
    exact ih (h.skip hseen)
  | case5 block next rest path seen order hlacks hseen =>
    -- a successor is a block, so it is in the set or lacks from it
    have hedge : next ∈ graph.successors block :=
      h.rest_edge ⟨block, next :: rest⟩ List.mem_cons_self next List.mem_cons_self
    have hlt : next < seen.size := by
      rw [h.size_eq]
      exact hclosed block next hedge
    exact absurd (BlockSet.contains_or_lacks hlt) (by simp [hlacks, hseen])

/-- Where edges lead to blocks, the search from a block succeeds. -/
theorem exists_searchOrder
    (hclosed : ∀ source target, target ∈ graph.successors source → target < graph.size)
    (hhead : head < graph.size) :
    ∃ order, graph.reversePostorder head = .ok order ∧ graph.SearchOrder head order := by
  rw [reversePostorder, if_pos hhead]
  exact (Searching.start hhead).explore_eq_ok hclosed

/-! ## Several heads -/

/-- The searches from several heads add what any of them reaches. -/
theorem reachableFromAll_eq_ok {heads : List BlockId} {found : BlockSet}
    (hclosed : ∀ source target, target ∈ graph.successors source → target < graph.size)
    (hheads : ∀ head ∈ heads, head < graph.size) (hsize : found.size = graph.size) :
    ∃ set, graph.reachableFromAll heads found = .ok set ∧ set.size = graph.size ∧
      ∀ block, set.contains block = true ↔
        found.contains block = true ∨ ∃ head ∈ heads, graph.Reaches head block := by
  induction heads generalizing found with
  | nil => exact ⟨found, rfl, hsize, by simp⟩
  | cons head heads ih =>
    obtain ⟨hhead, hothers⟩ := List.forall_mem_cons.mp hheads
    obtain ⟨order, horder, hsearch⟩ := exists_searchOrder hclosed hhead
    have hlt : ∀ block ∈ order, block < found.size := by
      intro block hblock
      obtain ⟨visited, hwalk⟩ := (hsearch.mem_iff block).mp hblock
      rw [hsize]
      exact hwalk.lt_size hclosed hhead block hwalk.target_mem
    have hgrown : (found.insertAll order).size = graph.size := by
      rw [BlockSet.size_insertAll, hsize]
    obtain ⟨set, hset, hsetSize, hmem⟩ := ih hothers hgrown
    refine ⟨set, by simp only [reachableFromAll, horder, hset], hsetSize, fun block => ?_⟩
    rw [hmem, BlockSet.contains_insertAll_iff hlt, hsearch.mem_iff, List.exists_mem_cons_iff]
    tauto

end Graph

/-- The blocks that no head reaches are found. -/
theorem Method.unreachable_eq_ok {method : Method}
    (hclosed : ∀ source target, target ∈ method.graph.successors source →
      target < method.graph.size)
    (hheads : ∀ head ∈ method.heads, head < method.graph.size) :
    ∃ blocks, method.unreachable = .ok blocks ∧ ∀ block, block ∈ blocks ↔
      block < method.size ∧ ¬ ∃ head ∈ method.heads, method.graph.Reaches head block := by
  have hsize : (BlockSet.empty method.size).size = method.graph.size := by
    simp [BlockSet.empty, BlockSet.size]
  obtain ⟨set, hset, hsetSize, hmem⟩ := Graph.reachableFromAll_eq_ok hclosed hheads hsize
  refine ⟨set.complement, by simp only [unreachable, reachableFromHeads, hset], fun block => ?_⟩
  rw [BlockSet.mem_complement_iff, hmem, hsetSize, Graph.size_graph]
  simp

/-- They are listed in ascending order. -/
theorem Method.pairwise_unreachable {method : Method} {blocks : List BlockId}
    (h : method.unreachable = .ok blocks) : blocks.Pairwise (· < ·) := by
  unfold unreachable at h
  split at h
  · rw [← Except.ok.inj h]
    exact List.pairwise_lt_range.filter _
  · cases h

end MinimalSsa
