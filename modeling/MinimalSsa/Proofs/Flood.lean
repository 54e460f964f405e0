import MinimalSsa.Graph.Flood
import MinimalSsa.Proofs.Search

/-!
# What a flood around a removed block finds

The flood starts at a head and goes on from every block it meets, but never enters
the removed block. A block that was met has its successors met too, or waits on the
stack, or is being scanned; so when nothing is left to do, the blocks met are those
that the head reaches on walks around the removed block.

* `Graph.ReachesAround`: some walk does not visit the removed block.
* `Graph.dominates_iff_not_reachesAround`: a block dominates what its removal cuts off.
* `Graph.Flooding`: the invariant of the flood, with one lemma per move.
* `Graph.reachableWithout_eq_ok`: the flood ends with the blocks that are reached
  around the removed one.
-/

namespace MinimalSsa

namespace Graph

variable {graph : Graph} {removed : Option BlockId} {head dominator block next : BlockId}
variable {scan stack : List BlockId} {found : BlockSet}

/-! ## Walks around a block -/

/-- Some walk leads from `head` to `block` without a visit of the removed block. -/
def ReachesAround (graph : Graph) (removed : Option BlockId) (head block : BlockId) : Prop :=
  ∃ visited, graph.Walk head block visited ∧ ∀ other ∈ visited, some other ≠ removed

namespace ReachesAround

theorem refl (h : some head ≠ removed) : graph.ReachesAround removed head head :=
  ⟨[head], .here head, by simpa using h⟩

theorem step (h : graph.ReachesAround removed head block)
    (hedge : next ∈ graph.successors block) (hnext : some next ≠ removed) :
    graph.ReachesAround removed head next := by
  obtain ⟨visited, hwalk, havoid⟩ := h
  refine ⟨visited ++ [next], hwalk.snoc hedge, fun other hother => ?_⟩
  rcases List.mem_append.mp hother with hother | hother
  · exact havoid other hother
  · rwa [List.mem_singleton.mp hother]

/-- A set of blocks that holds the head and every successor of a member, the removed
block aside, holds all that is reached around that block. -/
theorem mem_of_closed (region : BlockId → Prop) (h : graph.ReachesAround removed head block)
    (hhead : region head)
    (hclosed : ∀ a, region a → ∀ b ∈ graph.successors a, some b ≠ removed → region b) :
    region block := by
  obtain ⟨visited, hwalk, havoid⟩ := h
  induction hwalk with
  | here => exact hhead
  | step hstep htail ih =>
    have hnext := hclosed _ hhead _ hstep (havoid _ (List.mem_cons_of_mem _ htail.source_mem))
    exact ih hnext fun other hother => havoid other (List.mem_cons_of_mem _ hother)

end ReachesAround

/-- Where nothing is removed, this is reachability. -/
theorem reachesAround_none_iff :
    graph.ReachesAround none head block ↔ graph.Reaches head block := by
  constructor
  · rintro ⟨visited, hwalk, -⟩
    exact ⟨visited, hwalk⟩
  · rintro ⟨visited, hwalk⟩
    exact ⟨visited, hwalk, fun other _ => Option.some_ne_none other⟩

/-- A block dominates what its removal cuts off. -/
theorem dominates_iff_not_reachesAround :
    graph.Dominates head dominator block ↔
      graph.Reaches head block ∧ ¬ graph.ReachesAround (some dominator) head block := by
  refine and_congr_right fun _ => ⟨?_, fun hcut visited hwalk => ?_⟩
  · rintro hall ⟨visited, hwalk, havoid⟩
    exact havoid dominator (hall visited hwalk) rfl
  · by_contra hmem
    refine hcut ⟨visited, hwalk, fun other hother heq => hmem ?_⟩
    exact Option.some.inj heq ▸ hother

/-! ## The flood -/

/-- What holds while the flood goes on: the blocks met are reached around the removed
one, and no edge out of them is forgotten. -/
structure Flooding (graph : Graph) (removed : Option BlockId) (head : BlockId)
    (scan stack : List BlockId) (found : BlockSet) : Prop where
  size_eq : found.size = graph.size
  head_mem : found.contains head = true
  reached : ∀ block, found.contains block = true → graph.ReachesAround removed head block
  stack_found : ∀ block ∈ stack, found.contains block = true
  scan_edge : ∀ next ∈ scan, ∃ block, found.contains block = true ∧
    next ∈ graph.successors block
  closed : ∀ block, found.contains block = true → ∀ next ∈ graph.successors block,
    some next ≠ removed → found.contains next = true ∨ next ∈ scan ∨ block ∈ stack

namespace Flooding

/-- With nothing to scan, the successors of the next block on the stack are taken up. -/
theorem pop (h : graph.Flooding removed head [] (block :: stack) found) :
    graph.Flooding removed head (graph.successors block) stack found where
  size_eq := h.size_eq
  head_mem := h.head_mem
  reached := h.reached
  stack_found := fun other hother => h.stack_found other (List.mem_cons_of_mem _ hother)
  scan_edge := fun _ hnext => ⟨block, h.stack_found block List.mem_cons_self, hnext⟩
  closed := by
    intro other hother next hnext hkeep
    rcases h.closed other hother next hnext hkeep with hfound | hscan | hstack
    · exact .inl hfound
    · exact absurd hscan List.not_mem_nil
    · rcases List.mem_cons.mp hstack with rfl | hstack
      · exact .inr (.inl hnext)
      · exact .inr (.inr hstack)

/-- The removed block and blocks met before are passed over. -/
theorem skip (h : graph.Flooding removed head (next :: scan) stack found)
    (hskip : some next = removed ∨ found.contains next = true) :
    graph.Flooding removed head scan stack found where
  size_eq := h.size_eq
  head_mem := h.head_mem
  reached := h.reached
  stack_found := h.stack_found
  scan_edge := fun other hother => h.scan_edge other (List.mem_cons_of_mem _ hother)
  closed := by
    intro block hblock other hother hkeep
    rcases h.closed block hblock other hother hkeep with hfound | hscan | hstack
    · exact .inl hfound
    · rcases List.mem_cons.mp hscan with rfl | hscan
      · exact .inl (hskip.resolve_left hkeep)
      · exact .inr (.inl hscan)
    · exact .inr (.inr hstack)

/-- A new block is met and put on the stack. -/
theorem mark (h : graph.Flooding removed head (next :: scan) stack found)
    (hkeep : some next ≠ removed) (hnew : found.lacks next = true) :
    graph.Flooding removed head scan (next :: stack) (found.insert next) := by
  have hinsert := BlockSet.contains_insert_iff (BlockSet.lt_size_of_lacks hnew)
  obtain ⟨source, hsource, hedge⟩ := h.scan_edge next List.mem_cons_self
  constructor
  case size_eq => rw [BlockSet.size_insert, h.size_eq]
  case head_mem => exact (hinsert head).mpr (.inr h.head_mem)
  case reached =>
    intro block hblock
    rcases (hinsert block).mp hblock with rfl | hblock
    · exact (h.reached source hsource).step hedge hkeep
    · exact h.reached block hblock
  case stack_found =>
    intro block hblock
    rcases List.mem_cons.mp hblock with rfl | hblock
    · exact (hinsert block).mpr (.inl rfl)
    · exact (hinsert block).mpr (.inr (h.stack_found block hblock))
  case scan_edge =>
    intro other hother
    obtain ⟨block, hblock, hsucc⟩ := h.scan_edge other (List.mem_cons_of_mem _ hother)
    exact ⟨block, (hinsert block).mpr (.inr hblock), hsucc⟩
  case closed =>
    intro block hblock other hother hother'
    rcases (hinsert block).mp hblock with rfl | hblock
    · exact .inr (.inr List.mem_cons_self)
    · rcases h.closed block hblock other hother hother' with hfound | hscan | hstack
      · exact .inl ((hinsert other).mpr (.inr hfound))
      · rcases List.mem_cons.mp hscan with rfl | hscan
        · exact .inl ((hinsert other).mpr (.inl rfl))
        · exact .inr (.inl hscan)
      · exact .inr (.inr (List.mem_cons_of_mem _ hstack))

/-- The flood starts with the head alone. -/
theorem start (hhead : head < graph.size) (hkeep : some head ≠ removed) :
    graph.Flooding removed head [] [head] ((BlockSet.empty graph.size).insert head) := by
  have hsize : head < (BlockSet.empty graph.size).size := by
    simpa [BlockSet.empty, BlockSet.size] using hhead
  have honly : ∀ other, ((BlockSet.empty graph.size).insert head).contains other = true ↔
      other = head := by
    intro other
    rw [BlockSet.contains_insert_iff hsize, BlockSet.contains_empty]
    simp
  constructor
  case size_eq => simp [BlockSet.empty, BlockSet.size, BlockSet.insert]
  case head_mem => exact (honly head).mpr rfl
  case reached =>
    intro block hblock
    rw [(honly block).mp hblock]
    exact .refl hkeep
  case stack_found => exact fun block hblock => (honly block).mpr (List.mem_singleton.mp hblock)
  case scan_edge => simp
  case closed =>
    intro block hblock _ _ _
    exact .inr (.inr (List.mem_singleton.mpr ((honly block).mp hblock)))

/-- With nothing left to do, the blocks met are those reached around the removed one. -/
theorem finish (h : graph.Flooding removed head [] [] found) (block : BlockId) :
    found.contains block = true ↔ graph.ReachesAround removed head block := by
  refine ⟨h.reached block, fun hreach => ?_⟩
  apply hreach.mem_of_closed (found.contains · = true) h.head_mem
  intro a ha b hedge hkeep
  simpa using h.closed a ha b hedge hkeep

/-- The flood ends, whatever it has left to do. -/
theorem flood_eq_ok
    (hclosed : ∀ source target, target ∈ graph.successors source → target < graph.size)
    (h : graph.Flooding removed head scan stack found) :
    ∃ result, graph.flood removed scan stack found = .ok result ∧
      result.size = graph.size ∧
      ∀ block, result.contains block = true ↔ graph.ReachesAround removed head block := by
  induction scan, stack, found using flood.induct graph removed with
  | case1 found =>
    rw [flood]
    exact ⟨found, rfl, h.size_eq, h.finish⟩
  | case2 found block stack ih =>
    rw [flood]
    exact ih h.pop
  | case3 next scan stack found hremoved ih =>
    rw [flood, if_pos hremoved]
    exact ih (h.skip (.inl hremoved))
  | case4 next scan stack found hkeep hlacks ih =>
    rw [flood, if_neg hkeep, if_pos hlacks]
    exact ih (h.mark hkeep hlacks)
  | case5 next scan stack found hkeep hlacks hfound ih =>
    rw [flood, if_neg hkeep, if_neg hlacks, if_pos hfound]
    exact ih (h.skip (.inr hfound))
  | case6 next scan stack found hkeep hlacks hfound =>
    -- what is scanned is a successor, so it is a block of the graph
    obtain ⟨block, -, hedge⟩ := h.scan_edge next List.mem_cons_self
    have hlt : next < found.size := by
      rw [h.size_eq]
      exact hclosed block next hedge
    exact absurd (BlockSet.contains_or_lacks hlt) (by simp [hlacks, hfound])

end Flooding

/-- The blocks that a head reaches around a removed block are found. -/
theorem reachableWithout_eq_ok
    (hclosed : ∀ source target, target ∈ graph.successors source → target < graph.size)
    (hhead : head < graph.size) (removed : Option BlockId) :
    ∃ found, graph.reachableWithout removed head = .ok found ∧ found.size = graph.size ∧
      ∀ block, found.contains block = true ↔ graph.ReachesAround removed head block := by
  unfold reachableWithout
  by_cases hremoved : some head = removed
  · -- no walk leaves a head that is removed
    rw [if_pos hremoved]
    refine ⟨_, rfl, by simp [BlockSet.empty, BlockSet.size], fun block => ?_⟩
    rw [BlockSet.contains_empty]
    refine ⟨fun hfalse => absurd hfalse Bool.false_ne_true, ?_⟩
    rintro ⟨visited, hwalk, havoid⟩
    exact absurd hremoved (havoid head hwalk.source_mem)
  · rw [if_neg hremoved, if_pos hhead]
    exact (Flooding.start hhead hremoved).flood_eq_ok hclosed

end Graph

end MinimalSsa
