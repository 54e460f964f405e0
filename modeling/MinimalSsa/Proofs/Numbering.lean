import Mathlib.Data.List.Perm.Subperm
import Mathlib.Data.List.Sort
import MinimalSsa.Dominance.Parents
import MinimalSsa.Proofs.Edges
import MinimalSsa.Proofs.Search

/-!
# The numbering of the blocks that a head reaches

The analyses number blocks by their place in the order of a search. Blocks that
the order does not list come after all others.

* `Along`: a list whose members come in the order in which another one first lists
  them.
* `Positions.position?_ofOrder`: the place of a block in a list without repetitions.
* `Graph.Searched`: a graph with agreeing edges and the order of a search in it; what
  all analyses of one head start from.
* `Graph.Searched.exists_earlier_pred`: every block but the head has a predecessor
  with a lower number.
-/

namespace MinimalSsa

/-! ## Lists that follow an order -/

/-- `list` goes along `order`: its members are listed there, each comes once, and they
come in the order of their first places there. -/
structure Along {α : Type} [BEq α] (order list : List α) : Prop where
  mem : ∀ a ∈ list, a ∈ order
  nodup : list.Nodup
  ascending : list.Pairwise fun a b => order.idxOf a < order.idxOf b

namespace Along

variable {α : Type} [BEq α] {order list : List α}

/-- A part of a list without repetitions goes along it. -/
theorem of_sublist [LawfulBEq α] (hsub : list.Sublist order) (hnodup : order.Nodup) :
    Along order list where
  mem := fun _ hmem => hsub.subset hmem
  nodup := hnodup.sublist hsub
  ascending := by
    have hall : order.Pairwise fun a b => order.idxOf a < order.idxOf b := by
      rw [List.pairwise_iff_getElem]
      intro i j hi hj hlt
      rwa [hnodup.idxOf_getElem, hnodup.idxOf_getElem]
    exact hall.sublist hsub

/-- Of two members, the one listed first comes first. -/
theorem idxOf_lt {a b : α} (h : Along order [a, b]) : order.idxOf a < order.idxOf b :=
  List.rel_of_pairwise_cons h.ascending (List.mem_singleton_self b)

/-- What comes later in the order does not matter. -/
theorem append_right [LawfulBEq α] (h : Along order list) (later : List α) :
    Along (order ++ later) list where
  mem := fun a hmem => List.mem_append_left _ (h.mem a hmem)
  nodup := h.nodup
  ascending := by
    refine h.ascending.imp_of_mem fun ha hb hlt => ?_
    rwa [List.idxOf_append_of_mem (h.mem _ ha), List.idxOf_append_of_mem (h.mem _ hb)]

/-- Something new goes to the end of both. -/
theorem concat [LawfulBEq α] (h : Along order list) {new : α} (hnew : new ∉ order) :
    Along (order ++ [new]) (list ++ [new]) where
  mem := by
    intro a hmem
    rcases List.mem_append.mp hmem with hmem | hmem
    · exact List.mem_append_left _ (h.mem a hmem)
    · exact List.mem_append_right _ hmem
  nodup := by
    refine List.nodup_append'.mpr ⟨h.nodup, List.nodup_singleton new, ?_⟩
    rw [List.disjoint_singleton]
    exact fun hmem => hnew (h.mem new hmem)
  ascending := by
    refine List.pairwise_append.mpr
      ⟨(h.append_right [new]).ascending, List.pairwise_singleton _ new, fun a ha b hb => ?_⟩
    rw [List.mem_singleton.mp hb, List.idxOf_append_of_mem (h.mem a ha),
      List.idxOf_append_of_notMem hnew, List.idxOf_cons_self, Nat.add_zero]
    exact List.idxOf_lt_length_of_mem (h.mem a ha)

/-- Leaving out members keeps a list along its order. -/
theorem sublist (h : Along order list) {part : List α} (hsub : part.Sublist list) :
    Along order part where
  mem := fun a hmem => h.mem a (hsub.subset hmem)
  nodup := h.nodup.sublist hsub
  ascending := h.ascending.sublist hsub

/-- Two lists along one order with the same members are one list. -/
theorem eq_of_mem_iff (h : Along order list) {other : List α} (hother : Along order other)
    (hmem : ∀ a, a ∈ list ↔ a ∈ other) : list = other := by
  have : Std.Irrefl fun a b => order.idxOf a < order.idxOf b := ⟨fun _ => Nat.lt_irrefl _⟩
  have : Std.Antisymm fun a b => order.idxOf a < order.idxOf b :=
    ⟨fun _ _ hab hba => absurd hab (Nat.lt_asymm hba)⟩
  exact h.ascending.eq_of_mem_iff hother.ascending hmem

end Along

/-! ## Positions in a list -/

namespace Positions

variable {positions : Positions} {order : List BlockId} {size : Nat} {block : BlockId}

theorem position?_setIfInBounds (hblock : block < positions.size) (other : BlockId)
    (value : Option Nat) :
    position? (positions.setIfInBounds block value) other =
      if other = block then value else positions.position? other := by
  by_cases heq : other = block
  · subst heq
    simp [position?, hblock]
  · rw [if_neg heq, position?, Array.getElem?_setIfInBounds_ne (Ne.symm heq), position?]

/-- Numbering a list from `start` on gives its members their places, and leaves the
other blocks alone. -/
theorem position?_foldl (start : Nat) (hnodup : order.Nodup)
    (hlt : ∀ block ∈ order, block < positions.size) (other : BlockId) :
    position? ((order.zipIdx start).foldl (fun positions (block, position) =>
      positions.setIfInBounds block (some position)) positions) other =
      if other ∈ order then some (order.idxOf other + start)
      else positions.position? other := by
  induction order generalizing positions start with
  | nil => simp
  | cons first rest ih =>
    obtain ⟨hnew, hrest⟩ := List.nodup_cons.mp hnodup
    have hfirst := hlt first List.mem_cons_self
    rw [List.zipIdx_cons, List.foldl_cons, ih (start + 1) hrest (fun block hblock => by
      simpa using hlt block (List.mem_cons_of_mem _ hblock))]
    by_cases hmem : other ∈ rest
    · have hne : first ≠ other := fun heq => hnew (heq ▸ hmem)
      simp [hmem, List.idxOf_cons_ne _ hne]
      omega
    · rw [if_neg hmem, position?_setIfInBounds hfirst]
      by_cases heq : other = first
      · subst heq
        simp
      · simp [heq, hmem]

theorem position?_ofOrder (hnodup : order.Nodup) (hlt : ∀ block ∈ order, block < size)
    (other : BlockId) :
    (ofOrder size order).position? other =
      if other ∈ order then some (order.idxOf other) else none := by
  have hnone : position? (Array.replicate size none) other = none := by
    by_cases h : other < size
    · simp [position?, h]
    · simp [position?, h]
  rw [ofOrder, position?_foldl 0 hnodup (by simpa using hlt), hnone]
  rfl

theorem size_ofOrder : (ofOrder size order).size = size := by
  rw [ofOrder]
  generalize hpositions : (Array.replicate size none : Positions) = positions
  have hsize : positions.size = size := by simp [← hpositions]
  clear hpositions
  generalize order.zipIdx = entries
  induction entries generalizing positions with
  | nil => exact hsize
  | cons entry rest ih => exact ih _ (by simpa using hsize)

end Positions

/-! ## Positions in the order of a search -/

namespace Graph

/-- A graph with agreeing edges, searched from one of its blocks. -/
structure Searched (graph : Graph) (head : BlockId) (order : List BlockId) : Prop
    extends graph.SearchOrder head order where
  mirrored : graph.Mirrored
  head_lt : head < graph.size

namespace Searched

variable {graph : Graph} {head a b block : BlockId} {order : List BlockId}
variable (h : graph.Searched head order)

include h

theorem lt_size (hblock : block ∈ order) : block < graph.size := by
  obtain ⟨visited, hwalk⟩ := (h.mem_iff block).mp hblock
  exact hwalk.lt_size h.mirrored.target_lt h.head_lt block hwalk.target_mem

theorem head_mem : head ∈ order :=
  (h.mem_iff head).mpr (Reaches.refl graph head)

theorem position?_eq (block : BlockId) :
    (Positions.ofOrder graph.size order).position? block =
      if block ∈ order then some (order.idxOf block) else none :=
  Positions.position?_ofOrder h.nodup (fun _ => h.lt_size) block

/-- Exactly the blocks of the order have a position. -/
theorem isSome_position? :
    ((Positions.ofOrder graph.size order).position? block).isSome ↔ block ∈ order := by
  rw [h.position?_eq]
  split <;> simp [*]

theorem rank_eq (hblock : block ∈ order) :
    (Positions.ofOrder graph.size order).rank block = order.idxOf block := by
  rw [Positions.rank, h.position?_eq, if_pos hblock, Option.getD_some]

/-- There are no more blocks in the order than in the graph. -/
theorem length_le : order.length ≤ graph.size := by
  have hsub : order ⊆ List.range graph.size := fun block hblock =>
    List.mem_range.mpr (h.lt_size hblock)
  simpa using (h.nodup.subperm hsub).length_le

theorem rank_lt_size (hblock : block ∈ order) :
    (Positions.ofOrder graph.size order).rank block < graph.size := by
  rw [h.rank_eq hblock]
  exact Nat.lt_of_lt_of_le (List.idxOf_lt_length_of_mem hblock) h.length_le

/-- A block outside the order comes after all others. -/
theorem mem_of_rank_lt (hb : b ∈ order)
    (hlt : (Positions.ofOrder graph.size order).rank a <
      (Positions.ofOrder graph.size order).rank b) : a ∈ order := by
  by_contra hnot
  have hbound : order.idxOf b < (Positions.ofOrder graph.size order).bound :=
    Positions.lt_bound ((h.position?_eq b).trans (if_pos hb))
  rw [h.rank_eq hb, Positions.rank, h.position?_eq, if_neg hnot, Option.getD_none] at hlt
  omega

theorem rank_inj (ha : a ∈ order) (hb : b ∈ order)
    (heq : (Positions.ofOrder graph.size order).rank a =
      (Positions.ofOrder graph.size order).rank b) : a = b := by
  rw [h.rank_eq ha, h.rank_eq hb] at heq
  exact (List.idxOf_inj ha).mp heq

theorem rank_head : (Positions.ofOrder graph.size order).rank head = 0 := by
  rw [h.rank_eq h.head_mem]
  obtain ⟨rest, hrest⟩ := h.first
  rw [hrest, List.idxOf_cons_self]

/-- In an order cut in two, the first part comes before the second. -/
theorem rank_lt_iff {before after : List BlockId} (horder : order = before ++ b :: after)
    (ha : a ∈ order) :
    (Positions.ofOrder graph.size order).rank a <
      (Positions.ofOrder graph.size order).rank b ↔ a ∈ before := by
  have hnodup := h.nodup
  rw [horder] at hnodup
  have hb : b ∉ before := fun hmem =>
    List.disjoint_of_nodup_append hnodup hmem List.mem_cons_self
  have hbmem : b ∈ order := by simp [horder]
  rw [h.rank_eq ha, h.rank_eq hbmem, horder, List.idxOf_append_of_notMem hb,
    List.idxOf_cons_self, Nat.add_zero]
  constructor
  · intro hlt
    by_contra hnot
    rw [List.idxOf_append_of_notMem hnot] at hlt
    omega
  · intro hmem
    rw [List.idxOf_append_of_mem hmem]
    exact List.idxOf_lt_length_of_mem hmem

/-- Every block but the head has a predecessor that comes earlier. -/
theorem exists_earlier_pred (hblock : block ∈ order) (hne : block ≠ head) :
    ∃ pred ∈ order, block ∈ graph.successors pred ∧
      (Positions.ofOrder graph.size order).rank pred <
        (Positions.ofOrder graph.size order).rank block := by
  obtain ⟨pred, hedge, hsub⟩ := (h.entered block hblock).resolve_left hne
  have hpred : pred ∈ order := hsub.subset List.mem_cons_self
  refine ⟨pred, hpred, hedge, ?_⟩
  rw [h.rank_eq hpred, h.rank_eq hblock]
  exact (Along.of_sublist hsub h.nodup).idxOf_lt

end Searched

end Graph

end MinimalSsa
