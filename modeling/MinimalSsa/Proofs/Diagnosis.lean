import Mathlib.Data.List.Count
import Mathlib.Data.List.Dedup
import Mathlib.Data.List.Sort
import Mathlib.Data.Prod.Lex
import Mathlib.Order.Bounds.Basic
import MinimalSsa.Proofs.Edges

/-!
# The edge check names the first defect

`Method.verify` stops at the first defect it meets, so what it answers depends on the order
in which it looks. For references that is the order in which the blocks make them. Unequal
edges are compared in ascending order, source before target, and the answer is the least
one. The second half may as well be done with tables that count the edges of each side, as
long as the edges of the tables are sorted before they are compared: in which order the
tables list them then has no part in the answer.

* `Method.missingReference?_eq_some_iff`: the first reference that leads nowhere.
* `Method.unequal`, `Method.isLeast_of_unbalancedEdge?`: the least edge that is listed
  unequally.
* `Method.tabulate`, `Method.ascending`, `Method.compareTables`: edges counted in tables,
  and compared in order.
* `Method.compareTables_eq`: comparing the tables finds the same edge.
* `Method.verify_diagnoses`: the check as a whole.
-/

namespace MinimalSsa

namespace Method

variable {method : Method} {source target : BlockId}

/-! ## References -/

/-- The first reference to a block that does not exist. -/
theorem missingReference?_eq_some_iff {reference : BlockId × BlockId} :
    method.missingReference? = some reference ↔
      ∃ before after, method.references = before ++ reference :: after ∧
        (∀ earlier ∈ before, earlier.2 < method.size) ∧ method.size ≤ reference.2 := by
  rw [missingReference?, List.find?_eq_some_iff_append]
  simp only [hasBlock, Bool.not_eq_true', decide_eq_false_iff_not, Nat.not_lt, Bool.not_not,
    decide_eq_true_eq]
  constructor
  · rintro ⟨hmissing, before, after, hsplit, hbefore⟩
    exact ⟨before, after, hsplit, hbefore, hmissing⟩
  · rintro ⟨before, after, hsplit, hbefore, hmissing⟩
    exact ⟨hmissing, before, after, hsplit, hbefore⟩

/-- All references exist if those of every block do, and the heads. -/
theorem present_iff : (∀ reference ∈ method.references, reference.2 < method.size) ↔
    (∀ (block : BlockId) (found : Block), method.blocks[block]? = some found →
      (∀ target ∈ found.terminator.targets, target < method.size) ∧
        ∀ pred ∈ found.preds, pred < method.size) ∧
    ∀ head ∈ method.heads, head < method.size := by
  constructor
  · intro h
    refine ⟨fun block found hfound => ⟨fun target htarget => ?_, fun pred hpred => ?_⟩, ?_⟩
    · exact h (block, target) (mem_references_of_block hfound (.inl htarget))
    · exact h (block, pred) (mem_references_of_block hfound (.inr hpred))
    · exact fun head hhead => h (head, head) (mem_references_of_head hhead)
  · rintro ⟨hblocks, hheads⟩ reference hreference
    rcases of_mem_references hreference with ⟨found, hfound, htarget | hpred⟩ | hhead
    · exact (hblocks _ found hfound).1 _ htarget
    · exact (hblocks _ found hfound).2 _ hpred
    · exact hheads _ hhead

/-! ## Unequal edges -/

/-- The edges that are listed unequally on their two sides, in the order of their sources
and then of their targets. -/
def unequal (method : Method) : Set (BlockId ×ₗ BlockId) :=
  {edge | method.outCount (ofLex edge).1 (ofLex edge).2 ≠
    method.inCount (ofLex edge).1 (ofLex edge).2}

theorem mem_unequal_iff : toLex (source, target) ∈ method.unequal ↔
    method.outCount source target ≠ method.inCount source target :=
  Iff.rfl

/-- What comes before a number where it is listed among those below a bound. -/
theorem mem_of_range_eq_append {size number smaller : Nat} {before after : List Nat}
    (hrange : List.range size = before ++ number :: after) (hlt : smaller < number) :
    smaller ∈ before := by
  have hascending : (before ++ number :: after).Pairwise (· < ·) :=
    hrange ▸ List.pairwise_lt_range
  have hnumber : number ∈ List.range size := by simp [hrange]
  have hsmaller : smaller ∈ before ++ number :: after := by
    rw [← hrange, List.mem_range]
    exact hlt.trans (List.mem_range.mp hnumber)
  refine (List.mem_append.mp hsmaller).resolve_right fun hlater => ?_
  rcases List.mem_cons.mp hlater with rfl | hlater
  · exact Nat.lt_irrefl _ hlt
  · exact Nat.lt_asymm hlt
      (List.rel_of_pairwise_cons (List.pairwise_append.mp hascending).2.1 hlater)

/-- The search by sources and targets finds the least one. -/
theorem isLeast_of_unbalancedEdge?
    (hpresent : ∀ reference ∈ method.references, reference.2 < method.size)
    (h : method.unbalancedEdge? = some (source, target)) :
    IsLeast method.unequal (toLex (source, target)) := by
  rw [unbalancedEdge?, List.findSome?_eq_some_iff] at h
  obtain ⟨before, found, after, hrange, hfound, hbefore⟩ := h
  obtain ⟨other, hother, hpair⟩ := Option.map_eq_some_iff.mp hfound
  obtain ⟨rfl, rfl⟩ := Prod.mk.inj hpair
  obtain ⟨hne, -, hfirst⟩ := List.find?_range_eq_some.mp hother
  refine ⟨by simpa [mem_unequal_iff] using hne, fun edge hedge => ?_⟩
  obtain ⟨⟨first, second⟩, rfl⟩ := toLex.surjective edge
  have hsecond := (lt_size_of_ne hpresent (mem_unequal_iff.mp hedge)).2
  rw [mem_unequal_iff] at hedge
  rw [Prod.Lex.toLex_le_toLex]
  rcases Nat.lt_trichotomy found first with hlt | rfl | hgt
  · exact .inl hlt
  · -- the same source: no earlier target is listed unequally
    refine .inr ⟨rfl, Nat.le_of_not_lt fun hlt => hedge ?_⟩
    simpa using hfirst second hlt
  · -- an earlier source has no target that is
    have hnone := Option.map_eq_none_iff.mp (hbefore first (mem_of_range_eq_append hrange hgt))
    have hequal := List.find?_eq_none.mp hnone second (List.mem_range.mpr hsecond)
    exact absurd (by simpa using hequal) hedge

/-- If it finds none, there is none. -/
theorem notMem_unequal_of_unbalancedEdge?
    (hpresent : ∀ reference ∈ method.references, reference.2 < method.size)
    (h : method.unbalancedEdge? = none) : toLex (source, target) ∉ method.unequal := by
  intro hmem
  obtain ⟨hsource, htarget⟩ := lt_size_of_ne hpresent (mem_unequal_iff.mp hmem)
  exact hmem (unbalancedEdge?_eq_none_iff.mp h source hsource target htarget)

/-! ## Tables -/

/-- The edges that the terminators list, block by block. -/
def outEdges (method : Method) : List (BlockId × BlockId) :=
  method.indexedBlocks.flatMap fun (block, position) =>
    block.terminator.targets.map (position, ·)

/-- The edges that the predecessor lists hold, block by block. -/
def inEdges (method : Method) : List (BlockId × BlockId) :=
  method.indexedBlocks.flatMap fun (block, position) => block.preds.map (·, position)

/-- A table of how often each edge comes in a list. -/
def tabulate (edges : List (BlockId × BlockId)) : Std.HashMap (BlockId × BlockId) Nat :=
  edges.foldl (fun table edge => table.alter edge fun count => some (count.getD 0 + 1)) ∅

/-- The edges of a list, each once, by their sources and then by their targets. -/
def ascending (edges : List (BlockId × BlockId)) : List (BlockId × BlockId) :=
  (edges.mergeSort fun a b => toLex a ≤ toLex b).dedup

/-- Compare two tables at the edges of a list, in ascending order. -/
def compareTables (outgoing incoming : Std.HashMap (BlockId × BlockId) Nat)
    (edges : List (BlockId × BlockId)) : Except Violation Unit :=
  match (ascending edges).find? fun edge => outgoing.getD edge 0 != incoming.getD edge 0 with
  | some edge =>
    .error (.inconsistentEdge edge.1 edge.2 (outgoing.getD edge 0) (incoming.getD edge 0))
  | none => .ok ()

/-- Counting edges into a table adds them to what the table holds. -/
theorem getD_foldl_alter (edges : List (BlockId × BlockId))
    (table : Std.HashMap (BlockId × BlockId) Nat) (edge : BlockId × BlockId) :
    (edges.foldl (fun table edge => table.alter edge fun count => some (count.getD 0 + 1))
      table).getD edge 0 = table.getD edge 0 + edges.count edge := by
  induction edges generalizing table with
  | nil => rfl
  | cons first edges ih =>
    rw [List.foldl_cons, ih, Std.HashMap.getD_alter, List.count_cons]
    by_cases heq : first = edge
    · subst heq
      simp [Std.HashMap.getD_eq_getD_getElem?]
      omega
    · simp [heq]

theorem getD_tabulate (edges : List (BlockId × BlockId)) (edge : BlockId × BlockId) :
    (tabulate edges).getD edge 0 = edges.count edge := by
  rw [tabulate, getD_foldl_alter]
  simp

/-- A table has an entry for every edge of the list, and for no other. -/
theorem mem_foldl_alter {edges : List (BlockId × BlockId)}
    {table : Std.HashMap (BlockId × BlockId) Nat} {edge : BlockId × BlockId} :
    edge ∈ edges.foldl (fun table edge => table.alter edge fun count =>
      some (count.getD 0 + 1)) table ↔ edge ∈ table ∨ edge ∈ edges := by
  induction edges generalizing table with
  | nil => simp
  | cons first edges ih =>
    rw [List.foldl_cons, ih, Std.HashMap.mem_alter, List.mem_cons]
    by_cases heq : first = edge
    · simp [heq]
    · simp [heq, Ne.symm heq]

theorem mem_keys_tabulate {edges : List (BlockId × BlockId)} {edge : BlockId × BlockId} :
    edge ∈ (tabulate edges).keys ↔ edge ∈ edges := by
  rw [Std.HashMap.mem_keys, tabulate, mem_foldl_alter]
  simp

/-- A count over a list with positions to which one position alone contributes. -/
theorem count_flatMap_zipIdx {edge : BlockId × BlockId} {blocks : List Block}
    {edgesOf : Block × Nat → List (BlockId × BlockId)} {weight : Block → Nat} {position : Nat}
    (h : ∀ block other, (edgesOf (block, other)).count edge =
      if other = position then weight block else 0) (start : Nat) :
    ((blocks.zipIdx start).flatMap edgesOf).count edge =
      if start ≤ position then (blocks[position - start]?.map weight).getD 0 else 0 := by
  induction blocks generalizing start with
  | nil => simp
  | cons block blocks ih =>
    rw [List.zipIdx_cons, List.flatMap_cons, List.count_append, h, ih]
    rcases Nat.lt_trichotomy start position with hlt | rfl | hgt
    · have hskip : position - start = (position - (start + 1)) + 1 := by omega
      rw [if_neg hlt.ne, if_pos (Nat.succ_le_of_lt hlt), if_pos hlt.le, hskip,
        List.getElem?_cons_succ, Nat.zero_add]
    · simp
    · rw [if_neg (Nat.ne_of_gt hgt), if_neg (by omega), if_neg (by omega)]

/-- Where the blocks list edges at their own end, the count of an edge is that of its other
end in one of these lists. -/
theorem count_listed {edge : BlockId → BlockId → BlockId × BlockId}
    (hedge : Function.Injective2 edge) (ends : Block → List BlockId)
    (position other : BlockId) :
    (method.indexedBlocks.flatMap fun (block, position) =>
      (ends block).map (edge position)).count (edge position other) =
        (method.blocks[position]?.map fun found => (ends found).count other).getD 0 := by
  have hcount : ∀ (block : Block) (place : Nat),
      ((ends block).map (edge place)).count (edge position other) =
        if place = position then (ends block).count other else 0 := by
    intro block place
    split
    · next heq =>
      rw [heq]
      exact List.count_map_of_injective _ _ (hedge.right position) other
    · next hne =>
      refine List.count_eq_zero.mpr fun hmem => hne ?_
      obtain ⟨found, -, heq⟩ := List.mem_map.mp hmem
      exact (hedge heq).1
  rw [indexedBlocks, count_flatMap_zipIdx hcount, if_pos (Nat.zero_le _), Nat.sub_zero,
    Array.getElem?_toList]

/-- The edges of the terminators are counted at their sources. -/
theorem count_outEdges (source target : BlockId) :
    method.outEdges.count (source, target) = method.outCount source target := by
  have hpair : Function.Injective2 fun source target : BlockId => (source, target) :=
    fun _ _ _ _ heq => Prod.mk.inj heq
  refine (count_listed hpair (·.terminator.targets) source target).trans ?_
  rw [outCount]
  cases method.blocks[source]? with
  | none => rfl
  | some found => rfl

/-- Those of the predecessor lists are counted at their targets. -/
theorem count_inEdges (source target : BlockId) :
    method.inEdges.count (source, target) = method.inCount source target := by
  have hpair : Function.Injective2 fun target source : BlockId => (source, target) :=
    fun _ _ _ _ heq => (Prod.mk.inj heq).symm
  refine (count_listed hpair (·.preds) target source).trans ?_
  rw [inCount]
  cases method.blocks[target]? with
  | none => rfl
  | some found => rfl

theorem mem_ascending_iff {edges : List (BlockId × BlockId)} {edge : BlockId × BlockId} :
    edge ∈ ascending edges ↔ edge ∈ edges := by
  rw [ascending, List.mem_dedup, List.mem_mergeSort]

theorem pairwise_ascending (edges : List (BlockId × BlockId)) :
    (ascending edges).Pairwise fun a b => toLex a ≤ toLex b :=
  (List.pairwise_mergeSort' (fun a b : BlockId × BlockId => toLex a ≤ toLex b) edges).sublist
    (List.dedup_sublist _)

/-- In an ascending list, the first edge with a property is the least one. -/
theorem find?_eq_some_of_isLeast {edges : List (BlockId × BlockId)} {edge : BlockId × BlockId}
    {property : BlockId × BlockId → Bool}
    (hsorted : edges.Pairwise fun a b => toLex a ≤ toLex b) (hmem : edge ∈ edges)
    (hedge : property edge = true)
    (hleast : ∀ other ∈ edges, property other = true → toLex edge ≤ toLex other) :
    edges.find? property = some edge := by
  induction edges with
  | nil => exact absurd hmem List.not_mem_nil
  | cons first edges ih =>
    obtain ⟨hfirst, hrest⟩ := List.pairwise_cons.mp hsorted
    by_cases heq : edge = first
    · rw [← heq, List.find?_cons_of_pos hedge]
    · have hin : edge ∈ edges := (List.mem_cons.mp hmem).resolve_left heq
      -- the first one comes before the edge, so it cannot have the property
      have hnot : ¬ property first = true := fun hproperty =>
        heq (toLex.injective (le_antisymm (hleast first List.mem_cons_self hproperty)
          (hfirst edge hin)))
      rw [List.find?_cons_of_neg hnot]
      exact ih hrest hin fun other hother => hleast other (List.mem_cons_of_mem _ hother)

/-- Comparing the tables at all of their edges, in whatever order these come, answers like
the check of a method whose references exist. -/
theorem compareTables_eq
    (hpresent : ∀ reference ∈ method.references, reference.2 < method.size)
    {edges : List (BlockId × BlockId)}
    (hedges : ∀ edge, edge ∈ edges ↔ edge ∈ method.outEdges ∨ edge ∈ method.inEdges) :
    compareTables (tabulate method.outEdges) (tabulate method.inEdges) edges =
      method.verify := by
  have hunequal : ∀ edge, (method.outEdges.count edge != method.inEdges.count edge) = true ↔
      toLex edge ∈ method.unequal := by
    rintro ⟨source, target⟩
    rw [count_outEdges, count_inEdges, bne_iff_ne, mem_unequal_iff]
  simp only [compareTables, getD_tabulate]
  rw [verify, missingReference?_eq_none_iff.mpr hpresent]
  cases hedge : method.unbalancedEdge? with
  | none =>
    -- no edge is unequal, in the list or not
    have hnone : (ascending edges).find?
        (fun edge => method.outEdges.count edge != method.inEdges.count edge) = none := by
      refine List.find?_eq_none.mpr fun edge _ hproperty => ?_
      exact notMem_unequal_of_unbalancedEdge? hpresent hedge ((hunequal edge).mp hproperty)
    rw [hnone]
  | some edge =>
    obtain ⟨source, target⟩ := edge
    have hleast := isLeast_of_unbalancedEdge? hpresent hedge
    have hproperty := (hunequal (source, target)).mpr hleast.1
    -- an edge with unequal counts is counted in one of the tables
    have hlisted : (source, target) ∈ method.outEdges ∨ (source, target) ∈ method.inEdges := by
      by_contra hneither
      obtain ⟨hout, hin⟩ := not_or.mp hneither
      exact bne_iff_ne.mp hproperty
        ((List.count_eq_zero.mpr hout).trans (List.count_eq_zero.mpr hin).symm)
    have hfirst : (ascending edges).find?
        (fun edge => method.outEdges.count edge != method.inEdges.count edge) =
          some (source, target) :=
      find?_eq_some_of_isLeast (pairwise_ascending edges)
        (mem_ascending_iff.mpr ((hedges _).mpr hlisted)) hproperty
        fun other _ hother => hleast.2 ((hunequal other).mp hother)
    rw [hfirst]
    simp only [count_outEdges, count_inEdges]

/-! ## The check as a whole -/

/-- The check passes exactly the methods whose references exist and whose edges are listed
equally on both sides. Otherwise it names the first defect: a missing block by the first
reference to one, block by block the targets before the predecessors and the heads last, and
an unequal edge by the least one, with its two counts. Tables of the two sides find the same
edge, whatever the order in which they list theirs. -/
theorem verify_diagnoses (method : Method) :
    (method.verify = .ok () ↔
      (∀ (block : BlockId) (found : Block), method.blocks[block]? = some found →
        (∀ target ∈ found.terminator.targets, target < method.size) ∧
          ∀ pred ∈ found.preds, pred < method.size) ∧
      (∀ head ∈ method.heads, head < method.size) ∧
      ∀ source target, method.outCount source target = method.inCount source target) ∧
    ((∃ reference ∈ method.references, method.size ≤ reference.2) →
      ∃ before block target after, method.references = before ++ (block, target) :: after ∧
        (∀ earlier ∈ before, earlier.2 < method.size) ∧ method.size ≤ target ∧
        method.verify = .error (.missingBlock block target)) ∧
    ((∀ reference ∈ method.references, reference.2 < method.size) →
      ((∃ source target, method.outCount source target ≠ method.inCount source target) →
        ∃ source target, IsLeast method.unequal (toLex (source, target)) ∧
          method.verify = .error (.inconsistentEdge source target
            (method.outCount source target) (method.inCount source target))) ∧
      ∀ edges : List (BlockId × BlockId),
        edges.Perm ((tabulate method.outEdges).keys ++ (tabulate method.inEdges).keys) →
          compareTables (tabulate method.outEdges) (tabulate method.inEdges) edges =
            method.verify) := by
  refine ⟨?_, fun hmissing => ?_, fun hpresent => ⟨fun hunequal => ?_, fun edges hperm => ?_⟩⟩
  · rw [verify_eq_ok_iff, ← and_assoc, ← present_iff]
    exact ⟨fun h => ⟨h.present, h.balanced⟩, fun h => ⟨h.1, h.2⟩⟩
  · cases hfound : method.missingReference? with
    | none =>
      obtain ⟨reference, hreference, hle⟩ := hmissing
      have hlt := missingReference?_eq_none_iff.mp hfound reference hreference
      exact absurd hlt (Nat.not_lt_of_le hle)
    | some reference =>
      obtain ⟨block, target⟩ := reference
      obtain ⟨before, after, hsplit, hbefore, hle⟩ := missingReference?_eq_some_iff.mp hfound
      exact ⟨before, block, target, after, hsplit, hbefore, hle, by rw [verify, hfound]⟩
  · cases hedge : method.unbalancedEdge? with
    | none =>
      obtain ⟨source, target, hne⟩ := hunequal
      exact absurd (mem_unequal_iff.mpr hne) (notMem_unequal_of_unbalancedEdge? hpresent hedge)
    | some edge =>
      obtain ⟨source, target⟩ := edge
      refine ⟨source, target, isLeast_of_unbalancedEdge? hpresent hedge, ?_⟩
      rw [verify, missingReference?_eq_none_iff.mpr hpresent, hedge]
  · refine compareTables_eq hpresent fun edge => ?_
    rw [hperm.mem_iff, List.mem_append, mem_keys_tabulate, mem_keys_tabulate]

/-- Block 0 leads to block 1 twice, which lists one of the edges. Block 1 leads to itself
once and lists that twice. Block 0 lists an edge from block 2, which leads nowhere. -/
def lopsided : Method where
  name := "lopsided"
  heads := [0]
  blocks := #[
    { terminator := .branch (.boolean true) 1 1, preds := [2] },
    { terminator := .jump 1, preds := [1, 0, 1] },
    { terminator := .ret none }]

/-- The least of its three defects is found, from the table too; and a head that does not
exist comes before them all. -/
theorem verify_diagnoses_lopsided :
    (∀ reference ∈ lopsided.references, reference.2 < lopsided.size) ∧
      lopsided.outCount 2 0 ≠ lopsided.inCount 2 0 ∧
      IsLeast lopsided.unequal (toLex (0, 1)) ∧
      lopsided.verify = .error (.inconsistentEdge 0 1 2 1) ∧
      compareTables (tabulate lopsided.outEdges) (tabulate lopsided.inEdges)
        ((tabulate lopsided.outEdges).keys ++ (tabulate lopsided.inEdges).keys).reverse =
          .error (.inconsistentEdge 0 1 2 1) ∧
      ∃ before after, ({ lopsided with heads := [0, 5] } : Method).references =
        before ++ (5, 5) :: after ∧
      ({ lopsided with heads := [0, 5] } : Method).verify = .error (.missingBlock 5 5) := by
  have hpresent : ∀ reference ∈ lopsided.references, reference.2 < lopsided.size := by decide
  have hunequal : lopsided.outCount 2 0 ≠ lopsided.inCount 2 0 := by decide
  have hverify : lopsided.verify = .error (.inconsistentEdge 0 1 2 1) := by rfl
  obtain ⟨-, -, hedges⟩ := verify_diagnoses lopsided
  obtain ⟨hleast, htables⟩ := hedges hpresent
  obtain ⟨source, target, hleast, herror⟩ := hleast ⟨2, 0, hunequal⟩
  obtain ⟨rfl, rfl, -, -⟩ :=
    Violation.inconsistentEdge.inj (Except.error.inj (hverify.symm.trans herror))
  obtain ⟨-, hmissing, -⟩ := verify_diagnoses { lopsided with heads := [0, 5] }
  obtain ⟨before, block, target, after, hsplit, -, -, herror⟩ := hmissing ⟨(5, 5), by decide⟩
  have hhead : ({ lopsided with heads := [0, 5] } : Method).verify =
      .error (.missingBlock 5 5) := by rfl
  obtain ⟨rfl, rfl⟩ := Violation.missingBlock.inj (Except.error.inj (hhead.symm.trans herror))
  refine ⟨hpresent, hunequal, hleast, hverify, ?_, before, after, hsplit, herror⟩
  rw [htables _ (List.reverse_perm _), hverify]

end Method

end MinimalSsa
