import Mathlib.Data.List.Nodup
import Mathlib.Tactic.ByContra
import MinimalSsa.Graph

/-!
# Walks and the order of dominance

How walks are joined, cut and shortened, and what dominance by walks is as a
relation: an order on the blocks that a head reaches, with the head below
everything.

* `Graph.Walk.append`, `Graph.Walk.split`: joining two walks, and cutting one at a
  visit of a block.
* `Graph.Walk.last_step`: a walk is its source alone or has a last edge.
* `Graph.Walk.exists_nodup`: a walk can be shortened until no block repeats.
* `Graph.Dominates.antisymm`: two blocks that dominate each other are one block.
* `Graph.StrictlyDominates.of_edge`: a strict dominator of the target of an edge
  dominates its source.
-/

namespace MinimalSsa

namespace Graph

variable {graph : Graph} {head source middle target block dominator : BlockId}
variable {visited first second : List BlockId}

/-! ## Cutting and joining walks -/

namespace Walk

/-- The blocks of a walk begin with its source. -/
theorem eq_cons (h : graph.Walk source target visited) :
    ∃ rest, visited = source :: rest := by
  cases h with
  | here => exact ⟨[], rfl⟩
  | step _ _ => exact ⟨_, rfl⟩

theorem source_mem (h : graph.Walk source target visited) : source ∈ visited := by
  obtain ⟨rest, rfl⟩ := h.eq_cons
  exact List.mem_cons_self

theorem target_mem (h : graph.Walk source target visited) : target ∈ visited := by
  induction h with
  | here => exact List.mem_singleton_self _
  | step _ _ ih => exact List.mem_cons_of_mem _ ih

/-- Walk on along one more edge. -/
theorem snoc (h : graph.Walk source middle visited)
    (hedge : target ∈ graph.successors middle) :
    graph.Walk source target (visited ++ [target]) := by
  induction h with
  | here => exact .step hedge (.here target)
  | step hstep _ ih => exact .step hstep (ih hedge)

/-- Two walks, the second one from where the first one ends. -/
theorem append (hfirst : graph.Walk source middle first)
    (hsecond : graph.Walk middle target (middle :: second)) :
    graph.Walk source target (first ++ second) := by
  induction hfirst with
  | here => exact hsecond
  | step hstep _ ih => exact .step hstep (ih hsecond)

/-- A walk that visits a block is a walk to it and a walk from it. -/
theorem split {before after : List BlockId}
    (h : graph.Walk source target (before ++ block :: after)) :
    graph.Walk source block (before ++ [block]) ∧
      graph.Walk block target (block :: after) := by
  generalize hvisited : before ++ block :: after = visited at h
  induction h generalizing before with
  | here only =>
    cases before with
    | nil =>
      obtain ⟨rfl, rfl⟩ := List.cons.inj hvisited
      exact ⟨.here block, .here block⟩
    | cons first before => simp at hvisited
  | step hstep htail ih =>
    cases before with
    | nil =>
      obtain ⟨rfl, rfl⟩ := List.cons.inj hvisited
      exact ⟨.here block, .step hstep htail⟩
    | cons first before =>
      obtain ⟨rfl, hrest⟩ := List.cons.inj hvisited
      obtain ⟨hto, hfrom⟩ := ih hrest
      exact ⟨.step hstep hto, hfrom⟩

/-- A walk is its source alone, or a walk with one more edge at its end. -/
theorem last_step (h : graph.Walk source target visited) :
    (source = target ∧ visited = [source]) ∨
      ∃ pred before, visited = before ++ [target] ∧ graph.Walk source pred before ∧
        target ∈ graph.successors pred := by
  induction h with
  | here block => exact .inl ⟨rfl, rfl⟩
  | @step source next target visited hstep _ ih =>
    rcases ih with ⟨rfl, rfl⟩ | ⟨pred, before, rfl, hto, hedge⟩
    · exact .inr ⟨source, [source], rfl, .here source, hstep⟩
    · exact .inr ⟨pred, source :: before, rfl, .step hstep hto, hedge⟩

/-- A walk without repetitions stays inside any walk. -/
theorem exists_nodup (h : graph.Walk source target visited) :
    ∃ simple, graph.Walk source target simple ∧ simple.Nodup ∧
      ∀ other ∈ simple, other ∈ visited := by
  induction h with
  | here block =>
    exact ⟨[block], .here block, List.nodup_singleton block, fun _ hother => hother⟩
  | @step source next target visited hstep _ ih =>
    obtain ⟨simple, hsimple, hnodup, hsub⟩ := ih
    by_cases hmem : source ∈ simple
    · -- the source comes again: start from its later visit
      obtain ⟨before, after, rfl⟩ := List.append_of_mem hmem
      refine ⟨source :: after, hsimple.split.2, (List.nodup_append.mp hnodup).2.1, ?_⟩
      intro other hother
      exact List.mem_cons_of_mem _ (hsub other (List.mem_append_right _ hother))
    · refine ⟨source :: simple, .step hstep hsimple,
        List.nodup_cons.mpr ⟨hmem, hnodup⟩, ?_⟩
      intro other hother
      rcases List.mem_cons.mp hother with rfl | hother
      · exact List.mem_cons_self
      · exact List.mem_cons_of_mem _ (hsub other hother)

/-- In a graph whose edges lead to its own blocks, a walk from a block stays inside. -/
theorem lt_size (hclosed : ∀ a b, b ∈ graph.successors a → b < graph.size)
    (h : graph.Walk source target visited) (hsource : source < graph.size) :
    ∀ other ∈ visited, other < graph.size := by
  induction h with
  | here block =>
    intro other hother
    rwa [List.mem_singleton.mp hother]
  | step hstep _ ih =>
    intro other hother
    rcases List.mem_cons.mp hother with rfl | hother
    · exact hsource
    · exact ih (hclosed _ _ hstep) other hother

end Walk

/-! ## Reachability -/

namespace Reaches

theorem refl (graph : Graph) (block : BlockId) : graph.Reaches block block :=
  ⟨[block], .here block⟩

theorem step (h : graph.Reaches source middle) (hedge : target ∈ graph.successors middle) :
    graph.Reaches source target := by
  obtain ⟨visited, hwalk⟩ := h
  exact ⟨visited ++ [target], hwalk.snoc hedge⟩

/-- Every block on a walk is reached. -/
theorem of_mem (h : graph.Walk source target visited) (hmem : block ∈ visited) :
    graph.Reaches source block := by
  obtain ⟨before, after, rfl⟩ := List.append_of_mem hmem
  exact ⟨before ++ [block], h.split.1⟩

/-- A set of blocks that holds the source and every successor of a member holds all
that is reached. -/
theorem mem_of_closed {region : BlockId → Prop} (h : graph.Reaches source target)
    (hsource : region source)
    (hclosed : ∀ a, region a → ∀ b ∈ graph.successors a, region b) : region target := by
  obtain ⟨visited, hwalk⟩ := h
  induction hwalk with
  | here => exact hsource
  | step hstep _ ih => exact ih (hclosed _ hsource _ hstep)

end Reaches

/-! ## Dominance -/

namespace Dominates

/-- Every reachable block dominates itself. -/
theorem refl (h : graph.Reaches head block) : graph.Dominates head block block :=
  ⟨h, fun _ hwalk => hwalk.target_mem⟩

/-- The head dominates every reachable block. -/
theorem of_head (h : graph.Reaches head block) : graph.Dominates head head block :=
  ⟨h, fun _ hwalk => hwalk.source_mem⟩

/-- A dominator is itself reachable. -/
theorem reaches (h : graph.Dominates head dominator block) :
    graph.Reaches head dominator := by
  obtain ⟨⟨visited, hwalk⟩, hall⟩ := h
  exact Reaches.of_mem hwalk (hall visited hwalk)

theorem trans {a b c : BlockId} (hab : graph.Dominates head a b)
    (hbc : graph.Dominates head b c) : graph.Dominates head a c := by
  refine ⟨hbc.1, fun visited hwalk => ?_⟩
  obtain ⟨before, after, rfl⟩ := List.append_of_mem (hbc.2 visited hwalk)
  have ha : a ∈ before ++ [b] := hab.2 _ hwalk.split.1
  rw [show before ++ b :: after = (before ++ [b]) ++ after by simp]
  exact List.mem_append_left _ ha

/-- Two blocks that dominate each other are one block. -/
theorem antisymm {a b : BlockId} (hab : graph.Dominates head a b)
    (hba : graph.Dominates head b a) : a = b := by
  by_contra hne
  obtain ⟨visited, hwalk⟩ := hab.1
  -- on the way to the first visit of `b` comes `a`, and on the way to that comes `b`
  obtain ⟨before, after, rfl, hfirst⟩ := List.eq_append_cons_of_mem hwalk.target_mem
  have ha : a ∈ before := by
    rcases List.mem_append.mp (hab.2 _ hwalk.split.1) with ha | ha
    · exact ha
    · exact absurd (List.mem_singleton.mp ha) hne
  obtain ⟨early, late, rfl⟩ := List.append_of_mem ha
  rw [List.append_assoc] at hwalk
  rcases List.mem_append.mp (hba.2 _ hwalk.split.1) with hb | hb
  · exact hfirst (List.mem_append_left _ hb)
  · exact hne (List.mem_singleton.mp hb).symm

/-- Only the head dominates the head. -/
theorem eq_head (h : graph.Dominates head dominator head) : dominator = head :=
  List.mem_singleton.mp (h.2 [head] (.here head))

end Dominates

/-- `dominator` dominates `block` and is another block. -/
def StrictlyDominates (graph : Graph) (head dominator block : BlockId) : Prop :=
  dominator ≠ block ∧ graph.Dominates head dominator block

namespace StrictlyDominates

/-- A strict dominator of the target of an edge dominates its source. -/
theorem of_edge (h : graph.StrictlyDominates head dominator block)
    (hedge : block ∈ graph.successors source) (hsource : graph.Reaches head source) :
    graph.Dominates head dominator source := by
  refine ⟨hsource, fun visited hwalk => ?_⟩
  rcases List.mem_append.mp (h.2.2 _ (hwalk.snoc hedge)) with hmem | hmem
  · exact hmem
  · exact absurd (List.mem_singleton.mp hmem) h.1

/-- The head has no strict dominator. -/
theorem ne_head (h : graph.StrictlyDominates head dominator block) : block ≠ head := by
  rintro rfl
  exact h.1 h.2.eq_head

end StrictlyDominates

/-- The strict dominator of `block` that all strict dominators dominate. -/
def ImmediatelyDominates (graph : Graph) (head dominator block : BlockId) : Prop :=
  graph.StrictlyDominates head dominator block ∧
    ∀ other, graph.StrictlyDominates head other block → graph.Dominates head other dominator

/-- A block has at most one such dominator. -/
theorem ImmediatelyDominates.unique {a b : BlockId}
    (ha : graph.ImmediatelyDominates head a block)
    (hb : graph.ImmediatelyDominates head b block) : a = b :=
  (hb.2 a ha.1).antisymm (ha.2 b hb.1)

end Graph

end MinimalSsa
