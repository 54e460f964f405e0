import Mathlib.Logic.Function.Iterate
import MinimalSsa.Proofs.Ancestors
import MinimalSsa.Proofs.Numbering

/-!
# The sweeps find the dominator tree

A sweep updates one entry of the parent table after the other, and every update
moves a whole subtree along. Two facts carry the proof through the half-updated
tables in between.

No entry goes too far up: the strict dominators of a block dominate its parent.
This is a property of each entry by itself, so updates elsewhere cannot break it.

After `n` sweeps the table knows all walks with at most `n` edges: what is above
a block is on each of them. A table in the middle of a sweep is the new one for
blocks earlier in the order and the old one for the others, and what is above a
predecessor in it is either old, or above, in the new table, a block of the walk.

* `Graph.Tentative`: the tables that the sweeps pass through.
* `Graph.Tentative.update`: one update.
* `Graph.Tentative.sweep`: one sweep, entry by entry.
* `Graph.mem_walk_of_above`: what is above a block after enough sweeps.
* `Graph.IsDominatorTree`: the table at the end.
-/

namespace MinimalSsa

namespace Graph

variable {graph : Graph} {head a b block dominator : BlockId} {order : List BlockId}
variable {parents : Parents}

/-! ## Tables that the sweeps pass through -/

/-- A rooted table over reached blocks in which no parent lies above the strict
dominators of its child. -/
structure Tentative (graph : Graph) (head : BlockId) (order : List BlockId)
    (parents : Parents) : Prop where
  size_eq : parents.size = graph.size
  rooted : parents.Rooted (Positions.ofOrder graph.size order) head
  reached : ∀ block, (parents.parent? block).isSome → graph.Reaches head block
  dominates_parent : ∀ block parent, block ≠ head → parents.parent? block = some parent →
    ∀ dominator, graph.StrictlyDominates head dominator block →
      graph.Dominates head dominator parent

namespace Tentative

/-- The dominators of a block with a parent are above it. -/
theorem above_of_dominates (h : graph.Tentative head order parents)
    (hsome : (parents.parent? block).isSome)
    (hdom : graph.Dominates head dominator block) : parents.Above dominator block := by
  -- climb: parents come earlier, and the dominator stays above them
  induction hrank : (Positions.ofOrder graph.size order).rank block using
    Nat.strongRecOn generalizing block with
  | _ rank ih =>
    by_cases heq : dominator = block
    · rw [heq]
      exact .refl block
    · have hne : block ≠ head := StrictlyDominates.ne_head ⟨heq, hdom⟩
      obtain ⟨parent, hparent⟩ := Option.isSome_iff_exists.mp hsome
      have hlt := h.rooted.rank_lt block parent hne hparent
      refine .up hparent (ih _ (hrank ▸ hlt) ?_ ?_ rfl)
      · exact h.rooted.parent_isSome block parent hparent
      · exact h.dominates_parent block parent hne hparent dominator ⟨heq, hdom⟩

/-- On the way up from a block to one of its dominators, everything is dominated. -/
theorem dominates_of_above (h : graph.Tentative head order parents)
    (hab : parents.Above a b) (hdom : graph.Dominates head dominator b)
    (habove : parents.Above dominator a) : graph.Dominates head dominator a := by
  induction hab with
  | refl => exact hdom
  | @up parent block hparent hparents ih =>
    by_cases hne : block = head
    · -- nothing but the head is above the head
      subst hne
      obtain rfl := hdom.eq_head
      exact Dominates.of_head
        (h.reached _ (h.rooted.isSome_of_above (.up hparent hparents) (by simp [hparent])))
    · refine ih (h.dominates_parent block parent hne hparent dominator ⟨?_, hdom⟩)
      rintro rfl
      have hlow := h.rooted.rank_lt dominator parent hne hparent
      have hmid := h.rooted.rank_le_of_above hparents
      have hhigh := h.rooted.rank_le_of_above habove
      omega

/-- A block that is dominated together with all predecessors that have parents is
dominated together with their meeting point. -/
theorem dominates_meet (h : graph.Tentative head order parents) {blocks : BlockId → Prop}
    {meet member : BlockId} (hmeet : parents.IsMeet blocks meet)
    (hsome : ∀ block, blocks block → (parents.parent? block).isSome)
    (hdom : ∀ block, blocks block → graph.Dominates head dominator block)
    (hmember : blocks member) : graph.Dominates head dominator meet := by
  have habove : parents.Above dominator meet := hmeet.nearest dominator fun block hblock =>
    h.above_of_dominates (hsome block hblock) (hdom block hblock)
  exact h.dominates_of_above (hmeet.above member hmember) (hdom member hmember) habove

/-- The table to start from: only the head has an entry. -/
theorem start (hsearch : graph.Searched head order) :
    graph.Tentative head order (Parents.start graph.size head) := by
  have hentry := Parents.parent?_start hsearch.head_lt
  have heq : ∀ block, ((Parents.start graph.size head).parent? block).isSome →
      block = head := fun _ => Parents.eq_head_of_start hsearch.head_lt
  constructor
  case size_eq => simp [Parents.start]
  case rooted =>
    constructor
    case root => rw [hentry, if_pos rfl]
    case rank_head => exact hsearch.rank_head
    case rank_lt =>
      intro block parent hne hparent
      exact absurd (heq block (by simp [hparent])) hne
    case parent_isSome =>
      intro block parent hparent
      obtain rfl := heq block (by simp [hparent])
      rw [hentry, if_pos rfl] at hparent
      rw [← Option.some.inj hparent, hentry, if_pos rfl]
      rfl
    case rank_inj =>
      intro a b ha hb _
      rw [heq a ha, heq b hb]
  case reached =>
    intro block hsome
    rw [heq block hsome]
    exact Reaches.refl graph head
  case dominates_parent =>
    intro block parent hne hparent
    exact absurd (heq block (by simp [hparent])) hne

/-- A block may get an earlier block with an entry for its parent, if its strict
dominators dominate that block. -/
theorem set (hsearch : graph.Searched head order) (h : graph.Tentative head order parents)
    {parent : BlockId} (hblock : block ∈ order) (hne : block ≠ head)
    (hparent : (parents.parent? parent).isSome)
    (hlt : (Positions.ofOrder graph.size order).rank parent <
      (Positions.ofOrder graph.size order).rank block)
    (hdom : ∀ dominator, graph.StrictlyDominates head dominator block →
      graph.Dominates head dominator parent) :
    graph.Tentative head order (parents.setIfInBounds block (some parent)) := by
  have hsize : block < parents.size := by
    rw [h.size_eq]
    exact hsearch.lt_size hblock
  have hentry := Parents.parent?_setIfInBounds hsize (some parent)
  constructor
  case size_eq => rw [Array.size_setIfInBounds, h.size_eq]
  case rooted =>
    refine h.rooted.set hsize hne hparent hlt fun other hother hrank => ?_
    exact hsearch.rank_inj ((hsearch.mem_iff other).mpr (h.reached other hother)) hblock hrank
  case reached =>
    intro other hother
    by_cases heq : other = block
    · rw [heq]
      exact (hsearch.mem_iff block).mp hblock
    · rw [hentry, if_neg heq] at hother
      exact h.reached other hother
  case dominates_parent =>
    intro other above hother habove
    by_cases heq : other = block
    · subst heq
      rw [hentry, if_pos rfl] at habove
      exact Option.some.inj habove ▸ hdom
    · rw [hentry, if_neg heq] at habove
      exact h.dominates_parent other above hother habove

/-- What an update does to a block with an earlier predecessor in the table: the block
gets the meeting point of its predecessors, all else stays, and the table is again
one that the sweeps may pass through. -/
theorem update (hsearch : graph.Searched head order)
    (h : graph.Tentative head order parents) {pred : BlockId} (hblock : block ∈ order)
    (hne : block ≠ head) (hedge : block ∈ graph.successors pred)
    (hsome : (parents.parent? pred).isSome)
    (hlt : (Positions.ofOrder graph.size order).rank pred <
      (Positions.ofOrder graph.size order).rank block) :
    let updated := Parents.update graph (Positions.ofOrder graph.size order) parents block
    ∃ meet, updated.parent? block = some meet ∧
      parents.IsMeet (fun other => block ∈ graph.successors other ∧
        (parents.parent? other).isSome) meet ∧
      (∀ other, other ≠ block → updated.parent? other = parents.parent? other) ∧
      graph.Tentative head order updated := by
  intro updated
  have hpreds : ∃ pred ∈ graph.predecessors block, (parents.parent? pred).isSome :=
    ⟨pred, (hsearch.mirrored.pred_iff pred block).mpr hedge, hsome⟩
  obtain ⟨meet, hall, hmeet'⟩ := h.rooted.isMeet_meetAll hpreds
  have hmeet := hmeet'.congr fun other =>
    and_congr_left' (hsearch.mirrored.pred_iff other block)
  have hupdated : updated = parents.setIfInBounds block (some meet) := by
    show Parents.update _ _ _ _ = _
    rw [Parents.update, hall]
  have hsize : block < parents.size := by
    rw [h.size_eq]
    exact hsearch.lt_size hblock
  -- the meeting point comes before the earlier predecessor, so before the block
  have habove := hmeet.above pred ⟨hedge, hsome⟩
  have hmeetLt := Nat.lt_of_le_of_lt (h.rooted.rank_le_of_above habove) hlt
  rw [hupdated]
  refine ⟨meet, ?_, hmeet, ?_, ?_⟩
  · rw [Parents.parent?_setIfInBounds hsize, if_pos rfl]
  · intro other hother
    rw [Parents.parent?_setIfInBounds hsize, if_neg hother]
  · refine h.set hsearch hblock hne (h.rooted.isSome_of_above habove hsome) hmeetLt ?_
    intro dominator hdom
    refine h.dominates_meet hmeet (fun _ hmem => hmem.2) (fun source hmem => ?_)
      ⟨hedge, hsome⟩
    exact hdom.of_edge hmem.1 (h.reached source hmem.2)

/-- Nothing but the head is above the head. -/
theorem mem_of_above_head (h : graph.Tentative head order parents) {visited : List BlockId}
    (hwalk : graph.Walk head head visited) :
    (parents.parent? head).isSome ∧ ∀ a, parents.Above a head → a ∈ visited := by
  refine ⟨by rw [h.rooted.root]; rfl, fun a habove => ?_⟩
  rw [h.rooted.eq_head_of_above habove rfl]
  exact hwalk.source_mem

end Tentative

/-! ## One sweep -/

/-- How a sweep from `old` to `new` sets the entry of `block`: `mid` is the table just
before, new for earlier blocks and old for the others, and `meet` is the entry. -/
structure Midway (graph : Graph) (head : BlockId) (order : List BlockId)
    (old new mid : Parents) (block meet : BlockId) : Prop where
  tentative : graph.Tentative head order mid
  entry : new.parent? block = some meet
  isMeet : mid.IsMeet (fun other => block ∈ graph.successors other ∧
    (mid.parent? other).isSome) meet
  earlier : ∀ other, (Positions.ofOrder graph.size order).rank other <
    (Positions.ofOrder graph.size order).rank block → mid.parent? other = new.parent? other
  later : ∀ other, (Positions.ofOrder graph.size order).rank block ≤
    (Positions.ofOrder graph.size order).rank other → mid.parent? other = old.parent? other

/-- Updating the next block of the order, when the blocks before it have entries: one of
them is a predecessor, so the block gets an entry too. -/
theorem Tentative.update_next (hsearch : graph.Searched head order)
    (h : graph.Tentative head order parents) {done todo : List BlockId}
    (horder : order = done ++ block :: todo) (hhead : head ∈ done)
    (hdone : ∀ other ∈ done, (parents.parent? other).isSome) :
    let updated := Parents.update graph (Positions.ofOrder graph.size order) parents block
    block ∉ done ∧ ∃ meet, updated.parent? block = some meet ∧
      parents.IsMeet (fun other => block ∈ graph.successors other ∧
        (parents.parent? other).isSome) meet ∧
      (∀ other, other ≠ block → updated.parent? other = parents.parent? other) ∧
      graph.Tentative head order updated ∧
      ∀ other ∈ done ++ [block], (updated.parent? other).isSome := by
  intro updated
  have hblock : block ∈ order := by simp [horder]
  have hfresh : block ∉ done := fun hmem =>
    List.disjoint_of_nodup_append (horder ▸ hsearch.nodup) hmem List.mem_cons_self
  have hne : block ≠ head := fun heq => hfresh (heq ▸ hhead)
  obtain ⟨pred, hpred, hedge, hlt⟩ := hsearch.exists_earlier_pred hblock hne
  have hpredDone : pred ∈ done := (hsearch.rank_lt_iff horder hpred).mp hlt
  obtain ⟨meet, hentry, hmeet, hother, hnext⟩ :=
    h.update hsearch hblock hne hedge (hdone pred hpredDone) hlt
  refine ⟨hfresh, meet, hentry, hmeet, hother, hnext, fun other hmem => ?_⟩
  rcases List.mem_append.mp hmem with hmem | hmem
  · rw [hother other fun heq => hfresh (heq ▸ hmem)]
    exact hdone other hmem
  · rw [List.mem_singleton.mp hmem, hentry]
    rfl

/-- Updating the rest of the order, when the blocks before it have entries. -/
theorem Tentative.foldl_update (hsearch : graph.Searched head order)
    (h : graph.Tentative head order parents) {done todo : List BlockId}
    (horder : order = done ++ todo) (hhead : head ∈ done)
    (hdone : ∀ block ∈ done, (parents.parent? block).isSome) :
    let swept := todo.foldl (Parents.update graph (Positions.ofOrder graph.size order)) parents
    graph.Tentative head order swept ∧
      (∀ block ∈ order, (swept.parent? block).isSome) ∧
      (∀ block ∈ done, swept.parent? block = parents.parent? block) ∧
      ∀ block ∈ todo, ∃ mid meet, graph.Midway head order parents swept mid block meet := by
  induction todo generalizing done parents with
  | nil =>
    rw [List.append_nil] at horder
    subst horder
    exact ⟨h, hdone, fun _ _ => rfl, fun _ hblock => absurd hblock List.not_mem_nil⟩
  | cons block todo ih =>
    intro swept
    have hblock : block ∈ order := by simp [horder]
    obtain ⟨hfresh, meet, hentry, hmeet, hother, hnext, hdone'⟩ :=
      h.update_next hsearch horder hhead hdone
    obtain ⟨htentative, hall, hkept, hrest⟩ :=
      ih hnext (by simpa using horder) (List.mem_append_left _ hhead) hdone'
    have hkeptDone : ∀ other ∈ done, swept.parent? other = parents.parent? other := by
      intro other hmem
      rw [← hother other fun heq => hfresh (heq ▸ hmem)]
      exact hkept other (List.mem_append_left _ hmem)
    refine ⟨htentative, hall, hkeptDone, fun other hmem => ?_⟩
    rcases List.mem_cons.mp hmem with rfl | htodo
    · refine ⟨parents, meet, h, ?_, hmeet, ?_, fun _ _ => rfl⟩
      · rw [← hentry]
        exact hkept other (by simp)
      · intro earlier hearlier
        have hmemOrder := hsearch.mem_of_rank_lt hblock hearlier
        exact (hkeptDone earlier ((hsearch.rank_lt_iff horder hmemOrder).mp hearlier)).symm
    · obtain ⟨mid, meet', hmid⟩ := hrest other htodo
      refine ⟨mid, meet', hmid.tentative, hmid.entry, hmid.isMeet, hmid.earlier, ?_⟩
      intro later hlater
      rw [hmid.later later hlater]
      refine hother later ?_
      rintro rfl
      -- `other` is further down the order than the block just updated
      obtain ⟨front, back, rfl⟩ := List.append_of_mem htodo
      have hsplit : order = (done ++ later :: front) ++ other :: back := by simp [horder]
      have hlt := (hsearch.rank_lt_iff hsplit hblock).mpr (by simp)
      omega

/-- What one sweep does: afterwards every reached block has an entry. -/
theorem Tentative.sweep (hsearch : graph.Searched head order)
    (h : graph.Tentative head order parents) :
    let swept := Parents.sweep graph (Positions.ofOrder graph.size order) order.tail parents
    graph.Tentative head order swept ∧
      (∀ block ∈ order, (swept.parent? block).isSome) ∧
      ∀ block ∈ order, block ≠ head →
        ∃ mid meet, graph.Midway head order parents swept mid block meet := by
  intro swept
  obtain ⟨rest, hrest⟩ := hsearch.first
  have htail : order.tail = rest := by rw [hrest, List.tail_cons]
  have hroot : ∀ block ∈ [head], (parents.parent? block).isSome := by
    intro block hblock
    rw [List.mem_singleton.mp hblock, h.rooted.root]
    rfl
  obtain ⟨htentative, hall, -, hmid⟩ :=
    h.foldl_update hsearch hrest (List.mem_singleton_self head) hroot
  have hswept : swept = rest.foldl
      (Parents.update graph (Positions.ofOrder graph.size order)) parents := by
    show Parents.sweep _ _ _ _ = _
    rw [Parents.sweep, htail]
  rw [hswept]
  refine ⟨htentative, hall, fun block hblock hne => hmid block ?_⟩
  rw [hrest] at hblock
  exact (List.mem_cons.mp hblock).resolve_left hne

/-! ## All sweeps -/

/-- The table after a number of sweeps. -/
def sweeps (graph : Graph) (head : BlockId) (order : List BlockId) (count : Nat) : Parents :=
  (Parents.sweep graph (Positions.ofOrder graph.size order) order.tail)^[count]
    (Parents.start graph.size head)

theorem sweeps_succ (count : Nat) :
    graph.sweeps head order (count + 1) =
      Parents.sweep graph (Positions.ofOrder graph.size order) order.tail
        (graph.sweeps head order count) :=
  Function.iterate_succ_apply' ..

theorem sweeps_tentative (hsearch : graph.Searched head order) (count : Nat) :
    graph.Tentative head order (graph.sweeps head order count) := by
  induction count with
  | zero => exact Tentative.start hsearch
  | succ count ih =>
    rw [sweeps_succ]
    exact (ih.sweep hsearch).1

/-- One sweep gives every reached block an entry. -/
theorem sweeps_isSome (hsearch : graph.Searched head order) (hblock : block ∈ order)
    (count : Nat) : ((graph.sweeps head order (count + 1)).parent? block).isSome := by
  rw [sweeps_succ]
  exact ((sweeps_tentative hsearch count).sweep hsearch).2.1 block hblock

/-- How the sweep after the first `count` sets the entry of a block. -/
theorem exists_midway (hsearch : graph.Searched head order) (hblock : block ∈ order)
    (hne : block ≠ head) (count : Nat) :
    ∃ mid meet, graph.Midway head order (graph.sweeps head order count)
      (graph.sweeps head order (count + 1)) mid block meet := by
  rw [sweeps_succ]
  exact ((sweeps_tentative hsearch count).sweep hsearch).2.2 block hblock hne

/-- What is above a block midway is above it in the old table, or is above, in the new
table, something that the old table has above it. -/
theorem Midway.above_cases {old new mid : Parents} {meet : BlockId}
    (h : graph.Midway head order old new mid block meet) (habove : mid.Above a b) :
    old.Above a b ∨ ∃ middle, old.Above middle b ∧ new.Above a middle := by
  induction habove with
  | refl => exact .inl (.refl a)
  | @up parent b hparent habove ih =>
    by_cases hlt : (Positions.ofOrder graph.size order).rank b <
        (Positions.ofOrder graph.size order).rank block
    · -- from here on all ancestors come before the block and are new
      refine .inr ⟨b, .refl b, Parents.Above.congr h.earlier ?_ (.up hparent habove) hlt⟩
      intro other parent hother hstep
      exact Nat.lt_of_le_of_lt (h.tentative.rooted.rank_le_of_parent hstep) hother
    · rw [h.later b (Nat.le_of_not_lt hlt)] at hparent
      rcases ih with hold | ⟨middle, hold, hnew⟩
      · exact .inl (.up hparent hold)
      · exact .inr ⟨middle, .up hparent hold, hnew⟩

/-- For the blocks before the one that is updated the table is the new one. -/
theorem Midway.above_iff {old new mid : Parents} {meet : BlockId}
    (h : graph.Midway head order old new mid block meet)
    (hnew : graph.Tentative head order new)
    (hlt : (Positions.ofOrder graph.size order).rank b <
      (Positions.ofOrder graph.size order).rank block) :
    mid.Above a b ↔ new.Above a b := by
  constructor
  · refine fun habove => habove.congr h.earlier ?_ hlt
    intro other parent hother hparent
    exact Nat.lt_of_le_of_lt (h.tentative.rooted.rank_le_of_parent hparent) hother
  · refine fun habove => habove.congr (fun other hother => (h.earlier other hother).symm) ?_ hlt
    intro other parent hother hparent
    exact Nat.lt_of_le_of_lt (hnew.rooted.rank_le_of_parent hparent) hother

/-- In the new table, what is above the entry of a block is above it midway too. -/
theorem Midway.above_of_new {old new mid : Parents} {meet : BlockId}
    (h : graph.Midway head order old new mid block meet)
    (hnew : graph.Tentative head order new) (hne : block ≠ head)
    (habove : new.Above a meet) : mid.Above a meet :=
  (h.above_iff hnew (hnew.rooted.rank_lt block meet hne h.entry)).mpr habove

/-- After `count` sweeps, or more, a block at the end of a walk of at most `count` edges
has an entry, and whatever is above it lies on the walk. -/
theorem mem_walk_of_above (hsearch : graph.Searched head order) {count enough : Nat}
    {visited : List BlockId} (hwalk : graph.Walk head block visited)
    (hlength : visited.length ≤ count + 1) (henough : count ≤ enough) :
    ((graph.sweeps head order enough).parent? block).isSome ∧
      ∀ a, (graph.sweeps head order enough).Above a block → a ∈ visited := by
  induction count generalizing block visited enough with
  | zero =>
    rcases hwalk.last_step with ⟨rfl, -⟩ | ⟨pred, before, rfl, hbefore, -⟩
    · exact (sweeps_tentative hsearch enough).mem_of_above_head hwalk
    · have hpos := List.length_pos_of_mem hbefore.source_mem
      rw [List.length_append, List.length_singleton] at hlength
      omega
  | succ count ih =>
    have hnew := sweeps_tentative hsearch enough
    by_cases hne : block = head
    · subst hne
      exact hnew.mem_of_above_head hwalk
    obtain ⟨enough, rfl⟩ : ∃ fewer, enough = fewer + 1 := ⟨enough - 1, by omega⟩
    have hblock : block ∈ order := (hsearch.mem_iff block).mpr ⟨visited, hwalk⟩
    refine ⟨sweeps_isSome hsearch hblock enough, fun a habove => ?_⟩
    -- 1. cut off the last edge, and look at the table when the block was updated
    rcases hwalk.last_step with ⟨heq, -⟩ | ⟨pred, before, rfl, hbefore, hedge⟩
    · exact absurd heq.symm hne
    have hshort : before.length ≤ count + 1 := by simpa using hlength
    obtain ⟨hpredOld, hold⟩ := ih hbefore hshort (Nat.le_of_succ_le_succ henough)
    obtain ⟨mid, meet, hmid⟩ := exists_midway hsearch hblock hne enough
    by_cases heq : a = block
    · exact List.mem_append_right _ (List.mem_singleton.mpr heq)
    refine List.mem_append_left _ ?_
    -- 2. the predecessor took part in that update
    have hpredMid : (mid.parent? pred).isSome := by
      by_cases hlt : (Positions.ofOrder graph.size order).rank pred <
          (Positions.ofOrder graph.size order).rank block
      · rw [hmid.earlier pred hlt]
        exact sweeps_isSome hsearch (hsearch.mem_of_rank_lt hblock hlt) enough
      · rw [hmid.later pred (Nat.le_of_not_lt hlt)]
        exact hpredOld
    have hpredAbove : mid.Above a pred :=
      (hmid.above_of_new hnew hne (habove.of_parent heq hmid.entry)).trans
        (hmid.isMeet.above pred ⟨hedge, hpredMid⟩)
    -- 3. so what is above it is on the shorter walk, or above something on it
    rcases hmid.above_cases hpredAbove with hup | ⟨middle, hup, hdown⟩
    · exact hold a hup
    · obtain ⟨front, back, rfl⟩ := List.append_of_mem (hold middle hup)
      have hfront : (front ++ [middle]).length ≤ count + 1 := by
        simp at hshort ⊢
        omega
      have hmem := (ih hbefore.split.1 hfront (Nat.le_of_succ_le henough)).2 a hdown
      rw [show front ++ middle :: back = (front ++ [middle]) ++ back by simp]
      exact List.mem_append_left _ hmem

/-- After as many sweeps as there are blocks, being above is dominating. -/
theorem above_sweeps_iff (hsearch : graph.Searched head order) {count : Nat}
    (hcount : graph.size ≤ count) (hblock : graph.Reaches head block) :
    (graph.sweeps head order count).Above a block ↔ graph.Dominates head a block := by
  have hshort : ∀ visited, graph.Walk head block visited →
      ∃ simple, graph.Walk head block simple ∧ simple.length ≤ graph.size + 1 ∧
        ∀ other ∈ simple, other ∈ visited := by
    intro visited hwalk
    obtain ⟨simple, hsimple, hnodup, hsub⟩ := hwalk.exists_nodup
    have hrange : simple ⊆ List.range graph.size := fun other hother =>
      List.mem_range.mpr
        (hsimple.lt_size hsearch.mirrored.target_lt hsearch.head_lt other hother)
    have hle := (hnodup.subperm hrange).length_le
    rw [List.length_range] at hle
    exact ⟨simple, hsimple, Nat.le_succ_of_le hle, hsub⟩
  constructor
  · refine fun habove => ⟨hblock, fun visited hwalk => ?_⟩
    obtain ⟨simple, hsimple, hlength, hsub⟩ := hshort visited hwalk
    exact hsub a ((mem_walk_of_above hsearch hsimple hlength hcount).2 a habove)
  · intro hdom
    obtain ⟨visited, hwalk⟩ := hblock
    obtain ⟨simple, hsimple, hlength, -⟩ := hshort visited hwalk
    exact (sweeps_tentative hsearch count).above_of_dominates
      (mem_walk_of_above hsearch hsimple hlength hcount).1 hdom

/-- By then the entry of a block is its closest strict dominator. -/
theorem immediatelyDominates_sweeps (hsearch : graph.Searched head order) {count : Nat}
    (hcount : graph.size ≤ count) {parent : BlockId} (hne : block ≠ head)
    (hparent : (graph.sweeps head order count).parent? block = some parent) :
    graph.ImmediatelyDominates head parent block := by
  have hsettled := sweeps_tentative hsearch count
  have hblock : graph.Reaches head block := hsettled.reached block (by simp [hparent])
  have hreach : graph.Reaches head parent :=
    hsettled.reached parent (hsettled.rooted.parent_isSome block parent hparent)
  refine ⟨⟨?_, ?_⟩, fun other hother => ?_⟩
  · rintro rfl
    exact Nat.lt_irrefl _ (hsettled.rooted.rank_lt parent parent hne hparent)
  · exact (above_sweeps_iff hsearch hcount hblock).mp (.up hparent (.refl parent))
  · have habove := (above_sweeps_iff hsearch hcount hblock).mpr hother.2
    exact (above_sweeps_iff hsearch hcount hreach).mp (habove.of_parent hother.1 hparent)

/-- The bound on the sweeps allows for one more than there are blocks. -/
theorem size_lt_rounds (size : Nat) : size < Parents.rounds size := by
  have hsquare := Nat.le_mul_self size
  rw [Parents.rounds, Nat.mul_assoc]
  omega

/-- Sweeping until nothing changes, or for a number of times, is sweeping that number
of times. -/
theorem settle_eq_iterate (positions : Positions) (blocks : List BlockId) (count : Nat)
    (parents : Parents) :
    Parents.settle graph positions blocks count parents =
      (Parents.sweep graph positions blocks)^[count] parents := by
  induction count generalizing parents with
  | zero => rfl
  | succ count ih =>
    rw [Parents.settle]
    by_cases hfixed : Parents.sweep graph positions blocks parents = parents
    · rw [if_pos hfixed, Function.iterate_fixed hfixed]
    · rw [if_neg hfixed, ih, Function.iterate_succ_apply]

/-! ## The tree -/

/-- The dominator tree of a head: above a block are its dominators, and every reached
block but the head has its closest strict dominator for a parent. -/
structure IsDominatorTree (graph : Graph) (head : BlockId) (order : List BlockId)
    (parents : Parents) : Prop where
  size_eq : parents.size = graph.size
  forest : parents.Forest (Positions.ofOrder graph.size order)
  isSome_iff : ∀ block, (parents.parent? block).isSome ↔
    block ≠ head ∧ graph.Reaches head block
  above_iff : ∀ a b, graph.Reaches head b → (parents.Above a b ↔ graph.Dominates head a b)
  immediate : ∀ block parent, parents.parent? block = some parent →
    graph.ImmediatelyDominates head parent block

/-- The sweeps end with the dominator tree. -/
theorem parents_isDominatorTree (hsearch : graph.Searched head order) :
    graph.IsDominatorTree head order (graph.parents head order) := by
  have hrounds := Nat.le_of_lt (size_lt_rounds graph.size)
  have hsettled := sweeps_tentative hsearch (Parents.rounds graph.size)
  have hparents : graph.parents head order =
      (graph.sweeps head order (Parents.rounds graph.size)).setIfInBounds head none := by
    rw [Graph.parents, settle_eq_iterate]
    rfl
  have hhead : head < (graph.sweeps head order (Parents.rounds graph.size)).size := by
    rw [hsettled.size_eq]
    exact hsearch.head_lt
  have hentry : ∀ block, (graph.parents head order).parent? block =
      if block = head then none
      else (graph.sweeps head order (Parents.rounds graph.size)).parent? block := by
    intro block
    rw [hparents, Parents.parent?_setIfInBounds hhead]
  have hcut : ∀ block parent, (graph.parents head order).parent? block = some parent →
      block ≠ head ∧
        (graph.sweeps head order (Parents.rounds graph.size)).parent? block = some parent := by
    intro block parent hparent
    rw [hentry] at hparent
    by_cases hne : block = head
    · simp [hne] at hparent
    · rw [if_neg hne] at hparent
      exact ⟨hne, hparent⟩
  constructor
  case size_eq => rw [hparents, Array.size_setIfInBounds, hsettled.size_eq]
  case forest =>
    intro block parent hparent
    obtain ⟨hne, hold⟩ := hcut block parent hparent
    exact hsettled.rooted.rank_lt block parent hne hold
  case isSome_iff =>
    intro block
    rw [hentry]
    by_cases hne : block = head
    · simp [hne]
    · rw [if_neg hne]
      refine ⟨fun hsome => ⟨hne, hsettled.reached block hsome⟩, fun ⟨_, hreach⟩ => ?_⟩
      exact sweeps_isSome hsearch ((hsearch.mem_iff block).mpr hreach) _
  case immediate =>
    intro block parent hparent
    obtain ⟨hne, hold⟩ := hcut block parent hparent
    exact immediatelyDominates_sweeps hsearch hrounds hne hold
  case above_iff =>
    intro a b hb
    rw [← above_sweeps_iff hsearch hrounds hb, hparents]
    exact hsettled.rooted.above_cut_iff hhead

/-- A further sweep changes nothing: it is not their number that ends the sweeps. -/
theorem sweep_sweeps (hsearch : graph.Searched head order) {count : Nat}
    (hcount : graph.size ≤ count) :
    Parents.sweep graph (Positions.ofOrder graph.size order) order.tail
      (graph.sweeps head order (count + 1)) = graph.sweeps head order (count + 1) := by
  rw [← sweeps_succ]
  have hone := sweeps_tentative hsearch (count + 1)
  have htwo := sweeps_tentative hsearch (count + 1 + 1)
  refine Parents.ext (htwo.size_eq.trans hone.size_eq.symm) fun block => ?_
  by_cases hne : block = head
  · rw [hne, hone.rooted.root, htwo.rooted.root]
  by_cases hblock : block ∈ order
  · -- both entries are the closest strict dominator
    obtain ⟨first, hfirst⟩ :=
      Option.isSome_iff_exists.mp (sweeps_isSome hsearch hblock count)
    obtain ⟨second, hsecond⟩ :=
      Option.isSome_iff_exists.mp (sweeps_isSome hsearch hblock (count + 1))
    rw [hfirst, hsecond]
    exact congrArg some ((immediatelyDominates_sweeps hsearch (by omega) hne hsecond).unique
      (immediatelyDominates_sweeps hsearch (by omega) hne hfirst))
  · have hnone : ∀ more, (graph.sweeps head order more).parent? block = none := by
      intro more
      by_contra hsome
      have hreach := (sweeps_tentative hsearch more).reached block
        (Option.isSome_iff_ne_none.mpr hsome)
      exact hblock ((hsearch.mem_iff block).mpr hreach)
    rw [hnone, hnone]

end Graph

end MinimalSsa
