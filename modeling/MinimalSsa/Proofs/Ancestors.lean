import Mathlib.Data.Finset.Card
import Mathlib.Data.Finset.Range
import Mathlib.Tactic.ByContra
import MinimalSsa.Dominance.Parents

/-!
# Ancestors in a parent table

A parent table with a numbering of the blocks in which parents come before their
children is a tree. In it the chains of two blocks have a nearest common member,
and climbing from whichever block comes later finds it.

* `Parents.Above`: a block is another one or an ancestor of it.
* `Parents.Rooted`: the head is its own parent, and every other parent comes earlier
  and has a parent too. This is the shape of the tables that the sweeps work on.
* `Parents.IsMeet`: the nearest block above all of some blocks.
* `Parents.Rooted.isMeet_meet`, `Parents.Rooted.isMeet_meetAll`: the meeting point of
  two blocks and that of a predecessor list.
* `Parents.Rooted.set`, `Parents.Rooted.above_cut_iff`: changing one entry, and taking
  away that of the head.
* `Parents.Forest.mem_chain_iff`: the chain of a block lists what is above it.
-/

namespace MinimalSsa

namespace Parents

variable {parents : Parents} {positions : Positions} {head a b c block parent : BlockId}

/-! ## The ancestor relation -/

/-- `parents.Above a b`: climbing from `b`, perhaps not at all, leads to `a`. -/
inductive Above (parents : Parents) : BlockId → BlockId → Prop where
  | refl (block : BlockId) : Above parents block block
  | up {ancestor parent block : BlockId} :
      parents.parent? block = some parent → Above parents ancestor parent →
      Above parents ancestor block

namespace Above

theorem trans (hab : parents.Above a b) (hbc : parents.Above b c) : parents.Above a c := by
  induction hbc with
  | refl => exact hab
  | up hparent _ ih => exact .up hparent ih

/-- An ancestor that is another block is above the parent. -/
theorem of_parent (h : parents.Above a b) (hne : a ≠ b)
    (hparent : parents.parent? b = some parent) : parents.Above a parent := by
  cases h with
  | refl => exact absurd rfl hne
  | up hother habove =>
    obtain rfl : parent = _ := Option.some.inj (hparent.symm.trans hother)
    exact habove

/-- Ancestors agree in two tables that agree on everything passed on the way. -/
theorem congr {others : Parents} {region : BlockId → Prop}
    (hagree : ∀ block, region block → parents.parent? block = others.parent? block)
    (hclosed : ∀ block parent, region block → parents.parent? block = some parent →
      region parent)
    (h : parents.Above a b) (hb : region b) : others.Above a b := by
  induction h with
  | refl => exact .refl _
  | @up parent block hparent _ ih =>
    refine .up ?_ (ih (hclosed block parent hb hparent))
    rw [← hagree block hb]
    exact hparent

end Above

/-! ## Rooted tables -/

/-- The head is its own parent and comes first; any other parent comes before its
child and has a parent too. No two blocks with parents share a position. -/
structure Rooted (parents : Parents) (positions : Positions) (head : BlockId) : Prop where
  root : parents.parent? head = some head
  rank_head : positions.rank head = 0
  rank_lt : ∀ block parent, block ≠ head → parents.parent? block = some parent →
    positions.rank parent < positions.rank block
  parent_isSome : ∀ block parent, parents.parent? block = some parent →
    (parents.parent? parent).isSome
  rank_inj : ∀ a b, (parents.parent? a).isSome → (parents.parent? b).isSome →
    positions.rank a = positions.rank b → a = b

namespace Rooted

variable (h : parents.Rooted positions head)

include h

/-- A parent never comes after its child. -/
theorem rank_le_of_parent (hparent : parents.parent? block = some parent) :
    positions.rank parent ≤ positions.rank block := by
  by_cases hhead : block = head
  · subst hhead
    rw [h.root] at hparent
    exact Nat.le_of_eq (congrArg positions.rank (Option.some.inj hparent).symm)
  · exact Nat.le_of_lt (h.rank_lt block parent hhead hparent)

/-- Ancestors come no later. -/
theorem rank_le_of_above (habove : parents.Above a b) :
    positions.rank a ≤ positions.rank b := by
  induction habove with
  | refl => exact Nat.le_refl _
  | up hparent _ ih => exact Nat.le_trans ih (h.rank_le_of_parent hparent)

/-- Ancestors of a block with a parent have parents. -/
theorem isSome_of_above (habove : parents.Above a b) (hb : (parents.parent? b).isSome) :
    (parents.parent? a).isSome := by
  induction habove with
  | refl => exact hb
  | up hparent _ ih => exact ih (h.parent_isSome _ _ hparent)

/-- Nothing else is above the head. -/
theorem eq_head_of_above (habove : parents.Above a b) (hb : b = head) : a = head := by
  induction habove with
  | refl => exact hb
  | up hparent _ ih =>
    rw [hb, h.root] at hparent
    exact ih (Option.some.inj hparent).symm

/-- A block after another one is not the head, so it has a parent to climb to. -/
theorem climb_of_lt (ha : (parents.parent? a).isSome)
    (hlt : positions.rank b < positions.rank a) :
    parents.parent? a = some (parents.climb a) ∧
      positions.rank (parents.climb a) < positions.rank a := by
  obtain ⟨parent, hparent⟩ := Option.isSome_iff_exists.mp ha
  have hclimb : parents.climb a = parent := by simp [climb, hparent]
  have hne : a ≠ head := by
    rintro rfl
    rw [h.rank_head] at hlt
    exact absurd hlt (Nat.not_lt_zero _)
  rw [hclimb]
  exact ⟨hparent, h.rank_lt a parent hne hparent⟩

end Rooted

/-! ## Changing one entry -/

theorem parent?_setIfInBounds (hblock : block < parents.size) (value : Option BlockId)
    (other : BlockId) :
    parent? (parents.setIfInBounds block value) other =
      if other = block then value else parents.parent? other := by
  by_cases heq : other = block
  · subst heq
    simp [parent?, hblock]
  · rw [if_neg heq, parent?, Array.getElem?_setIfInBounds_ne (Ne.symm heq), parent?]

/-- In the table to start from only the head has an entry. -/
theorem parent?_start {size : Nat} (hhead : head < size) (block : BlockId) :
    (start size head).parent? block = if block = head then some head else none := by
  have hsize : head < (Array.replicate size none : Parents).size := by simpa using hhead
  rw [start, parent?_setIfInBounds hsize]
  by_cases hlt : block < size <;> simp [parent?, hlt]

theorem eq_head_of_start {size : Nat} (hhead : head < size)
    (hsome : ((start size head).parent? block).isSome) : block = head := by
  by_contra hne
  rw [parent?_start hhead, if_neg hne] at hsome
  exact absurd hsome (by simp)

/-- Tables of one size with the same parents are equal. -/
theorem ext {others : Parents} (hsize : parents.size = others.size)
    (h : ∀ block, parents.parent? block = others.parent? block) : parents = others := by
  refine Array.ext hsize fun block hblock hother => ?_
  have hentry := h block
  simpa [parent?, hblock, hother] using hentry

/-- A block other than the head may get any earlier block with a parent for its own. -/
theorem Rooted.set (h : parents.Rooted positions head) (hblock : block < parents.size)
    (hne : block ≠ head) (hparent : (parents.parent? parent).isSome)
    (hlt : positions.rank parent < positions.rank block)
    (hinj : ∀ other, (parents.parent? other).isSome →
      positions.rank other = positions.rank block → other = block) :
    Rooted (parents.setIfInBounds block (some parent)) positions head := by
  have hentry := parent?_setIfInBounds hblock (some parent)
  -- a block with an entry is the changed one or had an entry before
  have hcases : ∀ other, (parent? (parents.setIfInBounds block (some parent)) other).isSome →
      other = block ∨ (parents.parent? other).isSome := by
    intro other hsome
    by_cases heq : other = block
    · exact .inl heq
    · rw [hentry, if_neg heq] at hsome
      exact .inr hsome
  have hgrow : ∀ other, (parents.parent? other).isSome →
      (parent? (parents.setIfInBounds block (some parent)) other).isSome := by
    intro other hsome
    rw [hentry]
    split
    · rfl
    · exact hsome
  constructor
  case root => rw [hentry, if_neg (Ne.symm hne), h.root]
  case rank_head => exact h.rank_head
  case rank_lt =>
    intro other above hother habove
    by_cases heq : other = block
    · subst heq
      rw [hentry, if_pos rfl] at habove
      exact Option.some.inj habove ▸ hlt
    · rw [hentry, if_neg heq] at habove
      exact h.rank_lt other above hother habove
  case parent_isSome =>
    intro other above habove
    by_cases heq : other = block
    · rw [hentry, if_pos heq] at habove
      exact Option.some.inj habove ▸ hgrow parent hparent
    · rw [hentry, if_neg heq] at habove
      exact hgrow above (h.parent_isSome other above habove)
  case rank_inj =>
    intro a b ha hb hrank
    rcases hcases a ha with rfl | haOld <;> rcases hcases b hb with rfl | hbOld
    · rfl
    · exact (hinj b hbOld hrank.symm).symm
    · exact hinj a haOld hrank
    · exact h.rank_inj a b haOld hbOld hrank

/-- Taking away the entry of the head keeps what is above what. -/
theorem Rooted.above_cut_iff (h : parents.Rooted positions head)
    (hhead : head < parents.size) :
    Above (parents.setIfInBounds head none) a b ↔ parents.Above a b := by
  have hentry := parent?_setIfInBounds hhead none
  constructor
  · intro habove
    induction habove with
    | refl => exact .refl a
    | @up parent block hparent _ ih =>
      rw [hentry] at hparent
      split at hparent
      · exact absurd hparent (by simp)
      · exact .up hparent ih
  · intro habove
    induction habove with
    | refl => exact .refl a
    | @up parent block hparent habove ih =>
      by_cases hblock : block = head
      · -- the chain ends at the head
        rw [h.eq_head_of_above (.up hparent habove) hblock, hblock]
        exact .refl head
      · refine .up ?_ ih
        rw [hentry, if_neg hblock]
        exact hparent

/-! ## Meeting points -/

/-- Only blocks of the table have a parent. -/
theorem lt_size_of_isSome (h : (parents.parent? block).isSome) : block < parents.size := by
  by_contra hge
  have hnone : parents[block]? = none := Array.getElem?_eq_none (Nat.le_of_not_lt hge)
  simp [parent?, hnone] at h

/-- The number of blocks with a parent that come before `block`. -/
def height (parents : Parents) (positions : Positions) (block : BlockId) : Nat :=
  ((Finset.range parents.size).filter fun other =>
    (parents.parent? other).isSome ∧ positions.rank other < positions.rank block).card

theorem height_le_size : parents.height positions block ≤ parents.size :=
  (Finset.card_filter_le _ _).trans_eq (Finset.card_range _)

/-- An earlier block with a parent is lower. -/
theorem height_lt (ha : (parents.parent? a).isSome)
    (hlt : positions.rank a < positions.rank b) :
    parents.height positions a < parents.height positions b := by
  refine Finset.card_lt_card (Finset.ssubset_iff_of_subset ?_ |>.mpr ⟨a, ?_, ?_⟩)
  · intro other hother
    rw [Finset.mem_filter] at hother ⊢
    exact ⟨hother.1, hother.2.1, hother.2.2.trans hlt⟩
  · exact Finset.mem_filter.mpr ⟨Finset.mem_range.mpr (lt_size_of_isSome ha), ha, hlt⟩
  · intro hmem
    exact Nat.lt_irrefl _ (Finset.mem_filter.mp hmem).2.2

/-- `meet` is above all of `blocks`, and whatever else is, is above `meet`. -/
structure IsMeet (parents : Parents) (blocks : BlockId → Prop) (meet : BlockId) : Prop where
  above : ∀ block, blocks block → parents.Above meet block
  nearest : ∀ other, (∀ block, blocks block → parents.Above other block) →
    parents.Above other meet

theorem IsMeet.congr {blocks others : BlockId → Prop} {meet : BlockId}
    (h : parents.IsMeet blocks meet) (hiff : ∀ block, blocks block ↔ others block) :
    parents.IsMeet others meet := by
  obtain rfl : blocks = others := funext fun block => propext (hiff block)
  exact h

theorem IsMeet.self (block : BlockId) :
    parents.IsMeet (fun other => other = block ∨ other = block) block where
  above other hother := by
    rcases hother with rfl | rfl <;> exact .refl _
  nearest other hother := hother block (.inl rfl)

namespace Rooted

variable (h : parents.Rooted positions head)

include h

/-- Of two blocks the later one is not above the other, so both meet where its parent
and the other do. -/
theorem isMeet_of_parent {meet : BlockId} (hparent : parents.parent? a = some parent)
    (hlt : positions.rank b < positions.rank a)
    (hmeet : parents.IsMeet (fun block => block = parent ∨ block = b) meet) :
    parents.IsMeet (fun block => block = a ∨ block = b) meet := by
  refine ⟨?_, fun other hother => hmeet.nearest other ?_⟩
  · rintro block (rfl | rfl)
    · exact .up hparent (hmeet.above _ (.inl rfl))
    · exact hmeet.above _ (.inr rfl)
  · rintro block (rfl | rfl)
    · have hne : other ≠ a := by
        rintro rfl
        have hle := h.rank_le_of_above (hother b (.inr rfl))
        omega
      exact (hother a (.inl rfl)).of_parent hne hparent
    · exact hother block (.inr rfl)

/-- Climbing finds the nearest common ancestor. Each climb lowers the sum of the two
heights, so that many climbs are enough. -/
theorem isMeet_meetUpTo (count : Nat) (a b : BlockId) (ha : (parents.parent? a).isSome)
    (hb : (parents.parent? b).isSome)
    (hcount : parents.height positions a + parents.height positions b ≤ count) :
    parents.IsMeet (fun block => block = a ∨ block = b)
      (parents.meetUpTo positions count a b) := by
  induction count generalizing a b with
  | zero =>
    have hnotlt : ∀ x y, (parents.parent? x).isSome → parents.height positions y = 0 →
        ¬ positions.rank x < positions.rank y := fun x y hx hy hlt =>
      Nat.not_lt_zero _ (hy ▸ height_lt hx hlt)
    have hba := hnotlt b a hb (by omega)
    have hab := hnotlt a b ha (by omega)
    obtain rfl : a = b := h.rank_inj a b ha hb (by omega)
    exact IsMeet.self a
  | succ count ih =>
    rw [meetUpTo]
    by_cases heq : a = b
    · subst heq
      rw [if_pos rfl]
      exact IsMeet.self a
    rw [if_neg heq]
    by_cases hlt : positions.rank b < positions.rank a
    · -- `a` comes later and climbs
      rw [if_pos hlt]
      obtain ⟨hparent, hrank⟩ := h.climb_of_lt ha hlt
      have hsome := h.parent_isSome _ _ hparent
      have hheight := height_lt hsome hrank
      exact h.isMeet_of_parent hparent hlt (ih (parents.climb a) b hsome hb (by omega))
    · -- `b` comes later, since positions differ
      rw [if_neg hlt]
      have hrankne : positions.rank a ≠ positions.rank b := fun hrank =>
        heq (h.rank_inj a b ha hb hrank)
      have hlt' : positions.rank a < positions.rank b := by omega
      obtain ⟨hparent, hrank⟩ := h.climb_of_lt hb hlt'
      have hsome := h.parent_isSome _ _ hparent
      have hheight := height_lt hsome hrank
      have hmeet := ih a (parents.climb b) ha hsome (by omega)
      have hswap := h.isMeet_of_parent hparent hlt' (hmeet.congr fun _ => or_comm)
      exact hswap.congr fun _ => or_comm

/-- The meeting point of two blocks is their nearest common ancestor. -/
theorem isMeet_meet (ha : (parents.parent? a).isSome) (hb : (parents.parent? b).isSome) :
    parents.IsMeet (fun block => block = a ∨ block = b) (parents.meet positions a b) := by
  refine h.isMeet_meetUpTo _ a b ha hb ?_
  have hle : ∀ block, parents.height positions block ≤ parents.size := fun _ => height_le_size
  have hlea := hle a
  have hleb := hle b
  omega

/-- Blocks have one meeting point only. -/
theorem isMeet_unique {blocks : BlockId → Prop} {meet other : BlockId}
    (hmeet : parents.IsMeet blocks meet) (hother : parents.IsMeet blocks other)
    (hblock : blocks block) (hsome : (parents.parent? block).isSome) : meet = other := by
  have hup := h.rank_le_of_above (hother.nearest meet hmeet.above)
  have hdown := h.rank_le_of_above (hmeet.nearest other hother.above)
  refine h.rank_inj meet other ?_ ?_ (Nat.le_antisymm hup hdown)
  · exact h.isSome_of_above (hmeet.above block hblock) hsome
  · exact h.isSome_of_above (hother.above block hblock) hsome

/-- One more block with a parent is met with the meeting point so far. -/
theorem isMeet_meet_insert {blocks : BlockId → Prop} (hc : parents.IsMeet blocks c)
    (ha : (parents.parent? a).isSome) (hsome : (parents.parent? c).isSome) :
    parents.IsMeet (fun block => block = a ∨ blocks block) (parents.meet positions a c) := by
  have hmeet := h.isMeet_meet ha hsome
  refine ⟨?_, fun other hother => hmeet.nearest other ?_⟩
  · rintro block (rfl | hblock)
    · exact hmeet.above block (.inl rfl)
    · exact (hmeet.above c (.inr rfl)).trans (hc.above block hblock)
  · rintro block (rfl | rfl)
    · exact hother block (.inl rfl)
    · exact hc.nearest other fun block hblock => hother block (.inr hblock)

/-- Blocks with parents are met one after the other with what was there. -/
theorem foldl_meetPred (preds : List BlockId) {blocks : BlockId → Prop}
    (hpreds : ∀ pred ∈ preds, (parents.parent? pred).isSome)
    (hc : parents.IsMeet blocks c) (hsome : (parents.parent? c).isSome) :
    ∃ meet, preds.foldl (parents.meetPred positions) (some c) = some meet ∧
      parents.IsMeet (fun block => blocks block ∨ block ∈ preds) meet := by
  induction preds generalizing blocks c with
  | nil => exact ⟨c, rfl, by simpa using hc⟩
  | cons pred rest ih =>
    have hpred := hpreds pred List.mem_cons_self
    obtain ⟨parent, hparent⟩ := Option.isSome_iff_exists.mp hpred
    have hnext := h.isMeet_meet_insert hc hpred hsome
    have hnextSome := h.isSome_of_above (hnext.above pred (.inl rfl)) hpred
    obtain ⟨meet, hfold, hmeet⟩ :=
      ih (fun other hother => hpreds other (List.mem_cons_of_mem _ hother)) hnext hnextSome
    refine ⟨meet, ?_, hmeet.congr fun block => ?_⟩
    · rw [List.foldl_cons, meetPred, hparent]
      exact hfold
    · rw [List.mem_cons, or_assoc, or_left_comm]

end Rooted

/-- Predecessors without a parent play no part. -/
theorem foldl_meetPred_filter (keep : BlockId → Bool) (preds : List BlockId)
    (hdrop : ∀ pred ∈ preds, keep pred = false → parents.parent? pred = none)
    (found : Option BlockId) :
    (preds.filter keep).foldl (parents.meetPred positions) found =
      preds.foldl (parents.meetPred positions) found := by
  induction preds generalizing found with
  | nil => rfl
  | cons pred rest ih =>
    have hrest := ih fun other hother => hdrop other (List.mem_cons_of_mem _ hother)
    cases hkeep : keep pred with
    | false =>
      have hnone := hdrop pred List.mem_cons_self hkeep
      rw [List.filter_cons_of_neg (by simp [hkeep]), List.foldl_cons, hrest]
      simp [meetPred, hnone]
    | true =>
      rw [List.filter_cons_of_pos hkeep, List.foldl_cons, List.foldl_cons, hrest]

/-- The meeting point of a predecessor list is that of its members with parents. -/
theorem Rooted.isMeet_meetAll (h : parents.Rooted positions head) {preds : List BlockId}
    (hpreds : ∃ pred ∈ preds, (parents.parent? pred).isSome) :
    ∃ meet, parents.meetAll positions preds = some meet ∧
      parents.IsMeet (fun pred => pred ∈ preds ∧ (parents.parent? pred).isSome) meet := by
  rw [meetAll, ← foldl_meetPred_filter (fun pred => (parents.parent? pred).isSome) preds
    (by simp)]
  cases hset : preds.filter fun pred => (parents.parent? pred).isSome with
  | nil =>
    obtain ⟨pred, hmem, hsome⟩ := hpreds
    have hin : pred ∈ preds.filter fun pred => (parents.parent? pred).isSome :=
      List.mem_filter.mpr ⟨hmem, hsome⟩
    rw [hset] at hin
    exact absurd hin List.not_mem_nil
  | cons first rest =>
    have hall : ∀ pred, pred ∈ first :: rest ↔
        pred ∈ preds ∧ (parents.parent? pred).isSome := by
      intro pred
      rw [← hset, List.mem_filter]
    have hfirst := (hall first).mp List.mem_cons_self
    obtain ⟨parent, hparent⟩ := Option.isSome_iff_exists.mp hfirst.2
    have hself : parents.IsMeet (fun block => block = first) first :=
      ⟨by rintro block rfl; exact .refl block, fun other hother => hother first rfl⟩
    obtain ⟨meet, hfold, hmeet⟩ := h.foldl_meetPred rest
      (fun pred hpred => ((hall pred).mp (List.mem_cons_of_mem _ hpred)).2) hself hfirst.2
    refine ⟨meet, ?_, hmeet.congr fun pred => ?_⟩
    · rw [List.foldl_cons, meetPred, hparent]
      exact hfold
    · rw [← hall pred, List.mem_cons]

/-! ## Chains -/

/-- Every parent comes before its child: the finished table, whose head has none. -/
def Forest (parents : Parents) (positions : Positions) : Prop :=
  ∀ block parent, parents.parent? block = some parent →
    positions.rank parent < positions.rank block

theorem above_of_mem_chainUpTo {count : Nat} (h : a ∈ parents.chainUpTo count b) :
    parents.Above a b := by
  induction count generalizing b with
  | zero => exact absurd h List.not_mem_nil
  | succ count ih =>
    rw [chainUpTo] at h
    rcases List.mem_cons.mp h with rfl | h
    · exact .refl a
    · cases hparent : parents.parent? b with
      | none => simp [hparent] at h
      | some parent =>
        rw [hparent] at h
        exact .up hparent (ih h)

namespace Forest

variable (h : parents.Forest positions)

include h

theorem rank_le (habove : parents.Above a b) : positions.rank a ≤ positions.rank b := by
  induction habove with
  | refl => exact Nat.le_refl _
  | up hparent _ ih => exact Nat.le_trans ih (Nat.le_of_lt (h _ _ hparent))

/-- A chain is complete once it may be longer than the position of its block. -/
theorem mem_chainUpTo {count : Nat} (habove : parents.Above a b)
    (hcount : positions.rank b < count) : a ∈ parents.chainUpTo count b := by
  induction habove generalizing count with
  | refl =>
    cases count with
    | zero => exact absurd hcount (Nat.not_lt_zero _)
    | succ count => exact List.mem_cons_self
  | @up parent block hparent _ ih =>
    have hlt := h block parent hparent
    cases count with
    | zero => exact absurd hcount (Nat.not_lt_zero _)
    | succ count =>
      rw [chainUpTo, hparent]
      exact List.mem_cons_of_mem _ (ih (by omega))

/-- The chain of a block lists what is above it. -/
theorem mem_chain_iff (hrank : positions.rank b < parents.size) :
    a ∈ parents.chain b ↔ parents.Above a b :=
  ⟨above_of_mem_chainUpTo, fun habove => h.mem_chainUpTo habove hrank⟩

/-- A chain is over before it is longer than the position of its block allows. -/
theorem chainUpTo_eq {count enough : Nat} (hcount : positions.rank b < count)
    (henough : positions.rank b < enough) :
    parents.chainUpTo count b = parents.chainUpTo enough b := by
  induction count generalizing b enough with
  | zero => exact absurd hcount (Nat.not_lt_zero _)
  | succ count ih =>
    cases enough with
    | zero => exact absurd henough (Nat.not_lt_zero _)
    | succ enough =>
      rw [chainUpTo, chainUpTo]
      cases hparent : parents.parent? b with
      | none => rfl
      | some parent =>
        have hlt := h b parent hparent
        exact congrArg (b :: ·) (ih (by omega) (by omega))

/-- What is passed before a member of the chain is not above that member. -/
theorem mem_takeWhile_chainUpTo {top : BlockId} {count : Nat} (habove : parents.Above top b)
    (hcount : positions.rank b < count) :
    a ∈ (parents.chainUpTo count b).takeWhile (some · != some top) ↔
      parents.Above a b ∧ ¬ parents.Above a top := by
  induction habove generalizing count with
  | refl =>
    cases count with
    | zero => exact absurd hcount (Nat.not_lt_zero _)
    | succ count => simp [chainUpTo]
  | @up parent block hparent habove ih =>
    have hlt := h block parent hparent
    have htop := h.rank_le habove
    cases count with
    | zero => exact absurd hcount (Nat.not_lt_zero _)
    | succ count =>
      have hne : block ≠ top := by
        rintro rfl
        omega
      have hself : ¬ parents.Above block top := fun hup => by
        have := h.rank_le hup
        omega
      rw [chainUpTo, hparent, List.takeWhile_cons_of_pos (by simpa using hne), List.mem_cons,
        ih (by omega)]
      constructor
      · rintro (rfl | ⟨hup, hnot⟩)
        · exact ⟨.refl _, hself⟩
        · exact ⟨.up hparent hup, hnot⟩
      · rintro ⟨hup, hnot⟩
        by_cases heq : a = block
        · exact .inl heq
        · exact .inr ⟨hup.of_parent heq hparent, hnot⟩

end Forest

end Parents

end MinimalSsa
