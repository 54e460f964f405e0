import Mathlib.Data.Set.Finite.Basic
import MinimalSsa.Proofs.Meeting
import MinimalSsa.Proofs.Totality

/-!
# The sweeps converge

From the second sweep on the entries of the parent table only move up. This is not
a matter of one update: an entry is found in a table that other updates of the same
sweep have changed already. What holds the sweeps together is that every block has
a predecessor that is swept before it. A block that is above another one stays
above this predecessor, so it is above everything on some way of edges that all
lead forward in the order, and a table of one sweep can be compared with that of
the next along such a way.

* `Graph.Forward`: a way of edges that lead forward in the order.
* `Graph.above_of_sweeps`: what is above a block after a sweep was so before.
* `Graph.rank_of_sweeps`: so its entry stays or moves to an earlier block.
* `Parents.SettlesAt`: sweeping for as long as an entry changes, without a bound.
* `Graph.Converges`: all that is said about the sweeps from one head.
* `Method.sweeps_converge`: it holds of every method with consistent edges.
-/

namespace MinimalSsa

/-! ## Comparing tables -/

namespace Parents

variable {graph : Graph} {positions : Positions} {parents others : Parents}
variable {a b block other : BlockId}

/-- Two tables that agree on the late blocks have the same way up from a block, until
it comes to a block that is not late. -/
theorem Above.exists_crossing {late : BlockId → Prop}
    (hagree : ∀ block, late block → parents.parent? block = others.parent? block)
    (h : parents.Above a b) (ha : ¬ late a) :
    ∃ middle, ¬ late middle ∧ parents.Above a middle ∧ parents.Above middle b ∧
      others.Above middle b := by
  induction h with
  | refl => exact ⟨a, ha, .refl a, .refl a, .refl a⟩
  | @up parent block hparent habove ih =>
    by_cases hlate : late block
    · obtain ⟨middle, hmiddle, hup, hdown, hother⟩ := ih
      refine ⟨middle, hmiddle, hup, .up hparent hdown, .up ?_ hother⟩
      rw [← hagree block hlate, hparent]
    · exact ⟨block, hlate, .up hparent habove, .refl block, .refl block⟩

theorem size_update : (update graph positions parents block).size = parents.size := by
  rw [update]
  split
  · rfl
  · exact Array.size_setIfInBounds ..

/-- An update changes the entry of its block only. -/
theorem parent?_update_of_ne (hne : other ≠ block) :
    (update graph positions parents block).parent? other = parents.parent? other := by
  rw [update]
  split
  · rfl
  · rw [parent?, Array.getElem?_setIfInBounds_ne (Ne.symm hne), parent?]

theorem parent?_foldl_update {blocks : List BlockId} (hother : other ∉ blocks) :
    (blocks.foldl (update graph positions) parents).parent? other = parents.parent? other := by
  induction blocks generalizing parents with
  | nil => rfl
  | cons block blocks ih =>
    rw [List.mem_cons, not_or] at hother
    rw [List.foldl_cons, ih hother.2, parent?_update_of_ne hother.1]

/-! ## Sweeping for as long as something changes -/

/-- Update one block, and note whether that has changed its entry. -/
def updateNoting (graph : Graph) (positions : Positions) (state : Parents × Bool)
    (block : BlockId) : Parents × Bool :=
  let updated := update graph positions state.1 block
  (updated, state.2 || updated.parent? block != state.1.parent? block)

/-- One sweep, with a note of whether it has changed an entry. -/
def sweepNoting (graph : Graph) (positions : Positions) (order : List BlockId)
    (parents : Parents) : Parents × Bool :=
  order.foldl (updateNoting graph positions) (parents, false)

/-- Sweeping from one table, until a sweep changes nothing, ends with another. -/
inductive SettlesAt (graph : Graph) (positions : Positions) (order : List BlockId) :
    Parents → Parents → Prop where
  | stop {parents swept : Parents} :
      sweepNoting graph positions order parents = (swept, false) →
      SettlesAt graph positions order parents swept
  | again {parents swept settled : Parents} :
      sweepNoting graph positions order parents = (swept, true) →
      SettlesAt graph positions order swept settled →
      SettlesAt graph positions order parents settled

/-- No block is updated twice in a sweep, so an entry that has changed stays changed. -/
theorem sweepNoting_eq {order : List BlockId} (hnodup : order.Nodup) (parents : Parents) :
    sweepNoting graph positions order parents =
      (sweep graph positions order parents,
        decide (sweep graph positions order parents ≠ parents)) := by
  -- in the middle of a sweep there may be a note already
  suffices hfrom : ∀ changed, order.foldl (updateNoting graph positions) (parents, changed) =
      (sweep graph positions order parents,
        changed || decide (sweep graph positions order parents ≠ parents)) by
    rw [sweepNoting, hfrom, Bool.false_or]
  induction order generalizing parents with
  | nil => simp [sweep]
  | cons block order ih =>
    intro changed
    obtain ⟨hfresh, hrest⟩ := List.nodup_cons.mp hnodup
    rw [List.foldl_cons, updateNoting, ih hrest]
    have hsweep : sweep graph positions (block :: order) parents =
        sweep graph positions order (update graph positions parents block) := rfl
    rw [hsweep]
    refine Prod.ext rfl ?_
    by_cases hsame : (update graph positions parents block).parent? block = parents.parent? block
    · have hupdate : update graph positions parents block = parents := by
        refine Parents.ext size_update fun other => ?_
        by_cases heq : other = block
        · rw [heq, hsame]
        · exact parent?_update_of_ne heq
      simp [hupdate]
    · have hchanged : sweep graph positions order (update graph positions parents block) ≠
          parents := by
        intro heq
        have hentry : (sweep graph positions order
            (update graph positions parents block)).parent? block = _ :=
          parent?_foldl_update hfresh
        rw [heq] at hentry
        exact hsame hentry.symm
      simp [hsame, hchanged]

/-- If sweeps come to a table that one more leaves alone, sweeping ends with it. -/
theorem settlesAt_iterate {order : List BlockId} (hnodup : order.Nodup) {count : Nat}
    (hfixed : sweep graph positions order ((sweep graph positions order)^[count] parents) =
      (sweep graph positions order)^[count] parents) :
    SettlesAt graph positions order parents ((sweep graph positions order)^[count] parents) := by
  induction count generalizing parents with
  | zero =>
    refine .stop ?_
    rw [Function.iterate_zero, id] at hfixed ⊢
    rw [sweepNoting_eq hnodup, hfixed]
    simp
  | succ count ih =>
    by_cases hsame : sweep graph positions order parents = parents
    · refine .stop ?_
      rw [Function.iterate_fixed hsame, sweepNoting_eq hnodup, hsame]
      simp
    · rw [Function.iterate_succ_apply] at hfixed ⊢
      refine .again ?_ (ih hfixed)
      rw [sweepNoting_eq hnodup]
      simp [hsame]

end Parents

namespace Graph

variable {graph : Graph} {head a b block pred : BlockId} {order : List BlockId}

/-! ## Ways forward -/

/-- Edges lead from `a` to a block, perhaps none, each to a later block of the order. -/
inductive Forward (graph : Graph) (order : List BlockId) (a : BlockId) : BlockId → Prop where
  | refl : Forward graph order a a
  | step {pred block : BlockId} : Forward graph order a pred →
      block ∈ graph.successors pred →
      (Positions.ofOrder graph.size order).rank pred <
        (Positions.ofOrder graph.size order).rank block → Forward graph order a block

theorem Forward.rank_le (h : graph.Forward order a b) :
    (Positions.ofOrder graph.size order).rank a ≤
      (Positions.ofOrder graph.size order).rank b := by
  induction h with
  | refl => exact Nat.le_refl _
  | step _ _ hlt ih => exact Nat.le_of_lt (Nat.lt_of_le_of_lt ih hlt)

/-- From the second sweep on every reached block has an entry at any time. -/
theorem Midway.isSome_of_sweeps (hsearch : graph.Searched head order) {count : Nat}
    {mid : Parents} {meet : BlockId}
    (h : graph.Midway head order (graph.sweeps head order (count + 1))
      (graph.sweeps head order (count + 2)) mid block meet) (hb : b ∈ order) :
    (mid.parent? b).isSome := by
  by_cases hlt : (Positions.ofOrder graph.size order).rank b <
      (Positions.ofOrder graph.size order).rank block
  · rw [h.earlier b hlt]
    exact sweeps_isSome hsearch hb (count + 1)
  · rw [h.later b (Nat.le_of_not_lt hlt)]
    exact sweeps_isSome hsearch hb count

/-- What is above a block is above those of its predecessors that are swept before it. -/
theorem above_pred_of_sweeps (hsearch : graph.Searched head order) {count : Nat}
    (hblock : block ∈ order) (hedge : block ∈ graph.successors pred)
    (hlt : (Positions.ofOrder graph.size order).rank pred <
      (Positions.ofOrder graph.size order).rank block)
    (habove : (graph.sweeps head order (count + 1)).Above a block) (hab : a ≠ block) :
    (graph.sweeps head order (count + 1)).Above a pred := by
  have hnew := sweeps_tentative hsearch (count + 1)
  have hne : block ≠ head := by
    rintro rfl
    rw [hsearch.rank_head] at hlt
    exact absurd hlt (Nat.not_lt_zero _)
  obtain ⟨mid, meet, hmid⟩ := exists_midway hsearch hblock hne count
  have hpred : (mid.parent? pred).isSome := by
    rw [hmid.earlier pred hlt]
    exact sweeps_isSome hsearch (hsearch.mem_of_rank_lt hblock hlt) count
  have hmeet := hmid.above_of_new hnew hne (habove.of_parent hab hmid.entry)
  exact (hmid.above_iff hnew hlt).mp (hmeet.trans (hmid.isMeet.above pred ⟨hedge, hpred⟩))

/-- A block that is above another one lies before it on a way forward. -/
theorem forward_of_above (hsearch : graph.Searched head order) {count : Nat}
    (hb : b ∈ order) (habove : (graph.sweeps head order (count + 1)).Above a b) :
    graph.Forward order a b := by
  induction hrank : (Positions.ofOrder graph.size order).rank b using
    Nat.strongRecOn generalizing b with
  | _ rank ih =>
    by_cases hab : a = b
    · rw [hab]
      exact .refl
    have hne : b ≠ head := fun hhead =>
      hab ((sweeps_tentative hsearch _).rooted.eq_head_of_above habove hhead ▸ hhead.symm)
    obtain ⟨pred, hpred, hedge, hlt⟩ := hsearch.exists_earlier_pred hb hne
    have hup := above_pred_of_sweeps hsearch hb hedge hlt habove hab
    exact .step (ih _ (hrank ▸ hlt) hpred hup rfl) hedge hlt

/-- What is above a block is above all that comes after it on a way forward to the block. -/
theorem above_of_forward (hsearch : graph.Searched head order) {count : Nat}
    {middle : BlockId} (hway : graph.Forward order middle b) (hb : b ∈ order)
    (habove : (graph.sweeps head order (count + 1)).Above a b)
    (hle : (Positions.ofOrder graph.size order).rank a ≤
      (Positions.ofOrder graph.size order).rank middle) :
    (graph.sweeps head order (count + 1)).Above a middle := by
  induction hway with
  | refl => exact habove
  | @step pred block hway hedge hlt ih =>
    refine ih (hsearch.mem_of_rank_lt hb hlt)
      (above_pred_of_sweeps hsearch hb hedge hlt habove ?_)
    rintro rfl
    exact absurd (hle.trans hway.rank_le) (Nat.not_le_of_lt hlt)

/-! ## Entries only move up -/

/-- What is above a block after a sweep was above it before, if that holds of the sweep
before this one, or if this one is the second. -/
theorem above_of_sweeps_step (hsearch : graph.Searched head order) {count : Nat}
    (hprev : ∀ a, ∀ b ∈ order, 0 < count → (graph.sweeps head order (count + 1)).Above a b →
      (graph.sweeps head order count).Above a b)
    (hb : b ∈ order) (habove : (graph.sweeps head order (count + 2)).Above a b) :
    (graph.sweeps head order (count + 1)).Above a b := by
  -- along the order: blocks before `b` are compared already
  induction hrank : (Positions.ofOrder graph.size order).rank b using
    Nat.strongRecOn generalizing b with
  | _ rank ih =>
    have hold := sweeps_tentative hsearch (count + 1)
    have hnew := sweeps_tentative hsearch (count + 2)
    by_cases hab : a = b
    · rw [hab]
      exact .refl b
    have hne : b ≠ head := fun hhead =>
      hab (hnew.rooted.eq_head_of_above habove hhead ▸ hhead.symm)
    obtain ⟨mid, meet, hmid⟩ := exists_midway hsearch hb hne (count + 1)
    obtain ⟨before, oldMeet, hbefore⟩ := exists_midway hsearch hb hne count
    have hup := habove.of_parent hab hmid.entry
    have halt : (Positions.ofOrder graph.size order).rank a <
        (Positions.ofOrder graph.size order).rank b :=
      Nat.lt_of_le_of_lt (hnew.rooted.rank_le_of_above hup)
        (hnew.rooted.rank_lt b meet hne hmid.entry)
    -- 1. it is enough to look at the predecessors that the sweep before had met
    have hmeetLt := hold.rooted.rank_lt b oldMeet hne hbefore.entry
    refine .up hbefore.entry ((hbefore.above_iff hold hmeetLt).mp (hbefore.isMeet.nearest a ?_))
    rintro pred ⟨hedge, hsome⟩
    have hpred : pred ∈ order :=
      (hsearch.mem_iff pred).mpr (hbefore.tentative.reached pred hsome)
    have hentry := hmid.isSome_of_sweeps hsearch hpred
    have hmidAbove : mid.Above a pred :=
      (hmid.above_of_new hnew hne hup).trans (hmid.isMeet.above pred ⟨hedge, hentry⟩)
    by_cases hlt : (Positions.ofOrder graph.size order).rank pred <
        (Positions.ofOrder graph.size order).rank b
    · -- 2. one that is swept before `b`
      have hpredNew := (hmid.above_iff hnew hlt).mp hmidAbove
      exact (hbefore.above_iff hold hlt).mpr (ih _ (hrank ▸ hlt) hpred hpredNew rfl)
    · -- 3. one that is swept after `b` had an entry from an earlier sweep
      have hlate : (Positions.ofOrder graph.size order).rank b ≤
        (Positions.ofOrder graph.size order).rank pred := Nat.le_of_not_lt hlt
      have hcount : 0 < count := by
        by_contra hzero
        rw [hbefore.later pred hlate, Nat.eq_zero_of_not_pos hzero] at hsome
        obtain rfl := Parents.eq_head_of_start hsearch.head_lt hsome
        rw [hsearch.rank_head] at hlate
        omega
      -- `a` is above it in the last table: the way up crosses to blocks before `b`
      obtain ⟨middle, hmiddle, hmidUp, -, hmidDown⟩ :=
        hmidAbove.exists_crossing hmid.later (Nat.not_le_of_lt halt)
      have hmiddleLt := Nat.lt_of_not_le hmiddle
      have hmiddleAbove := ih _ (hrank ▸ hmiddleLt) (hsearch.mem_of_rank_lt hb hmiddleLt)
        ((hmid.above_iff hnew hmiddleLt).mp hmidUp) rfl
      have hpredOld := hmiddleAbove.trans hmidDown
      -- so it is in the table before that, whose way up crosses somewhere else
      obtain ⟨other, hother, hotherUp, hotherDown, hotherBefore⟩ :=
        (hprev a pred hpred hcount hpredOld).exists_crossing
          (fun block hblock => (hbefore.later block hblock).symm) (Nat.not_le_of_lt halt)
      have hotherLt := Nat.lt_of_not_le hother
      -- both places are compared along a way forward
      obtain ⟨fewer, rfl⟩ := Nat.exists_eq_add_one_of_ne_zero (Nat.ne_of_gt hcount)
      have hway := forward_of_above hsearch hpred hotherDown
      have hle := (sweeps_tentative hsearch (fewer + 1)).rooted.rank_le_of_above hotherUp
      have hotherOld := above_of_forward hsearch hway hpred hpredOld hle
      exact ((hbefore.above_iff hold hotherLt).mpr hotherOld).trans hotherBefore

/-- From the second sweep on, what is above a block was above it one sweep earlier. -/
theorem above_of_sweeps (hsearch : graph.Searched head order) {count : Nat} (hb : b ∈ order)
    (habove : (graph.sweeps head order (count + 2)).Above a b) :
    (graph.sweeps head order (count + 1)).Above a b := by
  induction count generalizing a b with
  | zero =>
    exact above_of_sweeps_step hsearch (fun _ _ _ hzero => absurd hzero (Nat.lt_irrefl 0))
      hb habove
  | succ count ih =>
    exact above_of_sweeps_step hsearch (fun _ _ hb _ habove => ih hb habove) hb habove

/-- So the entry of a block stays or moves to an earlier block. -/
theorem rank_of_sweeps (hsearch : graph.Searched head order) {count : Nat} {old new : BlockId}
    (hblock : block ∈ order)
    (hold : (graph.sweeps head order (count + 1)).parent? block = some old)
    (hnew : (graph.sweeps head order (count + 2)).parent? block = some new) :
    new = old ∨ (Positions.ofOrder graph.size order).rank new <
      (Positions.ofOrder graph.size order).rank old := by
  have hbefore := (sweeps_tentative hsearch (count + 1)).rooted
  have hafter := (sweeps_tentative hsearch (count + 2)).rooted
  by_cases hne : block = head
  · subst hne
    rw [hbefore.root] at hold
    rw [hafter.root] at hnew
    exact .inl (Option.some.inj (hnew.symm.trans hold))
  have hnewNe : new ≠ block := by
    rintro rfl
    exact Nat.lt_irrefl _ (hafter.rank_lt new new hne hnew)
  have habove := (above_of_sweeps hsearch hblock (.up hnew (.refl new))).of_parent hnewNe hold
  by_cases hsame : new = old
  · exact .inl hsame
  · exact .inr (hbefore.rank_lt_of_above habove hsame (hbefore.parent_isSome block old hold))

/-! ## The end of the sweeps -/

/-- The course of the sweeps from one head. The first gives every reached block an entry,
and from then on an update keeps the entry of its block or moves it to an earlier one. Only
finitely many sweeps change something, and the loop over them ends, with the table of the
analysis. Whenever a predecessor is met with what those before it have led to, the loops
that climb end too. -/
structure Converges (graph : Graph) (head : BlockId) (order : List BlockId) : Prop where
  filled : ∀ block, graph.Reaches head block →
    ((graph.sweeps head order 1).parent? block).isSome
  descends : ∀ count front block back, 0 < count → order.tail = front ++ block :: back →
    let positions := Positions.ofOrder graph.size order
    let before := front.foldl (Parents.update graph positions) (graph.sweeps head order count)
    let after := Parents.update graph positions before block
    (∀ other, other ≠ block → after.parent? other = before.parent? other) ∧
    ∃ old new, before.parent? block = some old ∧ after.parent? block = some new ∧
      (new = old ∨ positions.rank new < positions.rank old)
  finite : {count | graph.sweeps head order (count + 1) ≠ graph.sweeps head order count}.Finite
  settles : ∃ settled, Parents.SettlesAt graph (Positions.ofOrder graph.size order) order.tail
      (Parents.start graph.size head) settled ∧
    graph.parents head order = settled.setIfInBounds head none
  meets : ∀ parents, graph.Swept head order parents →
    ∀ (preds : List BlockId) (pred current : BlockId),
    preds.foldl (parents.meetPred (Positions.ofOrder graph.size order)) none = some current →
    (parents.parent? pred).isSome →
    parents.MeetsAt (Positions.ofOrder graph.size order) pred current
      (parents.meet (Positions.ofOrder graph.size order) pred current)

namespace Searched

variable (h : graph.Searched head order)

include h

/-- The update of a block changes its entry from that of one sweep to that of the next. -/
theorem parent?_midsweep {count : Nat} {front back : List BlockId}
    (htail : order.tail = front ++ block :: back) :
    let before := front.foldl (Parents.update graph (Positions.ofOrder graph.size order))
      (graph.sweeps head order count)
    before.parent? block = (graph.sweeps head order count).parent? block ∧
    (Parents.update graph (Positions.ofOrder graph.size order) before block).parent? block =
      (graph.sweeps head order (count + 1)).parent? block := by
  intro before
  have hnodup : (front ++ block :: back).Nodup := htail ▸ h.nodup.tail
  have hback := (List.nodup_cons.mp hnodup.of_append_right).1
  have hfront : block ∉ front := fun hmem =>
    List.disjoint_of_nodup_append hnodup hmem List.mem_cons_self
  refine ⟨Parents.parent?_foldl_update hfront, ?_⟩
  rw [sweeps_succ, Parents.sweep, htail, List.foldl_append, List.foldl_cons,
    Parents.parent?_foldl_update hback]

theorem converges : graph.Converges head order where
  filled block hreach := sweeps_isSome h ((h.mem_iff block).mpr hreach) 0
  descends := by
    intro count front block back hcount htail positions before after
    obtain ⟨fewer, rfl⟩ := Nat.exists_eq_add_one_of_ne_zero (Nat.ne_of_gt hcount)
    have hblock : block ∈ order := List.mem_of_mem_tail (by simp [htail])
    obtain ⟨hbefore, hafter⟩ := h.parent?_midsweep htail
    obtain ⟨old, hold⟩ := Option.isSome_iff_exists.mp (sweeps_isSome h hblock fewer)
    obtain ⟨new, hnew⟩ := Option.isSome_iff_exists.mp (sweeps_isSome h hblock (fewer + 1))
    refine ⟨fun other hne => Parents.parent?_update_of_ne hne, old, new, ?_, ?_, ?_⟩
    · exact hbefore.trans hold
    · exact hafter.trans hnew
    · exact rank_of_sweeps h hblock hold hnew
  finite := by
    refine (Set.finite_le_nat graph.size).subset fun count hchange => ?_
    by_contra hlate
    have hlt : graph.size < count := Nat.lt_of_not_le hlate
    obtain ⟨fewer, rfl⟩ := Nat.exists_eq_add_one_of_ne_zero (Nat.ne_zero_of_lt hlt)
    rw [Set.mem_ofPred_eq, sweeps_succ (fewer + 1)] at hchange
    exact hchange (sweep_sweeps h (Nat.le_of_lt_succ hlt))
  settles := by
    refine ⟨graph.sweeps head order (Parents.rounds graph.size), ?_, ?_⟩
    · exact Parents.settlesAt_iterate h.nodup.tail
        (sweep_sweeps h (Nat.le_of_lt_succ (size_lt_rounds graph.size)))
    · rw [Graph.parents, settle_eq_iterate]
      rfl
  meets := by
    intro parents hswept preds pred current hcurrent hpred
    have hrooted := (hswept.tentative h).rooted
    exact hrooted.meetsAt_meet hpred (hrooted.isSome_foldl_meetPred (by simp) hcurrent)

end Searched

end Graph

/-- In a method with consistent edges the sweeps from any of its blocks converge, and the
analysis of that block is made from the table they end with. -/
theorem Method.sweeps_converge (method : Method) (head : BlockId)
    (hverify : method.verify = .ok ()) (hhead : head < method.size) :
    ∃ order, method.graph.reversePostorder head = .ok order ∧
      Dominance.compute method.graph head =
        .ok (Dominance.ofOrder method.graph head order) ∧
      method.graph.Converges head order := by
  have hmirrored := (verify_eq_ok_iff.mp hverify).mirrored
  rw [← Graph.size_graph] at hhead
  obtain ⟨order, hsearch, horder, hok⟩ := Dominance.compute_eq_ok hmirrored hhead
  exact ⟨order, horder, hok, hsearch.converges⟩

/-- A loop between blocks 2 and 3 that is entered at block 2 by way of block 1, and at
block 3 from the head. The entry of block 2 is found before that of block 3. -/
def Method.sideEntry : Method where
  name := "side"
  heads := [0]
  blocks := #[
    { terminator := .branch (.boolean true) 1 3 },
    { terminator := .jump 2, preds := [0] },
    { terminator := .jump 3, preds := [1, 3] },
    { terminator := .jump 2, preds := [0, 2] }]

theorem Method.sweeps_converge_sideEntry :
    (sideEntry.verify = .ok () ∧ 0 < sideEntry.size) ∧
    (∃ order, sideEntry.graph.reversePostorder 0 = .ok order ∧
      Dominance.compute sideEntry.graph 0 =
        .ok (Dominance.ofOrder sideEntry.graph 0 order) ∧
      sideEntry.graph.Converges 0 order) ∧
    -- the second sweep moves an entry
    (sideEntry.graph.sweeps 0 [0, 1, 2, 3] 1).parent? 2 = some 1 ∧
    (sideEntry.graph.sweeps 0 [0, 1, 2, 3] 2).parent? 2 = some 0 :=
  ⟨⟨rfl, by decide⟩, sweeps_converge sideEntry 0 rfl (by decide), by decide +kernel, by decide +kernel⟩

end MinimalSsa
