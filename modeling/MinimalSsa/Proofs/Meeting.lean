import MinimalSsa.Proofs.Ancestors

/-!
# Two blocks climb in turns

The meeting point of two blocks is found by climbing from whichever comes later.
How the climbs alternate does not matter. Here the first block climbs until it no
longer comes after the second, then the second until it no longer comes after the
first, and so on until they are one block. No bound ends these loops: they are
given by the relations between where they start and where they end.

Blocks have one nearest common ancestor, whichever way they are met. So meeting them
is an operation that can be regrouped and rearranged freely.

* `Parents.ClimbsTo`: one block climbs.
* `Parents.MeetsAt`: both do, in turns.
* `Parents.Rooted.exists_climbsTo`, `Parents.Rooted.exists_meetsAt`: in a rooted table
  the loops end, and where they end the blocks meet.
* `Parents.Rooted.meetsAt_iff`: so they end at `Parents.meet`, and nowhere else.
* `Parents.Rooted.meet_comm`, `Parents.Rooted.meet_assoc`: blocks may be met in any order.
* `Parents.Rooted.meetAll_congr`: nor do order and repetitions matter in a list.
* `Parents.MeetsNearest`: all that is said about meeting blocks in one table.
* `Parents.meet_finds_nearest`: it holds of every rooted table.
-/

namespace MinimalSsa

namespace Parents

variable {parents : Parents} {positions : Positions} {head a b c : BlockId}

/-! ## The loops -/

/-- Climbing from a block while it comes after `bound` ends at another one. -/
inductive ClimbsTo (parents : Parents) (positions : Positions) (bound : BlockId) :
    BlockId → BlockId → Prop where
  | stop {block : BlockId} : ¬ positions.rank bound < positions.rank block →
      ClimbsTo parents positions bound block block
  | climb {block result : BlockId} : positions.rank bound < positions.rank block →
      ClimbsTo parents positions bound (parents.climb block) result →
      ClimbsTo parents positions bound block result

/-- Climbing from two blocks in turns, until they are one, ends at a third. -/
inductive MeetsAt (parents : Parents) (positions : Positions) :
    BlockId → BlockId → BlockId → Prop where
  | met (block : BlockId) : MeetsAt parents positions block block block
  | turn {a b a' b' meet : BlockId} : a ≠ b → ClimbsTo parents positions b a a' →
      ClimbsTo parents positions a' b b' → MeetsAt parents positions a' b' meet →
      MeetsAt parents positions a b meet

/-- At every block it is settled whether to climb on, so a loop ends at one block only. -/
theorem ClimbsTo.unique {bound block result other : BlockId}
    (h : parents.ClimbsTo positions bound block result)
    (hother : parents.ClimbsTo positions bound block other) : result = other := by
  induction h with
  | stop hnot =>
    cases hother with
    | stop => rfl
    | climb hlt => exact absurd hlt hnot
  | climb hlt _ ih =>
    cases hother with
    | stop hnot => exact absurd hlt hnot
    | climb _ hrest => exact ih hrest

theorem MeetsAt.unique {meet other : BlockId} (h : parents.MeetsAt positions a b meet)
    (hother : parents.MeetsAt positions a b other) : meet = other := by
  induction h with
  | met =>
    cases hother with
    | met => rfl
    | turn hne => exact absurd rfl hne
  | turn hne hfirst hsecond _ ih =>
    cases hother with
    | met => exact absurd rfl hne
    | turn _ hfirst' hsecond' hrest =>
      obtain rfl := hfirst.unique hfirst'
      obtain rfl := hsecond.unique hsecond'
      exact ih hrest

/-- What climbing from `a` past `b` keeps: it ends no later than `b`, at an ancestor
of `a` that meets `b` where `a` does. -/
structure Climbed (parents : Parents) (positions : Positions) (b a result : BlockId) :
    Prop where
  climbsTo : parents.ClimbsTo positions b a result
  isSome : (parents.parent? result).isSome
  rank_le : positions.rank result ≤ positions.rank a
  rank_le_bound : positions.rank result ≤ positions.rank b
  isMeet : ∀ meet, parents.IsMeet (fun block => block = result ∨ block = b) meet →
    parents.IsMeet (fun block => block = a ∨ block = b) meet

namespace Rooted

variable (h : parents.Rooted positions head)

include h

/-- Every climb leads to an earlier block, so one that is not after `b` is found. -/
theorem exists_climbsTo (ha : (parents.parent? a).isSome) (b : BlockId) :
    ∃ result, parents.Climbed positions b a result := by
  induction hrank : positions.rank a using Nat.strongRecOn generalizing a with
  | _ rank ih =>
    by_cases hlt : positions.rank b < positions.rank a
    · obtain ⟨hparent, hearlier⟩ := h.climb_of_lt ha hlt
      obtain ⟨result, hclimbed⟩ :=
        ih _ (hrank ▸ hearlier) (h.parent_isSome _ _ hparent) rfl
      refine ⟨result, .climb hlt hclimbed.climbsTo, hclimbed.isSome, ?_,
        hclimbed.rank_le_bound, fun meet hmeet => ?_⟩
      · exact hclimbed.rank_le.trans (Nat.le_of_lt hearlier)
      · exact h.isMeet_of_parent hparent hlt (hclimbed.isMeet meet hmeet)
    · exact ⟨a, .stop hlt, ha, Nat.le_refl _, Nat.le_of_not_lt hlt, fun _ hmeet => hmeet⟩

/-- In each turn one of two different blocks climbs, so they meet in the end. -/
theorem exists_meetsAt (ha : (parents.parent? a).isSome) (hb : (parents.parent? b).isSome) :
    ∃ meet, parents.MeetsAt positions a b meet ∧
      parents.IsMeet (fun block => block = a ∨ block = b) meet := by
  induction hsum : positions.rank a + positions.rank b using Nat.strongRecOn
    generalizing a b with
  | _ sum ih =>
    by_cases heq : a = b
    · subst heq
      exact ⟨a, .met a, IsMeet.self a⟩
    obtain ⟨a', hfirst⟩ := h.exists_climbsTo ha b
    obtain ⟨b', hsecond⟩ := h.exists_climbsTo hb a'
    -- the later of the two has climbed
    have hdrop : positions.rank a' + positions.rank b' < sum := by
      have hne : positions.rank a ≠ positions.rank b := fun hrank =>
        heq (h.rank_inj a b ha hb hrank)
      have hle := hfirst.rank_le
      have hle' := hsecond.rank_le
      have hbound := hfirst.rank_le_bound
      have hbound' := hsecond.rank_le_bound
      omega
    obtain ⟨meet, hmeets, hmeet⟩ := ih _ hdrop hfirst.isSome hsecond.isSome rfl
    refine ⟨meet, .turn heq hfirst.climbsTo hsecond.climbsTo hmeets, hfirst.isMeet meet ?_⟩
    exact (hsecond.isMeet meet (hmeet.congr fun _ => or_comm)).congr fun _ => or_comm

/-- A nearest common ancestor is the meeting point, however it was found. -/
theorem eq_meet {meet : BlockId} (ha : (parents.parent? a).isSome)
    (hb : (parents.parent? b).isSome)
    (hmeet : parents.IsMeet (fun block => block = a ∨ block = b) meet) :
    meet = parents.meet positions a b := by
  have hfirst : a = a ∨ a = b := .inl rfl
  exact h.isMeet_unique hmeet (h.isMeet_meet ha hb) hfirst ha

/-- The turns end where single climbs from the later block do. -/
theorem meetsAt_meet (ha : (parents.parent? a).isSome) (hb : (parents.parent? b).isSome) :
    parents.MeetsAt positions a b (parents.meet positions a b) := by
  obtain ⟨meet, hmeets, hmeet⟩ := h.exists_meetsAt ha hb
  rwa [h.eq_meet ha hb hmeet] at hmeets

theorem meetsAt_iff {result : BlockId} (ha : (parents.parent? a).isSome)
    (hb : (parents.parent? b).isSome) :
    parents.MeetsAt positions a b result ↔ result = parents.meet positions a b := by
  constructor
  · intro hmeets
    exact hmeets.unique (h.meetsAt_meet ha hb)
  · rintro rfl
    exact h.meetsAt_meet ha hb

/-- A meeting point has a parent, so it can be met with further blocks. -/
theorem isSome_meet (ha : (parents.parent? a).isSome) (hb : (parents.parent? b).isSome) :
    (parents.parent? (parents.meet positions a b)).isSome :=
  h.isSome_of_above ((h.isMeet_meet ha hb).above a (.inl rfl)) ha

/-- What the predecessors so far have led to has a parent, so the next one can be met
with it. -/
theorem isSome_foldl_meetPred {found : Option BlockId} {preds : List BlockId}
    {current : BlockId} (hfound : ∀ block ∈ found, (parents.parent? block).isSome)
    (hfold : preds.foldl (parents.meetPred positions) found = some current) :
    (parents.parent? current).isSome := by
  induction preds generalizing found with
  | nil => exact hfound current hfold
  | cons pred preds ih =>
    refine ih ?_ hfold
    intro block hblock
    cases hparent : parents.parent? pred with
    | none =>
      simp only [meetPred, hparent] at hblock
      exact hfound block hblock
    | some parent =>
      have hpred : (parents.parent? pred).isSome := by rw [hparent]; rfl
      cases found with
      | none =>
        simp only [meetPred, hparent] at hblock
        exact Option.some.inj hblock ▸ hpred
      | some other =>
        simp only [meetPred, hparent] at hblock
        obtain rfl := Option.some.inj hblock
        exact h.isSome_meet hpred (hfound other rfl)

end Rooted

/-! ## The nearest common ancestor -/

/-- Of the blocks that are above all of `blocks`, `meet` is the one that comes last, and
the others are above it. -/
structure IsLatest (parents : Parents) (positions : Positions) (blocks : BlockId → Prop)
    (meet : BlockId) : Prop extends parents.IsMeet blocks meet where
  latest : ∀ other, (∀ block, blocks block → parents.Above other block) → other ≠ meet →
    positions.rank other < positions.rank meet

namespace Rooted

variable (h : parents.Rooted positions head)

include h

/-- An ancestor that is another block comes earlier. -/
theorem rank_lt_of_above (habove : parents.Above a b) (hne : a ≠ b)
    (hb : (parents.parent? b).isSome) : positions.rank a < positions.rank b := by
  refine Nat.lt_of_le_of_ne (h.rank_le_of_above habove) fun hrank => hne ?_
  exact h.rank_inj a b (h.isSome_of_above habove hb) hb hrank

theorem isLatest {blocks : BlockId → Prop} {block meet : BlockId}
    (hmeet : parents.IsMeet blocks meet) (hblock : blocks block)
    (hsome : (parents.parent? block).isSome) : parents.IsLatest positions blocks meet where
  toIsMeet := hmeet
  latest other hother hne :=
    h.rank_lt_of_above (hmeet.nearest other hother) hne
      (h.isSome_of_above (hmeet.above block hblock) hsome)

theorem meet_comm (ha : (parents.parent? a).isSome) (hb : (parents.parent? b).isSome) :
    parents.meet positions a b = parents.meet positions b a :=
  h.eq_meet hb ha ((h.isMeet_meet ha hb).congr fun _ => or_comm)

/-- Either way the meeting point is that of all three blocks. -/
theorem meet_assoc (ha : (parents.parent? a).isSome) (hb : (parents.parent? b).isSome)
    (hc : (parents.parent? c).isSome) :
    parents.meet positions (parents.meet positions a b) c =
      parents.meet positions a (parents.meet positions b c) := by
  have hab := h.isSome_meet ha hb
  have hright := h.isMeet_meet_insert (h.isMeet_meet hb hc) ha (h.isSome_meet hb hc)
  have hleft := h.isMeet_meet_insert (h.isMeet_meet ha hb) hc hab
  rw [h.meet_comm hab hc]
  have hfirst : a = a ∨ a = b ∨ a = c := .inl rfl
  refine h.isMeet_unique (hleft.congr fun block => ?_) hright hfirst ha
  rw [or_comm, or_assoc]

end Rooted

/-- Predecessors without a parent lead to no meeting point. -/
theorem meetAll_eq_none {preds : List BlockId}
    (hnone : ∀ pred ∈ preds, parents.parent? pred = none) :
    parents.meetAll positions preds = none := by
  rw [meetAll, ← foldl_meetPred_filter (fun _ => false) preds fun pred hpred _ =>
    hnone pred hpred]
  simp

/-- Lists with the same members, those without a parent left out, have the same meeting
point. -/
theorem Rooted.meetAll_congr (h : parents.Rooted positions head) {preds others : List BlockId}
    (hsame : ∀ pred, (parents.parent? pred).isSome → (pred ∈ preds ↔ pred ∈ others)) :
    parents.meetAll positions preds = parents.meetAll positions others := by
  by_cases hsome : ∃ pred ∈ preds, (parents.parent? pred).isSome
  · obtain ⟨meet, hpreds, hmeet⟩ := h.isMeet_meetAll hsome
    obtain ⟨pred, hpred, hentry⟩ := hsome
    obtain ⟨other, hothers, hother⟩ :=
      h.isMeet_meetAll ⟨pred, (hsame pred hentry).mp hpred, hentry⟩
    have hswap := hother.congr fun block =>
      and_congr_left fun hblock => (hsame block hblock).symm
    rw [hpreds, hothers, h.isMeet_unique hmeet hswap ⟨hpred, hentry⟩ hentry]
  · have hpreds : ∀ pred ∈ preds, parents.parent? pred = none := fun pred hpred =>
      Option.not_isSome_iff_eq_none.mp fun hentry => hsome ⟨pred, hpred, hentry⟩
    have hothers : ∀ pred ∈ others, parents.parent? pred = none := fun pred hpred =>
      Option.not_isSome_iff_eq_none.mp fun hentry =>
        hsome ⟨pred, (hsame pred hentry).mpr hpred, hentry⟩
    rw [meetAll_eq_none hpreds, meetAll_eq_none hothers]

/-- How the blocks with parents meet. For two of them the loops that climb end, at their
meeting point and nowhere else, and this is their nearest common ancestor. Meeting is
commutative and associative. A list of predecessors leads to the nearest common ancestor of
its members, whatever their order and however often each of them is repeated. -/
structure MeetsNearest (parents : Parents) (positions : Positions) : Prop where
  ends : ∀ a b, (parents.parent? a).isSome → (parents.parent? b).isSome →
    ∀ result, parents.MeetsAt positions a b result ↔ result = parents.meet positions a b
  nearest : ∀ a b, (parents.parent? a).isSome → (parents.parent? b).isSome →
    parents.IsLatest positions (fun block => block = a ∨ block = b)
      (parents.meet positions a b)
  comm : ∀ a b, (parents.parent? a).isSome → (parents.parent? b).isSome →
    parents.meet positions a b = parents.meet positions b a
  assoc : ∀ a b c, (parents.parent? a).isSome → (parents.parent? b).isSome →
    (parents.parent? c).isSome →
    parents.meet positions (parents.meet positions a b) c =
      parents.meet positions a (parents.meet positions b c)
  nearestAll : ∀ preds : List BlockId, (∃ pred ∈ preds, (parents.parent? pred).isSome) →
    ∃ meet, parents.meetAll positions preds = some meet ∧
      parents.IsLatest positions
        (fun pred => pred ∈ preds ∧ (parents.parent? pred).isSome) meet
  rearranged : ∀ preds others : List BlockId,
    (∀ pred, (parents.parent? pred).isSome → (pred ∈ preds ↔ pred ∈ others)) →
    parents.meetAll positions preds = parents.meetAll positions others

/-- In every rooted table, whatever its shape and its numbering, blocks are met at their
nearest common ancestor. -/
theorem meet_finds_nearest (parents : Parents) (positions : Positions) (head : BlockId)
    (h : parents.Rooted positions head) : parents.MeetsNearest positions where
  ends _ _ ha hb _ := h.meetsAt_iff ha hb
  nearest _ _ ha hb := h.isLatest (h.isMeet_meet ha hb) (.inl rfl) ha
  comm _ _ ha hb := h.meet_comm ha hb
  assoc _ _ _ ha hb hc := h.meet_assoc ha hb hc
  nearestAll := by
    rintro preds ⟨pred, hpred, hsome⟩
    obtain ⟨meet, hall, hmeet⟩ := h.isMeet_meetAll ⟨pred, hpred, hsome⟩
    exact ⟨meet, hall, h.isLatest hmeet ⟨hpred, hsome⟩ hsome⟩
  rearranged _ _ hsame := h.meetAll_congr hsame

/-- Only the blocks of a table have parents, so looking at these decides whether it is
rooted. -/
theorem rooted_iff : parents.Rooted positions head ↔
    parents.parent? head = some head ∧ positions.rank head = 0 ∧
    (∀ block < parents.size, ∀ parent ∈ parents.parent? block,
      (block ≠ head → positions.rank parent < positions.rank block) ∧
      (parents.parent? parent).isSome) ∧
    ∀ a < parents.size, ∀ b < parents.size, (parents.parent? a).isSome →
      (parents.parent? b).isSome → positions.rank a = positions.rank b → a = b := by
  constructor
  · intro h
    refine ⟨h.root, h.rank_head, fun block _ parent hparent => ?_, fun a _ b _ => h.rank_inj a b⟩
    exact ⟨fun hne => h.rank_lt block parent hne hparent, h.parent_isSome block parent hparent⟩
  · rintro ⟨hroot, hhead, hparents, hinj⟩
    have hlt : ∀ block parent, parents.parent? block = some parent → block < parents.size :=
      fun block parent hparent => lt_size_of_isSome (hparent ▸ rfl)
    constructor
    case root => exact hroot
    case rank_head => exact hhead
    case rank_lt =>
      intro block parent hne hparent
      exact (hparents block (hlt block parent hparent) parent hparent).1 hne
    case parent_isSome =>
      intro block parent hparent
      exact (hparents block (hlt block parent hparent) parent hparent).2
    case rank_inj =>
      intro a b ha hb
      exact hinj a (lt_size_of_isSome ha) b (lt_size_of_isSome hb) ha hb

instance : Decidable (parents.Rooted positions head) :=
  decidable_of_iff _ rooted_iff.symm

/-- A tree below block 2. Block 6 is the only child of the root and has the children 0
and 4; block 5 is below 0, blocks 1 and 7 are below 4. Block 3 has no entry yet. -/
def twoArms : Parents :=
  #[some 6, some 4, some 2, none, some 6, some 0, some 2, some 4]

/-- A numbering of `twoArms` with gaps, in which the two arms alternate. -/
def twoArmsNumbers : Positions :=
  #[some 5, some 9, some 0, some 20, some 7, some 12, some 3, some 40]

theorem meet_finds_nearest_twoArms :
    twoArms.Rooted twoArmsNumbers 2 ∧ twoArms.MeetsNearest twoArmsNumbers ∧
    -- blocks 7 and 5 climb in turns: 7 to 4, 5 to 0, 4 to 6 and 0 to 6
    ((twoArms.parent? 7).isSome ∧ (twoArms.parent? 5).isSome ∧
      twoArms.meet twoArmsNumbers 7 5 = 6 ∧ twoArms.MeetsAt twoArmsNumbers 7 5 6) ∧
    -- block 3 is left out of a list
    twoArms.meetAll twoArmsNumbers [7, 3, 1, 7] = some 4 ∧
    twoArms.meetAll twoArmsNumbers [1, 7] = some 4 := by
  have hrooted : twoArms.Rooted twoArmsNumbers 2 := by decide
  have hmeets := meet_finds_nearest twoArms twoArmsNumbers 2 hrooted
  have hmeet : twoArms.meet twoArmsNumbers 7 5 = 6 := by decide
  have hends := (hmeets.ends 7 5 (by decide) (by decide) 6).mpr hmeet.symm
  have hshort : twoArms.meetAll twoArmsNumbers [1, 7] = some 4 := by decide
  have hmem : ∀ pred, (twoArms.parent? pred).isSome →
      (pred ∈ [7, 3, 1, 7] ↔ pred ∈ [1, 7]) := by
    intro pred hpred
    have hne : pred ≠ 3 := by
      rintro rfl
      exact absurd hpred (by decide)
    grind
  exact ⟨hrooted, hmeets, ⟨by decide, by decide, hmeet, hends⟩,
    (hmeets.rearranged _ _ hmem).trans hshort, hshort⟩

end Parents

end MinimalSsa
