import MinimalSsa.Proofs.Diagnosis
import MinimalSsa.Proofs.Editing

/-!
# Overwriting terminators

A block may be retargeted many times, and each time its old edges are taken out one by one
before the new ones are put in. Nothing of the old ones stays behind: on a method with
consistent edges the result depends on the last terminator alone. When one of the new targets
does not exist, the edit stops between the two, with some of the new edges in the predecessor
lists and the old terminator in its place. Whether the edge check notices depends on the two
lists of targets only.

* `Method.rewire_rewire`, `Method.reordered_rewire`: one block rewired twice, and two blocks in
  either order.
* `Method.retarget_last_wins`: the last retargeting of a block is all that shows.
* `Method.Consistent.retarget_of_missing`: the state in which a missing target leaves a method.
* `Method.Consistent.mem_unequal_relist_iff`: the edges that are unequal there.
* `Method.retarget_halfway`: what the edge check says about it.
-/

namespace MinimalSsa

/-! ## Lists that are relisted twice -/

/-- What was put at the end is taken out again. -/
theorem relisted_relisted (block : BlockId) (first second : Nat) (preds : List BlockId) :
    relisted block second (relisted block first preds) = relisted block second preds := by
  unfold relisted
  rw [List.filter_append, List.filter_filter, List.filter_replicate]
  simp

/-- Two predecessors end up behind the others, in the order in which they were relisted. -/
theorem relisted_comm {block other : BlockId} (hne : other ≠ block) (first second : Nat)
    (preds : List BlockId) :
    (relisted block first (relisted other second preds)).Perm
      (relisted other second (relisted block first preds)) := by
  have hkeep : ∀ {block other : BlockId} (count : Nat), other ≠ block →
      (relisted other count preds).filter (· ≠ block) =
        (preds.filter (· ≠ other)).filter (· ≠ block) ++ List.replicate count other := by
    intro block other count hne
    rw [relisted, List.filter_append, List.filter_replicate, if_pos (by simpa using hne)]
  rw [relisted, hkeep second hne, relisted, hkeep first hne.symm, List.filter_comm,
    List.append_assoc, List.append_assoc]
  exact List.perm_append_comm.append_left _

namespace Method

variable {method : Method} {block other : BlockId} {first second terminator : Terminator}
variable {found : Block} {before targets : List BlockId}

/-! ## Retargeting twice -/

/-- The last of two writes wins. -/
theorem rewire_rewire (method : Method) (block : BlockId) (first second : Terminator) :
    (method.rewire block first).rewire block second = method.rewire block second := by
  show ({ method with blocks := _ } : Method) = { method with blocks := _ }
  congr 1
  apply Array.ext_getElem?
  intro place
  show ((method.rewire block first).rewire block second).blocks[place]? =
    (method.rewire block second).blocks[place]?
  rw [getElem?_rewire, getElem?_rewire, getElem?_rewire, Option.map_map]
  congr 1
  funext found
  show (found.rewired place block first).rewired place block second = _
  unfold Block.rewired
  rw [relisted_relisted]
  by_cases heq : place = block <;> simp [heq]

/-- Two methods that differ at most in the order of their predecessor lists. -/
structure Reordered (method after : Method) : Prop where
  others : { after with blocks := method.blocks } = method
  size_eq : after.size = method.size
  blocks : ∀ (place : BlockId) (found : Block), method.blocks[place]? = some found →
    ∃ preds, preds.Perm found.preds ∧
      after.blocks[place]? = some { found with preds := preds }

/-- Rewiring two blocks in one order or in the other gives reordered methods. -/
theorem reordered_rewire (method : Method) (first second : Terminator) (hne : other ≠ block) :
    ((method.rewire block first).rewire other second).Reordered
      ((method.rewire other second).rewire block first) where
  others := rfl
  size_eq := by simp
  blocks := by
    intro place found hfound
    rw [getElem?_rewire, getElem?_rewire, Option.map_map] at hfound
    obtain ⟨present, hpresent, rfl⟩ := Option.map_eq_some_iff.mp hfound
    refine ⟨_, relisted_comm hne (first.targets.count place) (second.targets.count place)
      present.preds, ?_⟩
    rw [getElem?_rewire, getElem?_rewire, hpresent, Option.map_some, Option.map_some]
    unfold Block.rewired
    by_cases hother : place = other
    · simp [hother, hne]
    · simp [hother]

/-- Two blocks of a consistent method, or one block twice, are rewired one after the other. -/
theorem Consistent.edit_retarget (h : method.Consistent) (hblock : block < method.size)
    (hother : other < method.size) (hfirst : ∀ target ∈ first.targets, target < method.size)
    (hsecond : ∀ target ∈ second.targets, target < method.size) :
    method.edit [.retarget block first, .retarget other second] =
      { method := (method.rewire block first).rewire other second } := by
  have hnext : (method.rewire block first).retarget other second =
      { method := (method.rewire block first).rewire other second } :=
    (h.rewire hblock hfirst).retarget_eq (by simpa using hother) (by simpa using hsecond)
  simp only [Method.edit, Change.apply, h.retarget_eq hblock hfirst, hnext]

/-- In a method with consistent edges, the last of several retargetings of a block is all that
shows, down to the order of predecessors; so retargeting a block again changes nothing. It
takes the block out of every predecessor list and puts it at the end, once for each time the
list's own block is a target. Two blocks can be retargeted in either order, up to the order of
predecessors. -/
theorem retarget_last_wins (method : Method) (hverify : method.verify = .ok ())
    (block : BlockId) (hblock : block < method.size) (first second : Terminator)
    (hfirst : ∀ target ∈ first.targets, target < method.size)
    (hsecond : ∀ target ∈ second.targets, target < method.size) :
    method.edit [.retarget block first, .retarget block second] =
        method.retarget block second ∧
      method.edit [.retarget block second, .retarget block second] =
        method.retarget block second ∧
      method.retarget block second = { method := { method with
        blocks := method.blocks.mapIdx fun place found =>
          { found with
            preds := found.preds.filter (· ≠ block) ++
              List.replicate (second.targets.count place) block
            terminator := if place = block then second else found.terminator } } } ∧
      ∀ other < method.size, other ≠ block →
        ∃ blockFirst otherFirst,
          method.edit [.retarget block first, .retarget other second] =
            { method := blockFirst } ∧
          method.edit [.retarget other second, .retarget block first] =
            { method := otherFirst } ∧
          blockFirst.Reordered otherFirst := by
  have h := verify_eq_ok_iff.mp hverify
  have hretarget := h.retarget_eq hblock hsecond
  have htwice : ∀ terminator : Terminator,
      (∀ target ∈ terminator.targets, target < method.size) →
        method.edit [.retarget block terminator, .retarget block second] =
          method.retarget block second := by
    intro terminator hterminator
    rw [h.edit_retarget hblock hblock hterminator hsecond, rewire_rewire, hretarget]
  refine ⟨htwice first hfirst, htwice second hsecond, hretarget, fun other hother hne => ?_⟩
  exact ⟨_, _, h.edit_retarget hblock hother hfirst hsecond,
    h.edit_retarget hother hblock hsecond hfirst, reordered_rewire method first second hne⟩

/-- Block 0 leads to block 1 twice and to itself, block 1 to blocks 0 and 2. -/
def bundle : Method where
  name := "bundle"
  heads := [0]
  blocks := #[
    { terminator := .switch (.integer 0) [1, 0] 1, preds := [0, 1] },
    { terminator := .branch (.boolean true) 0 2, preds := [0, 0] },
    { terminator := .ret none, preds := [1] }]

theorem retarget_last_wins_bundle :
    bundle.verify = .ok () ∧
      bundle.edit [.retarget 0 (.branch (.boolean true) 2 1),
          .retarget 0 (.switch (.integer 0) [2, 0] 2)] =
        bundle.retarget 0 (.switch (.integer 0) [2, 0] 2) ∧
      ∃ zeroFirst oneFirst,
        bundle.edit [.retarget 0 (.branch (.boolean true) 2 1),
          .retarget 1 (.switch (.integer 0) [2, 0] 2)] = { method := zeroFirst } ∧
        bundle.edit [.retarget 1 (.switch (.integer 0) [2, 0] 2),
          .retarget 0 (.branch (.boolean true) 2 1)] = { method := oneFirst } ∧
        zeroFirst.Reordered oneFirst ∧ zeroFirst ≠ oneFirst := by
  have hdiffer : bundle.edit [.retarget 0 (.branch (.boolean true) 2 1),
      .retarget 1 (.switch (.integer 0) [2, 0] 2)] ≠
        bundle.edit [.retarget 1 (.switch (.integer 0) [2, 0] 2),
          .retarget 0 (.branch (.boolean true) 2 1)] := by decide
  obtain ⟨hlast, -, -, hcomm⟩ := retarget_last_wins bundle rfl 0 (by decide)
    (.branch (.boolean true) 2 1) (.switch (.integer 0) [2, 0] 2) (by decide) (by decide)
  obtain ⟨zeroFirst, oneFirst, hzero, hone, hreordered⟩ := hcomm 1 (by decide) (by decide)
  refine ⟨rfl, hlast, zeroFirst, oneFirst, hzero, hone, hreordered, fun heq => hdiffer ?_⟩
  rw [hzero, hone, heq]

/-! ## Halfway -/

/-- A sequence of edits that fails is done up to the first failure. -/
theorem editEach_of_error {edit : Method → BlockId → Except Fault Method} {between : Method}
    {fault : Fault} {missing : BlockId} (rest : List BlockId)
    (hbefore : method.editEach edit before = { method := between })
    (hmissing : edit between missing = .error fault) :
    method.editEach edit (before ++ missing :: rest) =
      { method := between, fault := some fault } := by
  induction before generalizing method with
  | nil =>
    obtain rfl : method = between := congrArg Edit.method hbefore
    show method.editEach edit (missing :: rest) = _
    rw [editEach, hmissing]
  | cons target before ih =>
    rw [editEach] at hbefore
    rw [List.cons_append, editEach]
    cases hedit : edit method target with
    | error stopped =>
      rw [hedit] at hbefore
      cases congrArg Edit.fault hbefore
    | ok edited =>
      rw [hedit] at hbefore
      exact ih hbefore

/-- Retargeting that meets a missing target has relisted the block for the targets before. -/
theorem Consistent.retarget_of_missing (h : method.Consistent)
    (hfound : method.blocks[block]? = some found) {missing : BlockId} {rest : List BlockId}
    (htargets : terminator.targets = before ++ missing :: rest)
    (hbefore : ∀ target ∈ before, target < method.size) (hmissing : method.size ≤ missing) :
    method.retarget block terminator =
      { method := method.relist block before, fault := some (.noSuccessor missing) } := by
  obtain ⟨hfault, hjoined⟩ := h.reconnect_eq hfound hbefore
  have hstop : (method.relist block before).connect block missing =
      .error (.noSuccessor missing) := by
    refine if_neg fun hin => ?_
    have hlt : missing < (method.relist block before).size := of_decide_eq_true hin
    rw [size_relist] at hlt
    exact Nat.not_lt_of_le hmissing hlt
  have hhalf : (method.disconnectAll block found.terminator.targets).method.connectAll block
      terminator.targets =
        { method := method.relist block before, fault := some (.noSuccessor missing) } := by
    rw [htargets]
    exact editEach_of_error rest hjoined hstop
  simp only [retarget, hfound, hfault, hhalf]

/-! ## Relisted edges -/

/-- Relisting leaves the edges of terminators as they are. -/
theorem outCount_relist (method : Method) (block source target : BlockId)
    (targets : List BlockId) :
    (method.relist block targets).outCount source target = method.outCount source target := by
  rw [outCount, outCount, getElem?_relist]
  cases method.blocks[source]? with
  | none => rfl
  | some found => rfl

/-- In predecessor lists it replaces the edges of one block. -/
theorem inCount_relist (htargets : ∀ target ∈ targets, target < method.size)
    (source target : BlockId) :
    (method.relist block targets).inCount source target =
      if source = block then targets.count target else method.inCount source target := by
  rw [inCount, inCount, getElem?_relist]
  cases hfound : method.blocks[target]? with
  | none =>
    -- a block that does not exist is not among the targets
    have hnone : targets.count target = 0 := by
      refine List.count_eq_zero.mpr fun hmem => ?_
      have hlt := htargets target hmem
      have hge := Array.getElem?_eq_none_iff.mp hfound
      exact Nat.not_lt_of_le hge hlt
    simp [hnone]
  | some found => exact count_relisted block source (targets.count target) found.preds

/-- It refers to no block that does not exist. -/
theorem Consistent.present_relist (h : method.Consistent) (hblock : block < method.size)
    (targets : List BlockId) :
    ∀ reference ∈ (method.relist block targets).references,
      reference.2 < (method.relist block targets).size := by
  obtain ⟨hblocks, hheads⟩ := present_iff.mp h.present
  rw [present_iff, size_relist]
  refine ⟨fun place found hfound => ?_, hheads⟩
  rw [getElem?_relist] at hfound
  obtain ⟨present, hpresent, rfl⟩ := Option.map_eq_some_iff.mp hfound
  obtain ⟨htargets, hpreds⟩ := hblocks place present hpresent
  refine ⟨htargets, fun pred hpred => ?_⟩
  rcases List.mem_append.mp hpred with hkept | hnew
  · exact hpreds pred (List.mem_of_mem_filter hkept)
  · rwa [List.eq_of_mem_replicate hnew]

/-- Its edges are unequal where the block leads to other targets than it is listed for. -/
theorem Consistent.mem_unequal_relist_iff (h : method.Consistent)
    (hfound : method.blocks[block]? = some found)
    (htargets : ∀ target ∈ targets, target < method.size) {source target : BlockId} :
    toLex (source, target) ∈ (method.relist block targets).unequal ↔
      source = block ∧ found.terminator.targets.count target ≠ targets.count target := by
  rw [mem_unequal_iff, outCount_relist, inCount_relist htargets]
  by_cases heq : source = block
  · subst heq
    rw [if_pos rfl, outCount, hfound]
    simp
  · rw [if_neg heq, h.balanced]
    simp [heq]

/-- Relisting a block of a consistent method goes unnoticed if the block leads to the targets
it is listed for, in whatever order. -/
theorem Consistent.verify_relist_eq_ok_iff (h : method.Consistent)
    (hfound : method.blocks[block]? = some found)
    (htargets : ∀ target ∈ targets, target < method.size) :
    (method.relist block targets).verify = .ok () ↔ found.terminator.targets.Perm targets := by
  have hblock := (Array.getElem?_eq_some_iff.mp hfound).1
  rw [verify_eq_ok_iff, List.perm_iff_count]
  constructor
  · intro hconsistent target
    by_contra hne
    exact (h.mem_unequal_relist_iff hfound htargets).mpr ⟨rfl, hne⟩
      (hconsistent.balanced block target)
  · intro hcount
    refine ⟨h.present_relist hblock targets, fun source target => ?_⟩
    by_contra hne
    exact ((h.mem_unequal_relist_iff hfound htargets).mp (mem_unequal_iff.mpr hne)).2
      (hcount target)

/-- Otherwise the check names the block and the least target for which it is listed
wrongly. -/
theorem Consistent.verify_relist_eq_error (h : method.Consistent)
    (hfound : method.blocks[block]? = some found)
    (htargets : ∀ target ∈ targets, target < method.size)
    (hperm : ¬ found.terminator.targets.Perm targets) :
    ∃ target, IsLeast {target | found.terminator.targets.count target ≠ targets.count target}
        target ∧
      (method.relist block targets).verify = .error (.inconsistentEdge block target
        (found.terminator.targets.count target) (targets.count target)) := by
  have hpresent := h.present_relist (Array.getElem?_eq_some_iff.mp hfound).1 targets
  cases hedge : (method.relist block targets).unbalancedEdge? with
  | none =>
    refine absurd ((h.verify_relist_eq_ok_iff hfound htargets).mp ?_) hperm
    rw [verify, missingReference?_eq_none_iff.mpr hpresent, hedge]
  | some edge =>
    obtain ⟨source, target⟩ := edge
    have hleast := isLeast_of_unbalancedEdge? hpresent hedge
    obtain ⟨rfl, hne⟩ := (h.mem_unequal_relist_iff hfound htargets).mp hleast.1
    refine ⟨target, ⟨hne, fun other hother => ?_⟩, ?_⟩
    · have hle := hleast.2 ((h.mem_unequal_relist_iff hfound htargets).mpr ⟨rfl, hother⟩)
      rcases Prod.Lex.toLex_le_toLex.mp hle with hlt | ⟨-, hle⟩
      · exact absurd hlt (Nat.lt_irrefl _)
      · exact hle
    · rw [verify, missingReference?_eq_none_iff.mpr hpresent, hedge]
      simp only [outCount_relist, inCount_relist htargets, if_true]
      rw [outCount, hfound]

/-- A retargeting that meets a target that does not exist stops there. The block has kept its
terminator, and is listed as a predecessor for the targets before the missing one. The edge
check passes this state exactly if these are the old targets in some order, and otherwise it
names the block. -/
theorem retarget_halfway (method : Method) (hverify : method.verify = .ok ())
    (block : BlockId) (found : Block) (hfound : method.blocks[block]? = some found)
    (terminator : Terminator) (k : Nat) (missing : BlockId)
    (htarget : terminator.targets[k]? = some missing) (hmissing : method.size ≤ missing)
    (hbefore : ∀ target ∈ terminator.targets.take k, target < method.size) :
    method.retarget block terminator =
        { method := { method with
            blocks := method.blocks.mapIdx fun place present =>
              { present with
                preds := present.preds.filter (· ≠ block) ++
                  List.replicate ((terminator.targets.take k).count place) block } }
          fault := some (.noSuccessor missing) } ∧
      ((method.retarget block terminator).method.verify = .ok () ↔
        found.terminator.targets.Perm (terminator.targets.take k)) ∧
      (¬ found.terminator.targets.Perm (terminator.targets.take k) →
        ∃ target, IsLeast {target | found.terminator.targets.count target ≠
            (terminator.targets.take k).count target} target ∧
          (method.retarget block terminator).method.verify =
            .error (.inconsistentEdge block target (found.terminator.targets.count target)
              ((terminator.targets.take k).count target))) := by
  have h := verify_eq_ok_iff.mp hverify
  obtain ⟨hk, hget⟩ := List.getElem?_eq_some_iff.mp htarget
  have hsplit : terminator.targets =
      terminator.targets.take k ++ missing :: terminator.targets.drop (k + 1) := by
    rw [← hget, List.getElem_cons_drop, List.take_append_drop]
  have hhalf := h.retarget_of_missing hfound hsplit hbefore hmissing
  refine ⟨hhalf, ?_, fun hperm => ?_⟩
  · rw [hhalf]
    exact h.verify_relist_eq_ok_iff hfound hbefore
  · rw [hhalf]
    exact h.verify_relist_eq_error hfound hbefore hperm

/-- Block 0 gets its old targets in another order before one that is missing, and the check
passes. If it gets one of them only, the check names the other. -/
theorem retarget_halfway_bundle :
    bundle.verify = .ok () ∧
      (bundle.retarget 0 (.switch (.integer 0) [1, 1, 0, 9] 2)).fault = some (.noSuccessor 9) ∧
      (bundle.retarget 0 (.switch (.integer 0) [1, 1, 0, 9] 2)).method.verify = .ok () ∧
      (bundle.retarget 0 (.branch (.boolean true) 0 7)).fault = some (.noSuccessor 7) ∧
      IsLeast {target | [1, 0, 1].count target ≠ [0].count target} 1 ∧
      (bundle.retarget 0 (.branch (.boolean true) 0 7)).method.verify =
        .error (.inconsistentEdge 0 1 2 0) := by
  have hverify : (bundle.retarget 0 (.branch (.boolean true) 0 7)).method.verify =
      .error (.inconsistentEdge 0 1 2 0) := by rfl
  obtain ⟨hpassed, hpasses, -⟩ := retarget_halfway bundle rfl 0 _ rfl
    (.switch (.integer 0) [1, 1, 0, 9] 2) 3 9 rfl (by decide) (by decide)
  obtain ⟨hnamed, -, hnames⟩ := retarget_halfway bundle rfl 0 _ rfl
    (.branch (.boolean true) 0 7) 1 7 rfl (by decide) (by decide)
  obtain ⟨target, hleast, herror⟩ := hnames (by decide)
  obtain ⟨-, rfl, -, -⟩ :=
    Violation.inconsistentEdge.inj (Except.error.inj (hverify.symm.trans herror))
  refine ⟨rfl, ?_, hpasses.mpr (by decide), ?_, hleast, hverify⟩
  · rw [hpassed]
  · rw [hnamed]

end Method

end MinimalSsa
