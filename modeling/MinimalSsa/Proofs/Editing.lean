import MinimalSsa.Proofs.Retarget
import MinimalSsa.Proofs.Totality

/-!
# Edges stay consistent under editing

A method that is built by the editing operations has consistent edges at every moment, as
long as new heads and new targets are blocks that exist. Placement is one of the operations
and may fail; like the others it never ends in a fault.

* `Change`: one editing operation with its arguments; `Change.Legal`: what its caller owes.
* `Method.edit`: several changes in a row.
* `Method.Consistent.apply`: a legal change succeeds and keeps the edges consistent.
* `Method.verify_edit`: so do all legal changes to a new method.
-/

namespace MinimalSsa

/-! ## Changes -/

/-- An editing operation. -/
inductive Change where
  | addBlock (name : Option String)
  | addHead (block : BlockId)
  | addRegion (region : Region)
  | newRegister
  | push (block : BlockId) (instruction : Instruction)
  | pushPhi (block : BlockId) (phi : Instruction)
  | placePhis (stats : Placement.Stats)
  | retarget (block : BlockId) (terminator : Terminator)

namespace Change

/-- Placement as an edit: what it has done to the method, and how it was misused. That the
method breaks a rule is no misuse. -/
def place (method : Method) (stats : Placement.Stats) : Edit :=
  let attempt := Placement.attempt stats method
  match attempt.failure with
  | some (.fault fault) => { method := attempt.method, fault := some fault }
  | _ => { method := attempt.method }

/-- However the attempt ends, it leaves behind what the pass does. -/
theorem method_place (method : Method) (stats : Placement.Stats) :
    (place method stats).method = method.placed := by
  rw [← Placement.method_runPlace stats method, place]
  split <;> rfl

/-- Make a change. -/
def apply (method : Method) : Change → Edit
  | .addBlock name => { method := (method.addBlock { name := name }).2 }
  | .addHead block => { method := method.addHead block }
  | .addRegion region => { method := method.addRegion region }
  | .newRegister => { method := method.newRegister.2 }
  | .push block instruction => .ofExcept method (method.push block instruction)
  | .pushPhi block phi => .ofExcept method (method.pushPhi block phi)
  | .placePhis stats => place method stats
  | .retarget block terminator => method.retarget block terminator

/-- What must hold of a method for a change to be made: the blocks it names exist, except for
a block that is retargeted, and only phis are placed among the phis. -/
def Legal (method : Method) : Change → Prop
  | .addHead block => block < method.size
  | .push block _ => block < method.size
  | .pushPhi block phi => block < method.size ∧ phi.isPhi = true
  | .retarget _ terminator => ∀ target ∈ terminator.targets, target < method.size
  | _ => True

instance (method : Method) : (change : Change) → Decidable (change.Legal method)
  | .addHead block => inferInstanceAs (Decidable (block < method.size))
  | .push block _ => inferInstanceAs (Decidable (block < method.size))
  | .pushPhi block phi => inferInstanceAs (Decidable (block < method.size ∧ phi.isPhi = true))
  | .retarget _ terminator =>
    inferInstanceAs (Decidable (∀ target ∈ terminator.targets, target < method.size))
  | .addBlock _ | .addRegion _ | .newRegister | .placePhis _ => inferInstanceAs (Decidable True)

end Change

namespace Method

/-- Make changes one after the other, up to the first that ends in a fault. -/
def edit (method : Method) : List Change → Edit
  | [] => { method := method }
  | change :: rest =>
    match (change.apply method).fault with
    | some _ => change.apply method
    | none => (change.apply method).method.edit rest

/-- Every change is legal where its turn comes. -/
def LegalEdits (method : Method) : List Change → Prop
  | [] => True
  | change :: rest => change.Legal method ∧ (change.apply method).method.LegalEdits rest

instance decidableLegalEdits :
    (method : Method) → (changes : List Change) → Decidable (method.LegalEdits changes)
  | _, [] => inferInstanceAs (Decidable True)
  | method, change :: rest =>
    have := decidableLegalEdits (change.apply method).method rest
    inferInstanceAs (Decidable (change.Legal method ∧ _))

variable {method : Method} {block : BlockId}

/-! ## Changes that keep the edges -/

/-- A new block has no edges. -/
theorem getElem?_graph_addBlock (method : Method) (name : Option String) (block : BlockId) :
    (method.addBlock { name := name }).2.graph.nodes[block]? =
      if block = method.size then some { succs := [], preds := [] }
      else method.graph.nodes[block]? := by
  simp only [graph, addBlock, Array.getElem?_map, Array.getElem?_push, size]
  split
  · rfl
  · rfl

/-- So it has those it had before it was there. -/
theorem edges_addBlock (method : Method) (name : Option String) (block : BlockId) :
    (method.addBlock { name := name }).2.graph.successors block =
        method.graph.successors block ∧
      (method.addBlock { name := name }).2.graph.predecessors block =
        method.graph.predecessors block := by
  simp only [Graph.successors, Graph.predecessors, getElem?_graph_addBlock]
  by_cases heq : block = method.size
  · have hnone : method.graph.nodes[block]? = none :=
      Array.getElem?_eq_none (Nat.le_of_eq ((Graph.size_graph method).trans heq.symm))
    rw [if_pos heq, hnone]
    exact ⟨rfl, rfl⟩
  · rw [if_neg heq]
    exact ⟨rfl, rfl⟩

/-- Changing what a block holds does not show in the graph. -/
theorem graph_modifyBlock {change : Block → Block}
    (hkeep : ∀ found, method.blocks[block]? = some found → (change found).node = found.node) :
    (method.modifyBlock block change).graph = method.graph := by
  apply congrArg Graph.mk
  apply Array.ext_getElem?
  intro other
  rw [Array.getElem?_map, Array.getElem?_map, getElem?_modifyBlock]
  split
  · next heq =>
    subst heq
    cases hfound : method.blocks[block]? with
    | none => rfl
    | some found => simp [hkeep found hfound]
  · rfl

/-- Nor does a push, in a block that exists or in one that does not. -/
theorem graph_push (method : Method) (block : BlockId) (instruction : Instruction) :
    ((Change.push block instruction).apply method).method.graph = method.graph := by
  simp only [Change.apply, push, updateBlock]
  split
  · exact graph_modifyBlock fun _ _ => rfl
  · rfl

theorem graph_pushPhi (method : Method) (block : BlockId) (phi : Instruction) :
    ((Change.pushPhi block phi).apply method).method.graph = method.graph := by
  simp only [Change.apply, pushPhi, blockAt]
  cases hfound : method.blocks[block]? with
  | none => rfl
  | some found =>
    by_cases hphi : phi.isPhi = true
    · simp only [Block.pushPhi, if_pos hphi, Edit.ofExcept]
      refine graph_modifyBlock fun other hother => ?_
      obtain rfl := Option.some.inj (hfound.symm.trans hother)
      rfl
    · simp only [Block.pushPhi, if_neg hphi, Edit.ofExcept]

/-- Placement adds phis only. -/
theorem graph_place (method : Method) (stats : Placement.Stats) :
    (Change.place method stats).method.graph = method.graph := by
  obtain ⟨sites, hplaced⟩ := Placement.exists_sites_placed method
  rw [Change.method_place, hplaced, Placement.graph_foldl_mergeAt]

namespace Consistent

/-- Changing what a block holds keeps the edges. -/
theorem modifyBlock (h : method.Consistent) {change : Block → Block}
    (hkeep : ∀ found, method.blocks[block]? = some found → (change found).node = found.node) :
    (method.modifyBlock block change).Consistent :=
  h.congr (graph_modifyBlock hkeep) rfl

theorem addBlock (h : method.Consistent) (name : Option String) :
    (method.addBlock { name := name }).2.Consistent := by
  have hsize : (method.addBlock { name := name }).2.graph.size = method.graph.size + 1 := by
    rw [Graph.size_graph, Graph.size_graph]
    exact Array.size_push _
  obtain ⟨hsuccs, hheads, hbalanced⟩ := consistent_iff.mp h
  rw [consistent_iff, hsize]
  simp only [edges_addBlock]
  refine ⟨fun source target htarget => ?_, fun head hhead => ?_, hbalanced⟩
  · exact Nat.lt_succ_of_lt (hsuccs source target htarget)
  · exact Nat.lt_succ_of_lt (hheads head hhead)

theorem addHead (h : method.Consistent) (hblock : block < method.size) :
    (method.addHead block).Consistent := by
  unfold Method.addHead
  split
  · exact h
  · obtain ⟨hsuccs, hheads, hbalanced⟩ := consistent_iff.mp h
    refine consistent_iff.mpr ⟨hsuccs, fun head hhead => ?_, hbalanced⟩
    rcases List.mem_append.mp hhead with hhead | hhead
    · exact hheads head hhead
    · rw [List.mem_singleton.mp hhead, Graph.size_graph]
      exact hblock

/-- Pushing an instruction succeeds in a block that exists. -/
theorem push (h : method.Consistent) (hblock : block < method.size)
    (instruction : Instruction) :
    ∃ after, method.push block instruction = .ok after ∧ after.Consistent := by
  refine ⟨method.modifyBlock block (·.push instruction), ?_, h.modifyBlock fun _ _ => rfl⟩
  exact if_pos (decide_eq_true hblock)

/-- Pushing a phi does, too. -/
theorem pushPhi (h : method.Consistent) (hblock : block < method.size) {phi : Instruction}
    (hphi : phi.isPhi = true) :
    ∃ after, method.pushPhi block phi = .ok after ∧ after.Consistent := by
  obtain ⟨found, hfound⟩ : ∃ found, method.blocks[block]? = some found :=
    ⟨_, Array.getElem?_eq_getElem hblock⟩
  refine ⟨method.modifyBlock block fun _ => found.insertPhi phi, ?_, h.modifyBlock ?_⟩
  · simp only [Method.pushPhi, blockAt, hfound, Block.pushPhi, if_pos hphi]
  · intro other hother
    obtain rfl := Option.some.inj (hfound.symm.trans hother)
    rfl

/-- Placement keeps the edges, whether it succeeds or not. -/
theorem place (h : method.Consistent) (stats : Placement.Stats) :
    (Change.place method stats).fault = none ∧
      (Change.place method stats).method.Consistent := by
  refine ⟨?_, h.congr (graph_place method stats) ?_⟩
  · cases hrun : Placement.run stats method with
    | error failure =>
      obtain ⟨-, -, violation, rfl, -⟩ := Placement.run_eq_error_iff.mp hrun
      rw [Change.place, Placement.attempt_of_error hrun]
      rfl
    | ok out => rw [Change.place, Placement.Attempt.eq_of_result hrun]
  · obtain ⟨sites, hplaced⟩ := Placement.exists_sites_placed method
    rw [Change.method_place, hplaced]

/-! ## One change and many -/

/-- A legal change succeeds and keeps the edges consistent. -/
theorem apply (h : method.Consistent) {change : Change} (hlegal : change.Legal method) :
    (change.apply method).fault = none ∧ (change.apply method).method.Consistent := by
  cases change with
  | addBlock name => exact ⟨rfl, h.addBlock name⟩
  | addHead block => exact ⟨rfl, h.addHead hlegal⟩
  | addRegion region => exact ⟨rfl, h.congr rfl rfl⟩
  | newRegister => exact ⟨rfl, h.congr rfl rfl⟩
  | push block instruction =>
    obtain ⟨after, hafter, hconsistent⟩ := h.push hlegal instruction
    simp only [Change.apply, hafter]
    exact ⟨rfl, hconsistent⟩
  | pushPhi block phi =>
    obtain ⟨after, hafter, hconsistent⟩ := h.pushPhi hlegal.1 hlegal.2
    simp only [Change.apply, hafter]
    exact ⟨rfl, hconsistent⟩
  | placePhis stats => exact h.place stats
  | retarget block terminator =>
    by_cases hblock : block < method.size
    · rw [Change.apply, h.retarget_eq hblock hlegal]
      exact ⟨rfl, h.rewire hblock hlegal⟩
    · -- a block that does not exist has no edges to change
      have hnone : method.blocks[block]? = none :=
        Array.getElem?_eq_none (Nat.le_of_not_lt hblock)
      rw [Change.apply, Method.retarget, hnone]
      exact ⟨rfl, h⟩

/-- Legal changes succeed and keep the edges consistent. -/
theorem edit (h : method.Consistent) {changes : List Change}
    (hlegal : method.LegalEdits changes) :
    (method.edit changes).fault = none ∧ (method.edit changes).method.Consistent := by
  induction changes generalizing method with
  | nil => exact ⟨rfl, h⟩
  | cons change changes ih =>
    obtain ⟨hfault, hconsistent⟩ := h.apply hlegal.1
    rw [Method.edit, hfault]
    exact ih hconsistent hlegal.2

end Consistent

/-! ## From a new method on -/

theorem consistent_plugged (name : String) : (plugged name).Consistent where
  present reference hmem := by simp [plugged, references, indexedBlocks] at hmem
  balanced source target := by simp [plugged, outCount, inCount]

theorem consistent_withEntry (name : String) : (withEntry name).Consistent :=
  ((consistent_plugged name).addBlock none).addHead Nat.zero_lt_one

/-- Whatever is made of a new method by legal changes, with one empty block or with none to
begin with, no change ends in a fault and the edges are consistent. -/
theorem verify_edit (name : String) (start : Method)
    (hstart : start = withEntry name ∨ start = plugged name) (changes : List Change)
    (hlegal : start.LegalEdits changes) :
    (start.edit changes).fault = none ∧ (start.edit changes).method.verify = .ok () := by
  rw [verify_eq_ok_iff]
  rcases hstart with rfl | rfl
  · exact (consistent_withEntry name).edit hlegal
  · exact (consistent_plugged name).edit hlegal

/-- A loop that is built, placed, and taken apart again: with a target named twice, a block
that leads to itself, one that does not exist, and targets that stay. -/
def loopEdits : List Change := [
  .addBlock none, .addBlock (some "exit"), .newRegister,
  .retarget 0 (.branch (.boolean true) 1 1), .push 0 (.assign 0 0), .push 1 (.assign 0 1),
  .retarget 1 (.switch (.register 0) [1, 2, 1] 0), .addHead 2, .placePhis {},
  .pushPhi 2 (.phiFor 1 [1]), .retarget 1 (.branch (.boolean true) 2 1),
  .retarget 7 (.jump 0), .addRegion { guarded := [9], handler := 2 }, .placePhis {}]

theorem verify_edit_loopEdits :
    (withEntry "loop").LegalEdits loopEdits ∧
      ((withEntry "loop").edit loopEdits).fault = none ∧
      ((withEntry "loop").edit loopEdits).method.verify = .ok () := by
  have hlegal : decide ((withEntry "loop").LegalEdits loopEdits) = true := by decide +kernel
  have hlegal := of_decide_eq_true hlegal
  exact ⟨hlegal, verify_edit "loop" (withEntry "loop") (.inl rfl) loopEdits hlegal⟩

end Method

end MinimalSsa
