import MinimalSsa.Check
import MinimalSsa.Proofs.Placement

/-!
# What the checks guarantee

A check is a search for a first violation, block by block and instruction by
instruction. Seen from outside it asks the same of every block: phis come first and
have an operand per source, and for the strict check their sources are the
predecessors and no register is merged twice. A phi that placement inserts has all of
this, whatever the block holds, and neither adds to nor takes away from what is wrong
with the rest of it.

* `Check.Accepts`: what a check asks of a block.
* `Check.Seen.after`: what the search carries along is a function of the instructions that
  it has passed.
* `Check.run_eq_ok_iff`: a check passes the consistent methods whose blocks it accepts.
* `Check.accepts_merged_iff`: a new phi makes no difference to a block.
-/

namespace MinimalSsa

/-! ## The phis of a block -/

namespace Block

variable {block : Block} {instruction phi : Instruction} {register : Register}

theorem isPhi_of_mem_phis (h : instruction ∈ block.phis) : instruction.isPhi = true :=
  List.mem_takeWhile_imp h

/-- The rest of a block does not begin with a phi. -/
theorem takeWhile_body (block : Block) : block.body.takeWhile Instruction.isPhi = [] := by
  have hsplit : block.phis = block.phis ++ block.body.takeWhile Instruction.isPhi := by
    rw [← List.takeWhile_append_of_pos fun _ => isPhi_of_mem_phis, phis_append_body]
    rfl
  exact List.self_eq_append_right.mp hsplit

/-- A phi is inserted behind the leading phis, -/
theorem phis_insertPhi (block : Block) (hphi : phi.isPhi = true) :
    (block.insertPhi phi).phis = block.phis ++ [phi] := by
  show (block.phis ++ phi :: block.body).takeWhile Instruction.isPhi = _
  rw [List.takeWhile_append_of_pos fun _ => isPhi_of_mem_phis,
    List.takeWhile_cons_of_pos hphi, takeWhile_body]

/-- and the rest of the block stays. -/
theorem body_insertPhi (block : Block) (hphi : phi.isPhi = true) :
    (block.insertPhi phi).body = block.body := by
  have hsplit := (block.insertPhi phi).phis_append_body
  rw [phis_insertPhi block hphi, List.append_assoc] at hsplit
  exact List.cons.inj (List.append_cancel_left hsplit) |>.2

/-- The registers of the leading phis are among those that phis of the block define. -/
theorem hasPhiFor_of_mem (h : register ∈ block.phis.filterMap Instruction.definedRegister) :
    block.hasPhiFor register = true := by
  obtain ⟨phi, hphi, hdefined⟩ := List.mem_filterMap.mp h
  refine List.any_eq_true.mpr ⟨phi, List.takeWhile_subset _ hphi, ?_⟩
  rw [isPhi_of_mem_phis hphi, hdefined]
  exact beq_self_eq_true _

end Block

namespace Check

variable {check : Check} {block : Block} {position : BlockId} {register : Register}
variable {before rest : List Instruction} {instruction : Instruction}

/-! ## What is asked of a block -/

/-- A phi has an operand per source, and for the strict check its sources are the
predecessors `preds` in order. -/
def Slotted (check : Check) (preds : List BlockId) (instruction : Instruction) : Prop :=
  ∀ dest operands sources, instruction.action = .phi dest operands sources →
    operands.length = sources.length ∧ (check = .strict → sources = preds)

/-- What a check asks of a block: after the leading phis there is no phi, the leading phis
have their slots, and for the strict check no two of them merge one register. -/
structure Accepts (check : Check) (block : Block) : Prop where
  leading : ∀ instruction ∈ block.body, instruction.isPhi = false
  slotted : ∀ phi ∈ block.phis, check.Slotted block.preds phi
  single : check = .strict → (block.phis.filterMap Instruction.definedRegister).Nodup

/-- The strict check asks for more. -/
theorem Accepts.loose (h : Check.strict.Accepts block) : Check.loose.Accepts block where
  leading := h.leading
  slotted phi hphi dest operands sources haction :=
    ⟨(h.slotted phi hphi dest operands sources haction).1, nofun⟩
  single := nofun

/-! ## What has been seen -/

namespace Seen

/-- What is known after a list of instructions. -/
def after (check : Check) (before : List Instruction) : Seen :=
  before.foldl (·.note check) {}

theorem note_after (check : Check) (before : List Instruction) (instruction : Instruction) :
    (after check before).note check instruction = after check (before ++ [instruction]) := by
  rw [after, after, List.foldl_append]
  rfl

theorem count_note (seen : Seen) (check : Check) (instruction : Instruction) :
    (seen.note check instruction).count = seen.count + 1 := by
  unfold note
  split <;> rfl

/-- One instruction that is no phi is remembered for good. -/
theorem nonPhi_note (seen : Seen) (check : Check) (instruction : Instruction) :
    (seen.note check instruction).nonPhi = (seen.nonPhi || !instruction.isPhi) := by
  obtain ⟨action, comment⟩ := instruction
  cases action with
  | phi dest operands sources => cases check <;> simp [note, Instruction.isPhi]
  | _ => simp [note, Instruction.isPhi]

theorem mem_merged_note (seen : Seen) (instruction : Instruction) :
    register ∈ (seen.note .strict instruction).merged ↔
      register ∈ seen.merged ∨
        (instruction.isPhi = true ∧ instruction.definedRegister = some register) := by
  obtain ⟨action, comment⟩ := instruction
  cases action with
  | phi dest operands sources =>
    have hdefined : Instruction.definedRegister ⟨.phi dest operands sources, comment⟩ =
        some dest := rfl
    show register ∈ seen.merged.insert dest ↔ _
    rw [List.mem_insert_iff, hdefined, Option.some.injEq, or_comm, eq_comm]
    exact or_congr_right (and_iff_right rfl).symm
  | _ => simp [note, Instruction.isPhi]

theorem count_after (check : Check) (before : List Instruction) :
    (after check before).count = before.length := by
  induction before using List.reverseRecOn with
  | nil => rfl
  | append_singleton before instruction ih =>
    rw [← note_after, count_note, ih, List.length_append, List.length_singleton]

theorem nonPhi_after (check : Check) (before : List Instruction) :
    (after check before).nonPhi = !before.all Instruction.isPhi := by
  induction before using List.reverseRecOn with
  | nil => rfl
  | append_singleton before instruction ih =>
    rw [← note_after, nonPhi_note, ih, List.all_append, List.all_cons, List.all_nil,
      Bool.and_true, Bool.not_and]

theorem mem_merged_after (before : List Instruction) :
    register ∈ (after .strict before).merged ↔
      ∃ phi ∈ before, phi.isPhi = true ∧ phi.definedRegister = some register := by
  induction before using List.reverseRecOn with
  | nil => simp [after]
  | append_singleton before instruction ih =>
    rw [← note_after, mem_merged_note, ih]
    simp [or_and_right, exists_or]

end Seen

/-! ## The search as a decision -/

theorem mem_merged_iff (hbefore : ∀ phi ∈ before, phi.isPhi = true) :
    register ∈ (Seen.after .strict before).merged ↔
      register ∈ before.filterMap Instruction.definedRegister := by
  rw [Seen.mem_merged_after, List.mem_filterMap]
  refine exists_congr fun phi => and_congr_right fun hphi => ?_
  exact and_iff_right (hbefore phi hphi)

theorem defect?_eq_none_iff {merged : List Register} {dest : Register}
    {operands : List Operand} {sources : List BlockId} :
    check.defect? block merged dest operands sources = none ↔
      operands.length = sources.length ∧
        (check = .strict → sources = block.preds ∧ dest ∉ merged) := by
  unfold defect?
  by_cases hlength : operands.length = sources.length
  · rw [if_neg (not_not.mpr hlength)]
    cases check with
    | loose => simp [hlength]
    | strict =>
      by_cases hsources : sources = block.preds
      · simp [hlength, hsources]
      · simp [hsources]
  · simp [hlength]

/-- A phi among leading phis is in order if it has its slots and its register is new. -/
theorem violation?_eq_none_iff_of_isPhi (hphi : instruction.isPhi = true)
    (hbefore : ∀ phi ∈ before, phi.isPhi = true) :
    check.violation? block position (.after check before) instruction = none ↔
      check.Slotted block.preds instruction ∧
        (check = .strict → ∀ register ∈ instruction.definedRegister,
          register ∉ before.filterMap Instruction.definedRegister) := by
  obtain ⟨action, comment⟩ := instruction
  cases action with
  | phi dest operands sources =>
    have hleading : (Seen.after check before).nonPhi = false := by
      rw [Seen.nonPhi_after, List.all_eq_true.mpr hbefore]
      rfl
    have hslotted : check.Slotted block.preds ⟨.phi dest operands sources, comment⟩ ↔
        operands.length = sources.length ∧ (check = .strict → sources = block.preds) := by
      refine ⟨fun h => h dest operands sources rfl, ?_⟩
      rintro h _ _ _ ⟨⟩
      exact h
    have hdefined : Instruction.definedRegister ⟨.phi dest operands sources, comment⟩ =
        some dest := rfl
    simp only [violation?, hleading, Bool.false_eq_true, if_false, Option.map_eq_none_iff,
      defect?_eq_none_iff, hslotted, hdefined, Option.mem_some_iff, forall_eq']
    cases check with
    | loose => simp
    | strict =>
      rw [← mem_merged_iff hbefore]
      tauto
  | _ => simp [Instruction.isPhi] at hphi

theorem violation?_of_not_isPhi (h : instruction.isPhi = false) (seen : Seen) :
    check.violation? block position seen instruction = none := by
  obtain ⟨action, comment⟩ := instruction
  cases action with
  | phi dest operands sources => simp [Instruction.isPhi] at h
  | _ => rfl

/-- Once another instruction has come, no phi may follow. -/
theorem firstIn_eq_none_iff_of_mixed {seen : Seen} (hseen : seen.nonPhi = true) :
    check.firstIn block position seen rest = none ↔
      ∀ instruction ∈ rest, instruction.isPhi = false := by
  induction rest generalizing seen with
  | nil => simp [firstIn]
  | cons instruction rest ih =>
    have hnext : (seen.note check instruction).nonPhi = true := by
      rw [Seen.nonPhi_note, hseen, Bool.true_or]
    rw [firstIn, List.forall_mem_cons]
    cases hphi : instruction.isPhi with
    | false =>
      rw [violation?_of_not_isPhi hphi]
      simpa using ih hnext
    | true =>
      obtain ⟨action, comment⟩ := instruction
      cases action with
      | phi dest operands sources => simp [violation?, hseen]
      | _ => simp [Instruction.isPhi] at hphi

/-- One more instruction keeps the defined registers apart if its own is new. -/
theorem nodup_concat_iff (hsingle : (before.filterMap Instruction.definedRegister).Nodup) :
    ((before ++ [instruction]).filterMap Instruction.definedRegister).Nodup ↔
      ∀ register ∈ instruction.definedRegister,
        register ∉ before.filterMap Instruction.definedRegister := by
  rw [List.filterMap_append, List.nodup_append']
  cases hdefined : instruction.definedRegister with
  | none => simp [hdefined, hsingle]
  | some register => simp [hdefined, hsingle]

/-- Behind leading phis that are in order, the search finds nothing if the rest goes on as
a block has to. -/
theorem firstIn_eq_none_iff_of_leading (hbefore : ∀ phi ∈ before, phi.isPhi = true)
    (hsingle : check = .strict → (before.filterMap Instruction.definedRegister).Nodup) :
    check.firstIn block position (.after check before) rest = none ↔
      (∀ instruction ∈ rest.dropWhile Instruction.isPhi, instruction.isPhi = false) ∧
      (∀ phi ∈ rest.takeWhile Instruction.isPhi, check.Slotted block.preds phi) ∧
      (check = .strict → ((before ++ rest.takeWhile Instruction.isPhi).filterMap
        Instruction.definedRegister).Nodup) := by
  induction rest generalizing before with
  | nil => simpa [firstIn] using hsingle
  | cons instruction rest ih =>
    rw [firstIn, Seen.note_after]
    cases hphi : instruction.isPhi with
    | false =>
      -- the first other instruction ends the leading phis
      have hmixed : (Seen.after check (before ++ [instruction])).nonPhi = true := by
        simp [Seen.nonPhi_after, hphi]
      rw [violation?_of_not_isPhi hphi, List.dropWhile_cons, List.takeWhile_cons]
      simp only [hphi, Bool.false_eq_true, if_false, firstIn_eq_none_iff_of_mixed hmixed,
        List.forall_mem_cons, List.append_nil, List.not_mem_nil, false_imp_iff, forall_const,
        true_and, and_true, and_iff_left hsingle]
    | true =>
      have hnext : ∀ phi ∈ before ++ [instruction], phi.isPhi = true := by
        intro phi hmem
        rcases List.mem_append.mp hmem with hmem | hmem
        · exact hbefore phi hmem
        · rwa [List.mem_singleton.mp hmem]
      have hviolation :=
        @violation?_eq_none_iff_of_isPhi check block position before instruction hphi hbefore
      rw [List.dropWhile_cons_of_pos hphi, List.takeWhile_cons_of_pos hphi,
        List.append_cons before instruction (rest.takeWhile _), List.forall_mem_cons]
      cases hfound : check.violation? block position (.after check before) instruction with
      | some violation =>
        -- what is wrong with this phi is wrong with the block
        rw [hfound] at hviolation
        refine ⟨nofun, fun ⟨_, ⟨hslotted, _⟩, hnodup⟩ => ?_⟩
        refine hviolation.mpr ⟨hslotted, fun hstrict => ?_⟩
        apply (nodup_concat_iff (hsingle hstrict)).mp
        have hall := hnodup hstrict
        rw [List.filterMap_append] at hall
        exact (List.nodup_append'.mp hall).1
      | none =>
        obtain ⟨hslotted, hfresh⟩ := hviolation.mp hfound
        have hgoes := ih hnext fun hstrict =>
          (nodup_concat_iff (hsingle hstrict)).mpr (hfresh hstrict)
        simp only [hgoes, hslotted, true_and]

/-- The search of a block finds nothing exactly if the block is accepted. -/
theorem firstIn_eq_none_iff :
    check.firstIn block position {} block.instructions = none ↔ check.Accepts block := by
  show check.firstIn block position (.after check []) block.instructions = none ↔ _
  rw [firstIn_eq_none_iff_of_leading (by simp) (by simp)]
  exact ⟨fun ⟨hleading, hslotted, hsingle⟩ => ⟨hleading, hslotted, hsingle⟩,
    fun h => ⟨h.leading, h.slotted, h.single⟩⟩

theorem phiViolation?_eq_none_iff {method : Method} :
    check.phiViolation? method = none ↔ ∀ block ∈ method.blocks, check.Accepts block := by
  rw [phiViolation?, List.findSome?_eq_none_iff]
  constructor
  · intro h block hblock
    obtain ⟨position, hposition⟩ := Array.mem_iff_getElem?.mp hblock
    exact firstIn_eq_none_iff.mp
      (h (block, position) (Method.mem_indexedBlocks_iff.mpr hposition))
  · rintro h ⟨block, position⟩ hentry
    have hblock := Array.mem_of_getElem? (Method.mem_indexedBlocks_iff.mp hentry)
    exact firstIn_eq_none_iff.mpr (h block hblock)

/-- A check passes exactly the methods with consistent edges all of whose blocks it
accepts. -/
theorem run_eq_ok_iff {method : Method} :
    check.run method = .ok () ↔
      method.Consistent ∧ ∀ block ∈ method.blocks, check.Accepts block := by
  rw [← Method.verify_eq_ok_iff, ← phiViolation?_eq_none_iff, run]
  cases method.verify with
  | error violation => simp
  | ok passed => cases check.phiViolation? method <;> simp

/-- What the strict check passes, the loose one does. -/
theorem run_loose {method : Method} (h : Check.strict.run method = .ok ()) :
    Check.loose.run method = .ok () := by
  obtain ⟨hconsistent, haccepts⟩ := run_eq_ok_iff.mp h
  exact run_eq_ok_iff.mpr ⟨hconsistent, fun block hblock => (haccepts block hblock).loose⟩

/-! ## Placement makes no difference -/

theorem slotted_phiFor (register : Register) (preds : List BlockId) :
    check.Slotted preds (.phiFor register preds) := by
  rintro dest operands sources ⟨⟩
  exact ⟨List.length_replicate, fun _ => rfl⟩

/-- A block is accepted with a new phi exactly if it is without. -/
theorem accepts_merged_iff (register : Register) :
    check.Accepts (block.merged register) ↔ check.Accepts block := by
  unfold Block.merged
  by_cases hphi : block.hasPhiFor register = true
  · rw [if_pos hphi]
  · rw [if_neg hphi]
    have hphis := block.phis_insertPhi (Instruction.isPhi_phiFor register block.preds)
    have hbody := block.body_insertPhi (Instruction.isPhi_phiFor register block.preds)
    have hnew : register ∉ block.phis.filterMap Instruction.definedRegister := fun hmem =>
      hphi (Block.hasPhiFor_of_mem hmem)
    have hregisters : (block.phis ++ [Instruction.phiFor register block.preds]).filterMap
        Instruction.definedRegister =
          block.phis.filterMap Instruction.definedRegister ++ [register] := by
      rw [List.filterMap_append]
      rfl
    constructor
    · intro h
      constructor
      case leading => exact hbody ▸ h.leading
      case slotted =>
        intro phi hmem
        exact h.slotted phi (hphis ▸ List.mem_append_left _ hmem)
      case single =>
        intro hstrict
        have hnodup := h.single hstrict
        rw [hphis, hregisters] at hnodup
        exact (List.nodup_append'.mp hnodup).1
    · intro h
      constructor
      case leading => exact hbody.symm ▸ h.leading
      case slotted =>
        intro phi hmem
        rw [hphis] at hmem
        rcases List.mem_append.mp hmem with hmem | hmem
        · exact h.slotted phi hmem
        · rw [List.mem_singleton.mp hmem]
          exact slotted_phiFor register block.preds
      case single =>
        intro hstrict
        rw [hphis, hregisters, List.nodup_append']
        exact ⟨h.single hstrict, List.nodup_singleton _, by simpa using hnew⟩

/-- So it is for the blocks of a table and any number of sites. -/
theorem accepts_foldl_mergeAt_iff (sites : List (BlockId × Register)) (blocks : Array Block) :
    (∀ block ∈ sites.foldl Placement.mergeAt blocks, check.Accepts block) ↔
      ∀ block ∈ blocks, check.Accepts block := by
  induction sites generalizing blocks with
  | nil => rfl
  | cons site sites ih =>
    rw [List.foldl_cons, ih]
    constructor
    · intro h block hblock
      obtain ⟨position, hposition⟩ := Array.mem_iff_getElem?.mp hblock
      have hentry := Placement.getElem?_mergeAt blocks site position
      rw [hposition] at hentry
      split at hentry
      · exact (accepts_merged_iff site.2).mp (h _ (Array.mem_of_getElem? hentry))
      · exact h block (Array.mem_of_getElem? hentry)
    · intro h block hblock
      obtain ⟨position, hposition⟩ := Array.mem_iff_getElem?.mp hblock
      rw [Placement.getElem?_mergeAt] at hposition
      split at hposition
      · obtain ⟨old, hold, rfl⟩ := Option.map_eq_some_iff.mp hposition
        exact (accepts_merged_iff site.2).mpr (h old (Array.mem_of_getElem? hold))
      · exact h block (Array.mem_of_getElem? hposition)

end Check

end MinimalSsa
