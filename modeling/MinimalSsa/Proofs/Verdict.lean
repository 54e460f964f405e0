import Mathlib.Data.Prod.Lex
import MinimalSsa.Proofs.Passes

/-!
# The checks name the first offence

A check goes through the blocks and through the instructions of each, and at a phi through
its rules; what it answers is about the first rule that it finds broken. So the answer is
settled by an order on offences: by block, by place, and last by rule. That the search keeps
the instructions it has passed, and stops early, does not show in it.

* `Rule`, `Rule.Broken`, `Rule.violation`: the rules for phis, told place by place, and what
  is said of a phi that breaks one.
* `Check.violation?_eq_find?`: a phi is judged by the first rule that it breaks.
* `Check.offences`, `Check.isLeast_of_phiViolation?`: the search finds the least offence.
* `Block.PhisFilled`, `Block.PhisAligned`: the blocks without offences.
* `Pass.run_check_names_first_offence`: the checks as passes.
-/

namespace MinimalSsa

/-! ## Phis by their places -/

/-- The parts of a phi. -/
structure Phi where
  dest : Register
  operands : List Operand
  sources : List BlockId
  deriving DecidableEq

/-- The parts of an instruction that is a phi. -/
def Instruction.phi? (instruction : Instruction) : Option Phi :=
  match instruction.action with
  | .phi dest operands sources => some { dest := dest, operands := operands, sources := sources }
  | _ => none

/-- Other instructions have none. -/
theorem Instruction.phi?_eq_none_iff {instruction : Instruction} :
    instruction.phi? = none ↔ instruction.isPhi = false := by
  obtain ⟨action, comment⟩ := instruction
  cases action with
  | phi dest operands sources => simp [phi?, isPhi]
  | _ => simp [phi?, isPhi]

/-- The phi at a place of a block. -/
def Block.phiAt? (block : Block) (index : Nat) : Option Phi :=
  block.instructions[index]?.bind Instruction.phi?

namespace Block

/-- No phi comes after another kind of instruction, and every phi has an operand per
source. -/
structure PhisFilled (block : Block) : Prop where
  leading : ∀ earlier later, earlier < later →
    (block.phiAt? later).isSome → (block.phiAt? earlier).isSome
  filled : ∀ index phi, block.phiAt? index = some phi →
    phi.operands.length = phi.sources.length

/-- Also, the sources of every phi are the predecessors in order, and no two phis merge one
register. -/
structure PhisAligned (block : Block) : Prop extends block.PhisFilled where
  mirrored : ∀ index phi, block.phiAt? index = some phi → phi.sources = block.preds
  single : ∀ index other phi otherPhi, block.phiAt? index = some phi →
    block.phiAt? other = some otherPhi → phi.dest = otherPhi.dest → index = other

end Block

/-- The rules for phis, in the order in which they are looked at. -/
inductive Rule where
  /-- No other instruction comes before a phi. -/
  | leading
  /-- A phi has an operand per source. -/
  | filled
  /-- Its sources are the predecessors of its block, in order. -/
  | mirrored
  /-- No phi before it merges the same register. -/
  | single
  deriving DecidableEq

namespace Rule

/-- The place of a rule in the order. -/
def rank : Rule → Nat
  | .leading => 0
  | .filled => 1
  | .mirrored => 2
  | .single => 3

theorem rank_injective : Function.Injective rank := by
  intro rule other heq
  cases rule <;> cases other <;> simp [rank] at heq ⊢

instance : LinearOrder Rule :=
  LinearOrder.lift' rank rank_injective

/-- The phi at `index` of a block breaks a rule of the check. -/
def Broken (check : Check) (block : Block) (index : Nat) (phi : Phi) : Rule → Prop
  | .leading => ∃ earlier < index, block.phiAt? earlier = none
  | .filled => phi.operands.length ≠ phi.sources.length
  | .mirrored => check = .strict ∧ phi.sources ≠ block.preds
  | .single => check = .strict ∧
      ∃ earlier < index, (block.phiAt? earlier).map Phi.dest = some phi.dest

instance (check : Check) (block : Block) (index : Nat) (phi : Phi) :
    (rule : Rule) → Decidable (rule.Broken check block index phi)
  | .leading => inferInstanceAs (Decidable (∃ earlier < index, block.phiAt? earlier = none))
  | .filled => inferInstanceAs (Decidable (phi.operands.length ≠ phi.sources.length))
  | .mirrored => inferInstanceAs (Decidable (check = .strict ∧ phi.sources ≠ block.preds))
  | .single => inferInstanceAs (Decidable (check = .strict ∧
      ∃ earlier < index, (block.phiAt? earlier).map Phi.dest = some phi.dest))

/-- What a check says about a phi that breaks a rule. -/
def violation (block : Block) (position : BlockId) (index : Nat) (phi : Phi) : Rule → Violation
  | .leading => .phiAfterNonPhi position index
  | .filled => .malformedPhi position phi.dest
      (.slotCount phi.operands.length phi.sources.length)
  | .mirrored => .malformedPhi position phi.dest (.slotOrder phi.sources block.preds)
  | .single => .malformedPhi position phi.dest .duplicate

/-- All rules in their order. -/
def all : List Rule :=
  [.leading, .filled, .mirrored, .single]

theorem mem_all (rule : Rule) : rule ∈ all := by
  cases rule <;> decide

theorem pairwise_all : all.Pairwise (· < ·) := by
  decide

/-- Of the rules with a property the first one is found. -/
theorem isLeast_of_find? {rule : Rule} {property : Rule → Bool}
    (h : all.find? property = some rule) : IsLeast {rule | property rule = true} rule := by
  obtain ⟨hrule, before, after, hsplit, hbefore⟩ := List.find?_eq_some_iff_append.mp h
  refine ⟨hrule, fun other hother => ?_⟩
  have hmem : other ∈ before ++ rule :: after := hsplit ▸ mem_all other
  have hordered : (before ++ rule :: after).Pairwise (· < ·) := hsplit ▸ pairwise_all
  rcases List.mem_append.mp hmem with hearlier | hlater
  · have hnot := hbefore other hearlier
    simp [show property other = true from hother] at hnot
  · rcases List.mem_cons.mp hlater with rfl | hlater
    · exact le_refl other
    · exact le_of_lt
        (List.rel_of_pairwise_cons (List.pairwise_append.mp hordered).2.1 hlater)

end Rule

namespace Check

variable {check : Check} {block : Block} {position : BlockId} {index : Nat} {phi : Phi}
variable {before rest : List Instruction} {instruction : Instruction} {method : Method}

/-! ## The instructions before a place -/

/-- What is asked of the phis among the first instructions of a block is asked of its first
places. -/
theorem exists_mem_take_iff (hindex : index ≤ block.instructions.length)
    (property : Option Phi → Prop) :
    (∃ instruction ∈ block.instructions.take index, property instruction.phi?) ↔
      ∃ earlier < index, property (block.phiAt? earlier) := by
  constructor
  · rintro ⟨other, hmem, hproperty⟩
    obtain ⟨earlier, hlt, rfl⟩ := List.mem_take_iff_getElem.mp hmem
    refine ⟨earlier, by omega, ?_⟩
    rwa [Block.phiAt?, List.getElem?_eq_getElem (by omega), Option.bind_some]
  · rintro ⟨earlier, hlt, hproperty⟩
    have hin : earlier < block.instructions.length := by omega
    rw [Block.phiAt?, List.getElem?_eq_getElem hin, Option.bind_some] at hproperty
    exact ⟨_, List.mem_take_iff_getElem.mpr ⟨earlier, by omega, rfl⟩, hproperty⟩

/-- A phi follows another kind of instruction if an earlier place holds no phi. -/
theorem all_isPhi_take_iff (hindex : index ≤ block.instructions.length) :
    (block.instructions.take index).all Instruction.isPhi = false ↔
      ∃ earlier < index, block.phiAt? earlier = none := by
  rw [List.all_eq_false]
  simp only [Bool.not_eq_true, ← Instruction.phi?_eq_none_iff]
  exact exists_mem_take_iff hindex (· = none)

/-- A register has been merged if an earlier place holds a phi for it. -/
theorem mem_merged_take_iff {register : Register}
    (hindex : index ≤ block.instructions.length) :
    register ∈ (Seen.after .strict (block.instructions.take index)).merged ↔
      ∃ earlier < index, (block.phiAt? earlier).map Phi.dest = some register := by
  have hdest : ∀ instruction : Instruction,
      (instruction.isPhi = true ∧ instruction.definedRegister = some register) ↔
        instruction.phi?.map Phi.dest = some register := by
    rintro ⟨action, comment⟩
    cases action with
    | phi dest operands sources => exact and_iff_right rfl
    | _ => simp [Instruction.phi?, Instruction.isPhi]
  rw [Seen.mem_merged_after]
  simp only [hdest]
  exact exists_mem_take_iff hindex fun phi => phi.map Phi.dest = some register

/-! ## One phi -/

/-- A phi among leading phis is judged by the first of the other rules that it breaks. -/
theorem defect?_eq_find? (hindex : index ≤ block.instructions.length) :
    (check.defect? block (Seen.after check (block.instructions.take index)).merged phi.dest
        phi.operands phi.sources).map (.malformedPhi position phi.dest) =
      ([Rule.filled, .mirrored, .single].find? fun rule =>
        rule.Broken check block index phi).map (Rule.violation block position index phi) := by
  have hmerged := @mem_merged_take_iff block index phi.dest hindex
  unfold defect?
  by_cases hlength : phi.operands.length = phi.sources.length
  · have hfilled : ¬ Rule.filled.Broken check block index phi := not_not.mpr hlength
    rw [if_neg (not_not.mpr hlength), List.find?_cons_of_neg (by simpa using hfilled)]
    cases check with
    | loose => simp [Rule.Broken]
    | strict =>
      by_cases hsources : phi.sources = block.preds
      · have hmirrored : ¬ Rule.mirrored.Broken .strict block index phi := fun h => h.2 hsources
        rw [List.find?_cons_of_neg (by simpa using hmirrored)]
        by_cases hsingle :
            phi.dest ∈ (Seen.after .strict (block.instructions.take index)).merged
        · have hbroken : Rule.single.Broken .strict block index phi :=
            ⟨rfl, hmerged.mp hsingle⟩
          rw [List.find?_cons_of_pos (by simpa using hbroken)]
          simp [hsources, hsingle, Rule.violation]
        · have hbroken : ¬ Rule.single.Broken .strict block index phi :=
            fun h => hsingle (hmerged.mpr h.2)
          rw [List.find?_cons_of_neg (by simpa using hbroken)]
          simp [hsources, hsingle]
      · have hmirrored : Rule.mirrored.Broken .strict block index phi := ⟨rfl, hsources⟩
        rw [List.find?_cons_of_pos (by simpa using hmirrored)]
        simp [hsources, Rule.violation]
  · have hfilled : Rule.filled.Broken check block index phi := hlength
    rw [if_pos hlength, List.find?_cons_of_pos (by simpa using hfilled)]
    rfl

/-- A phi is judged by the first rule that it breaks. -/
theorem violation?_eq_find? (hinstruction : block.instructions[index]? = some instruction)
    (hphi : instruction.phi? = some phi) :
    check.violation? block position (.after check (block.instructions.take index)) instruction =
      (Rule.all.find? fun rule => rule.Broken check block index phi).map
        (Rule.violation block position index phi) := by
  obtain ⟨hlt, -⟩ := List.getElem?_eq_some_iff.mp hinstruction
  have hall := all_isPhi_take_iff (Nat.le_of_lt hlt)
  obtain ⟨action, comment⟩ := instruction
  cases action with
  | phi dest operands sources =>
    obtain rfl := Option.some.inj hphi
    show (if (Seen.after check (block.instructions.take index)).nonPhi then _ else _) = _
    rw [Seen.nonPhi_after, Rule.all]
    cases hfirst : (block.instructions.take index).all Instruction.isPhi with
    | false =>
      have hleading : Rule.leading.Broken check block index ⟨dest, operands, sources⟩ :=
        hall.mp hfirst
      rw [List.find?_cons_of_pos (by simpa using hleading)]
      rw [Bool.not_false, if_pos rfl, Seen.count_after, List.length_take_of_le (Nat.le_of_lt hlt)]
      rfl
    | true =>
      have hleading : ¬ Rule.leading.Broken check block index ⟨dest, operands, sources⟩ :=
        fun hbroken => by simp [hall.mpr hbroken] at hfirst
      rw [List.find?_cons_of_neg (by simpa using hleading), Bool.not_true, if_neg nofun]
      exact @defect?_eq_find? check block position index ⟨dest, operands, sources⟩
        (Nat.le_of_lt hlt)
  | _ => cases hphi

/-- So it is passed if it breaks none. -/
theorem violation?_eq_none_iff_broken (hinstruction : block.instructions[index]? = some instruction)
    (hphi : instruction.phi? = some phi) :
    check.violation? block position (.after check (block.instructions.take index))
        instruction = none ↔
      ∀ rule : Rule, ¬ rule.Broken check block index phi := by
  rw [violation?_eq_find? hinstruction hphi, Option.map_eq_none_iff, List.find?_eq_none]
  simp only [decide_eq_true_eq]
  exact ⟨fun h rule => h rule (Rule.mem_all rule), fun h rule _ => h rule⟩

/-! ## The first phi -/

/-- The first answer along a list with places. -/
theorem exists_first_of_findSome? {α β : Type} {answer : α × Nat → Option β} {list : List α}
    {value : β} (h : list.zipIdx.findSome? answer = some value) :
    ∃ (index : Nat) (element : α), list[index]? = some element ∧
      answer (element, index) = some value ∧
      ∀ earlier < index, ∀ other, list[earlier]? = some other →
        answer (other, earlier) = none := by
  obtain ⟨before, ⟨element, index⟩, after, hsplit, hvalue, hbefore⟩ :=
    List.findSome?_eq_some_iff.mp h
  have hplace : list.zipIdx[before.length]? = some (element, index) := by
    rw [hsplit]
    simp
  obtain ⟨rfl, helement⟩ : before.length = index ∧ list[before.length]? = some element := by
    rw [List.getElem?_zipIdx] at hplace
    obtain ⟨found, hfound, hpair⟩ := Option.map_eq_some_iff.mp hplace
    obtain ⟨rfl, hindex⟩ := Prod.mk.inj hpair
    exact ⟨by omega, hfound⟩
  refine ⟨before.length, element, helement, hvalue, fun earlier hlt other hother => ?_⟩
  apply hbefore
  have hentry : list.zipIdx[earlier]? = some (other, earlier) := by
    simp [List.getElem?_zipIdx, hother]
  rw [hsplit, List.getElem?_append_left hlt] at hentry
  exact List.mem_of_getElem? hentry

/-- A block is searched place by place. -/
theorem firstIn_eq_findSome? (hsplit : block.instructions = before ++ rest) :
    check.firstIn block position (.after check before) rest =
      (rest.zipIdx before.length).findSome? fun (instruction, index) =>
        check.violation? block position (.after check (block.instructions.take index))
          instruction := by
  induction rest generalizing before with
  | nil => rfl
  | cons instruction rest ih =>
    have hnext : block.instructions = (before ++ [instruction]) ++ rest := by simp [hsplit]
    have htake : block.instructions.take before.length = before := by simp [hsplit]
    rw [firstIn, Seen.note_after, ih hnext, List.zipIdx_cons, List.findSome?_cons, List.length_append]
    dsimp only
    rw [htake]
    cases check.violation? block position (.after check before) instruction with
    | none => rfl
    | some violation => rfl

theorem firstIn_start (check : Check) (block : Block) (position : BlockId) :
    check.firstIn block position {} block.instructions =
      block.instructions.zipIdx.findSome? fun (instruction, index) =>
        check.violation? block position (.after check (block.instructions.take index))
          instruction :=
  firstIn_eq_findSome? (List.nil_append _).symm

/-- Nothing is found in a block exactly if no phi of it breaks a rule. -/
theorem firstIn_eq_none_iff_broken :
    check.firstIn block position {} block.instructions = none ↔
      ∀ index phi, block.phiAt? index = some phi →
        ∀ rule : Rule, ¬ rule.Broken check block index phi := by
  rw [firstIn_start, List.findSome?_eq_none_iff]
  constructor
  · intro h index phi hphi rule hbroken
    obtain ⟨instruction, hinstruction, hparts⟩ := Option.bind_eq_some_iff.mp hphi
    have hnone := h (instruction, index) (List.mem_zipIdx_iff_getElem?.mpr hinstruction)
    exact (violation?_eq_none_iff_broken hinstruction hparts).mp hnone rule hbroken
  · rintro h ⟨instruction, index⟩ hentry
    have hinstruction := List.mem_zipIdx_iff_getElem?.mp hentry
    dsimp only at hinstruction ⊢
    cases hparts : instruction.phi? with
    | none => exact violation?_of_not_isPhi (Instruction.phi?_eq_none_iff.mp hparts) _
    | some phi =>
      have hphi : block.phiAt? index = some phi := by
        rw [Block.phiAt?, hinstruction, Option.bind_some, hparts]
      exact (violation?_eq_none_iff_broken hinstruction hparts).mpr (h index phi hphi)

/-- What is found in a block is about the first place where a phi breaks a rule, and about
the first rule that it breaks. -/
theorem exists_first_of_firstIn {violation : Violation}
    (h : check.firstIn block position {} block.instructions = some violation) :
    ∃ index phi rule, block.phiAt? index = some phi ∧
      violation = Rule.violation block position index phi rule ∧
      IsLeast {rule : Rule | rule.Broken check block index phi} rule ∧
      ∀ earlier < index, ∀ other, block.phiAt? earlier = some other →
        ∀ rule : Rule, ¬ rule.Broken check block earlier other := by
  rw [firstIn_start] at h
  obtain ⟨index, instruction, hinstruction, hviolation, hearlier⟩ := exists_first_of_findSome? h
  dsimp only at hviolation hearlier
  cases hparts : instruction.phi? with
  | none =>
    rw [violation?_of_not_isPhi (Instruction.phi?_eq_none_iff.mp hparts)] at hviolation
    cases hviolation
  | some phi =>
    rw [violation?_eq_find? hinstruction hparts] at hviolation
    obtain ⟨rule, hfind, rfl⟩ := Option.map_eq_some_iff.mp hviolation
    refine ⟨index, phi, rule, ?_, rfl, ?_, ?_⟩
    · rw [Block.phiAt?, hinstruction, Option.bind_some, hparts]
    · simpa using Rule.isLeast_of_find? hfind
    · intro earlier hlt other hother rule hbroken
      obtain ⟨before, hbefore, hphi⟩ := Option.bind_eq_some_iff.mp hother
      have hnone := hearlier earlier hlt before hbefore
      exact (violation?_eq_none_iff_broken hbefore hphi).mp hnone rule hbroken

/-! ## The first block -/

/-- The rules that phis of a method break, each with the block and the place of the phi, in
this order. -/
def offences (check : Check) (method : Method) : Set (BlockId ×ₗ Nat ×ₗ Rule) :=
  {offence | ∃ position index rule block phi, offence = toLex (position, toLex (index, rule)) ∧
    method.blocks[position]? = some block ∧ block.phiAt? index = some phi ∧
    rule.Broken check block index phi}

/-- Nothing is found in a method exactly if there are no offences. -/
theorem phiViolation?_eq_none_iff_broken :
    check.phiViolation? method = none ↔
      ∀ block ∈ method.blocks, ∀ index phi, block.phiAt? index = some phi →
        ∀ rule : Rule, ¬ rule.Broken check block index phi := by
  rw [phiViolation?, List.findSome?_eq_none_iff]
  constructor
  · intro h block hblock
    obtain ⟨position, hposition⟩ := Array.mem_iff_getElem?.mp hblock
    exact firstIn_eq_none_iff_broken.mp
      (h (block, position) (Method.mem_indexedBlocks_iff.mpr hposition))
  · rintro h ⟨block, position⟩ hentry
    have hblock := Array.mem_of_getElem? (Method.mem_indexedBlocks_iff.mp hentry)
    exact firstIn_eq_none_iff_broken.mpr (h block hblock)

/-- What is found is about the first of the offences. -/
theorem isLeast_of_phiViolation? {violation : Violation}
    (h : check.phiViolation? method = some violation) :
    ∃ position index rule block phi, method.blocks[position]? = some block ∧
      block.phiAt? index = some phi ∧
      IsLeast (check.offences method) (toLex (position, toLex (index, rule))) ∧
      violation = Rule.violation block position index phi rule := by
  obtain ⟨position, block, hblock, hfirst, hbefore⟩ := exists_first_of_findSome? h
  rw [Array.getElem?_toList] at hblock
  obtain ⟨index, phi, rule, hphi, hviolation, hrule, hearlier⟩ := exists_first_of_firstIn hfirst
  refine ⟨position, index, rule, block, phi, hblock, hphi, ⟨?_, ?_⟩, hviolation⟩
  · exact ⟨position, index, rule, block, phi, rfl, hblock, hphi, hrule.1⟩
  · rintro _ ⟨position', index', rule', block', phi', rfl, hblock', hphi', hbroken⟩
    rw [Prod.Lex.toLex_le_toLex]
    rcases Nat.lt_trichotomy position position' with hlt | rfl | hgt
    · exact .inl hlt
    · obtain rfl := Option.some.inj (hblock.symm.trans hblock')
      refine .inr ⟨rfl, Prod.Lex.toLex_le_toLex.mpr ?_⟩
      rcases Nat.lt_trichotomy index index' with hlt | rfl | hgt
      · exact .inl hlt
      · obtain rfl := Option.some.inj (hphi.symm.trans hphi')
        exact .inr ⟨rfl, hrule.2 hbroken⟩
      · exact absurd hbroken (hearlier index' hgt phi' hphi' rule')
    · rw [← Array.getElem?_toList] at hblock'
      have hnone := hbefore position' hgt block' hblock'
      exact absurd hbroken (firstIn_eq_none_iff_broken.mp hnone index' phi' hphi' rule')

/-! ## Blocks without offences -/

/-- What the rules ask of the phis of a block, taken together. -/
theorem forall_not_broken_iff :
    (∀ index phi, block.phiAt? index = some phi →
      ∀ rule : Rule, ¬ rule.Broken check block index phi) ↔
        block.PhisFilled ∧ (check = .strict → block.PhisAligned) := by
  constructor
  · intro h
    have hfilled : block.PhisFilled := by
      refine ⟨fun earlier later hlt hlater => ?_, fun index phi hphi => ?_⟩
      · obtain ⟨phi, hphi⟩ := Option.isSome_iff_exists.mp hlater
        by_contra hnone
        exact h later phi hphi .leading ⟨earlier, hlt, by simpa using hnone⟩
      · exact not_not.mp (h index phi hphi .filled)
    -- of two phis for one register the later one breaks a rule
    have hsingle : check = .strict → ∀ earlier later phi other, earlier < later →
        block.phiAt? earlier = some phi → block.phiAt? later = some other →
          phi.dest ≠ other.dest := by
      intro hstrict earlier later phi other hlt hphi hother heq
      exact h later other hother .single ⟨hstrict, earlier, hlt, by simp [hphi, heq]⟩
    refine ⟨hfilled, fun hstrict => ⟨hfilled, fun index phi hphi => ?_, ?_⟩⟩
    · by_contra hne
      exact h index phi hphi .mirrored ⟨hstrict, hne⟩
    · intro index other phi otherPhi hphi hother hdest
      rcases Nat.lt_trichotomy index other with hlt | heq | hgt
      · exact absurd hdest (hsingle hstrict index other phi otherPhi hlt hphi hother)
      · exact heq
      · exact absurd hdest.symm (hsingle hstrict other index otherPhi phi hgt hother hphi)
  · rintro ⟨hfilled, haligned⟩ index phi hphi rule hbroken
    cases rule with
    | leading =>
      obtain ⟨earlier, hlt, hnone⟩ := hbroken
      have hsome := hfilled.leading earlier index hlt (by simp [hphi])
      simp [hnone] at hsome
    | filled => exact hbroken (hfilled.filled index phi hphi)
    | mirrored => exact hbroken.2 ((haligned hbroken.1).mirrored index phi hphi)
    | single =>
      obtain ⟨hstrict, earlier, hlt, hdest⟩ := hbroken
      obtain ⟨other, hother, heq⟩ := Option.map_eq_some_iff.mp hdest
      have hsame := (haligned hstrict).single earlier index other phi hother hphi heq
      omega

/-- A check passes a method with consistent edges exactly if its rules hold in every block. -/
theorem run_eq_ok_iff_blocks (hverify : method.verify = .ok ()) :
    check.run method = .ok () ↔
      ∀ block ∈ method.blocks, block.PhisFilled ∧ (check = .strict → block.PhisAligned) := by
  rw [run, hverify]
  simp only [← forall_not_broken_iff, ← phiViolation?_eq_none_iff_broken]
  cases check.phiViolation? method with
  | none => simp
  | some violation => simp

/-- Otherwise it says what is wrong with the first offence. -/
theorem exists_offence_of_run (hverify : method.verify = .ok ())
    (hrun : check.run method ≠ .ok ()) :
    ∃ position index rule block phi, method.blocks[position]? = some block ∧
      block.phiAt? index = some phi ∧
      IsLeast (check.offences method) (toLex (position, toLex (index, rule))) ∧
      check.run method = .error (Rule.violation block position index phi rule) := by
  rw [run, hverify] at hrun ⊢
  cases hviolation : check.phiViolation? method with
  | none =>
    rw [hviolation] at hrun
    exact absurd rfl hrun
  | some violation =>
    obtain ⟨position, index, rule, block, phi, hblock, hphi, hleast, rfl⟩ :=
      isLeast_of_phiViolation? hviolation
    exact ⟨position, index, rule, block, phi, hblock, hphi, hleast, rfl⟩

end Check

/-! ## The checks as passes -/

namespace Pass

variable {ε : Type} [CustomPass ε]

/-- On a method with consistent edges, the loose check as a pass accepts exactly the methods
whose phis come first and are filled, and the strict one those whose phis are aligned as
well. Any other method is rejected for its first offence: the first block, in it the first
place, and there the first of the rules. The method stays as it is. -/
theorem run_check_names_first_offence (method : Method) (hverify : method.verify = .ok ()) :
    ((run (.check .loose : Pass ε) method).2.outcome = .ok false ↔
      ∀ block ∈ method.blocks, block.PhisFilled) ∧
    ((run (.check .strict : Pass ε) method).2.outcome = .ok false ↔
      ∀ block ∈ method.blocks, block.PhisAligned) ∧
    ∀ check : Check,
      ((run (.check check : Pass ε) method).2.outcome ≠ .ok false →
        ∃ position index rule block phi, method.blocks[position]? = some block ∧
          block.phiAt? index = some phi ∧
          IsLeast (check.offences method) (toLex (position, toLex (index, rule))) ∧
          (run (.check check : Pass ε) method).2.outcome =
            .error (.violation (Rule.violation block position index phi rule))) ∧
      (run (.check check : Pass ε) method).2.method = method := by
  have hok : ∀ check : Check, (run (.check check : Pass ε) method).2.outcome = .ok false ↔
      check.run method = .ok () := fun check =>
    outcome_run_check_eq_ok_iff.trans (and_iff_left rfl)
  refine ⟨?_, ?_, fun check => ⟨fun hrejected => ?_, method_run_check check method⟩⟩
  · rw [hok, Check.run_eq_ok_iff_blocks hverify]
    simp
  · rw [hok, Check.run_eq_ok_iff_blocks hverify]
    refine forall₂_congr fun block _ => ?_
    exact ⟨fun h => h.2 rfl, fun h => ⟨h.toPhisFilled, fun _ => h⟩⟩
  · obtain ⟨position, index, rule, block, phi, hblock, hphi, hleast, herror⟩ :=
      Check.exists_offence_of_run hverify fun hrun => hrejected ((hok check).mpr hrun)
    refine ⟨position, index, rule, block, phi, hblock, hphi, hleast, ?_⟩
    show (runCheck check method).outcome = _
    rw [runCheck, herror]

/-- In block 1 the second phi lists the wrong predecessors and merges a register again, and
the last one follows a move and lacks an operand. So does the phi of block 2. -/
def untidy : Method where
  name := "untidy"
  heads := [0]
  blocks := #[
    { terminator := .branch (.boolean true) 1 1 },
    { instructions := [.phiFor 0 [0, 0], .phiFor 0 [0, 2], .assign 1 0,
        { action := .phi 2 [.register 2] [0, 0] }]
      terminator := .jump 2, preds := [0, 0] },
    { instructions := [{ action := .phi 3 [] [1] }], terminator := .ret none, preds := [1] }]

theorem run_check_names_first_offence_untidy :
    untidy.verify = .ok () ∧
      ¬ (∀ block ∈ untidy.blocks, block.PhisFilled) ∧
      IsLeast (Check.loose.offences untidy) (toLex (1, toLex (3, .leading))) ∧
      (run (.check .loose : Pass Empty) untidy).2.outcome =
        .error (.violation (.phiAfterNonPhi 1 3)) ∧
      (∃ index, IsLeast (Check.strict.offences untidy) (toLex (1, toLex (index, .mirrored)))) ∧
      (run (.check .strict : Pass Empty) untidy).2.outcome =
        .error (.violation (.malformedPhi 1 0 (.slotOrder [0, 2] [0, 0]))) := by
  have hloose : (run (.check .loose : Pass Empty) untidy).2.outcome =
      .error (.violation (.phiAfterNonPhi 1 3)) := by rfl
  have hstrict : (run (.check .strict : Pass Empty) untidy).2.outcome =
      .error (.violation (.malformedPhi 1 0 (.slotOrder [0, 2] [0, 0]))) := by rfl
  obtain ⟨haccepts, -, hrejects⟩ := @run_check_names_first_offence Empty _ untidy rfl
  obtain ⟨position, index, rule, block, phi, -, -, hleast, herror⟩ :=
    (hrejects .loose).1 (by rw [hloose]; simp)
  obtain ⟨position', index', rule', block', phi', -, -, hleast', herror'⟩ :=
    (hrejects .strict).1 (by rw [hstrict]; simp)
  rw [hloose] at herror haccepts
  rw [hstrict] at herror'
  refine ⟨rfl, fun hall => ?_, ?_, hloose, ⟨index', ?_⟩, hstrict⟩
  · cases haccepts.mpr hall
  · cases rule <;> cases herror
    exact hleast
  · cases rule' <;> simp [Rule.violation] at herror'
    rw [herror'.1]
    exact hleast'

end Pass

end MinimalSsa
