import Mathlib.Data.Prod.Lex
import MinimalSsa.Proofs.Layout

/-!
# The collected definitions, place by place

A scan goes through the blocks of a method and through the code of each block, so the
places it visits come in lexicographic order: block first, then line. What it collects is
determined by the definitions it meets on the way and by nothing else. That fixes both
orders of the map, that of the registers and that of the blocks of each register, and it
shows what placement adds: the new phis are definitions like any other.

* `Method.definedAt`: the places at which a register is defined.
* `DefinitionMap.Lists`: the map against those places, with both orders.
* `Method.phisFor`: the phis of a register in a block, counted.
* `Collector.collect_lists_definitions`: all of it, before and after placement.
-/

namespace MinimalSsa

/-! ## Places -/

namespace Method

variable {method : Method} {register : Register} {block : BlockId}

/-- The places at which a method defines `register`, as block and line, in the order in
which the code is read. -/
def definedAt (method : Method) (register : Register) : Set (BlockId ×ₗ Nat) :=
  {place | ∃ found instruction, method.blocks[(ofLex place).1]? = some found ∧
    found.instructions[(ofLex place).2]? = some instruction ∧
    instruction.definedRegister = some register}

/-- A block defines a register at one of its lines. -/
theorem mem_definers_iff_definedAt :
    block ∈ method.definers register ↔ ∃ line, toLex (block, line) ∈ method.definedAt register := by
  constructor
  · rintro ⟨found, hfound, hdefines⟩
    obtain ⟨instruction, hmem, hdefined⟩ := List.any_eq_true.mp hdefines
    obtain ⟨line, hline⟩ := List.mem_iff_getElem?.mp hmem
    exact ⟨line, found, instruction, hfound, hline, beq_iff_eq.mp hdefined⟩
  · rintro ⟨line, found, instruction, hfound, hline, hdefined⟩
    refine ⟨found, hfound, List.any_eq_true.mpr ⟨instruction, ?_, beq_iff_eq.mpr hdefined⟩⟩
    exact List.mem_of_getElem? hline

/-- All definitions of a method with their places, in the order of a scan. -/
def places (method : Method) : List ((BlockId ×ₗ Nat) × Register) :=
  method.indexedBlocks.flatMap fun (found, block) =>
    found.instructions.zipIdx.filterMap fun (instruction, line) =>
      instruction.definedRegister.map (toLex (block, line), ·)

theorem mem_places_iff {place : BlockId ×ₗ Nat} :
    (place, register) ∈ method.places ↔ place ∈ method.definedAt register := by
  simp only [places, List.mem_flatMap, List.mem_filterMap, Option.map_eq_some_iff, Prod.exists,
    mem_indexedBlocks_iff, List.mem_zipIdx_iff_getElem?, Prod.mk.injEq]
  constructor
  · rintro ⟨found, block, hfound, instruction, line, hline, defined, hdefined, rfl, rfl⟩
    exact ⟨found, instruction, hfound, hline, hdefined⟩
  · rintro ⟨found, instruction, hfound, hline, hdefined⟩
    exact ⟨found, _, hfound, instruction, _, hline, register, hdefined, rfl, rfl⟩

/-- Without their places they are the definitions. -/
theorem map_snd_places (method : Method) : method.places.map Prod.snd = method.definitions := by
  have hblock : ∀ entry : Block × BlockId,
      (entry.1.instructions.zipIdx.filterMap fun (instruction, line) =>
        instruction.definedRegister.map (toLex (entry.2, line), ·)).map Prod.snd =
      entry.1.definitions := by
    intro entry
    have hline : (fun line : Instruction × Nat => Option.map Prod.snd
        (line.1.definedRegister.map fun register => (toLex (entry.2, line.2), register))) =
        Instruction.definedRegister ∘ Prod.fst := by
      funext line
      simp [Option.map_map, Function.comp_def]
    rw [List.map_filterMap, hline, ← List.filterMap_map, List.zipIdx_map_fst, Block.definitions]
  rw [places, List.map_flatMap, definitions, indexedBlocks]
  simp only [hblock]
  rw [← List.flatMap_map Prod.fst, List.zipIdx_map_fst]

/-- Positions ascend in a numbered list. -/
theorem pairwise_zipIdx {α : Type} (list : List α) :
    list.zipIdx.Pairwise fun first second => first.2 < second.2 := by
  rw [← List.pairwise_map (f := Prod.snd), List.zipIdx_map_snd]
  exact List.pairwise_lt_range'

/-- A scan never goes back. -/
theorem pairwise_places (method : Method) :
    method.places.Pairwise fun first second => first.1 < second.1 := by
  refine List.pairwise_flatMap.mpr ⟨fun entry _ => ?_, ?_⟩
  · -- two lines of one block
    refine List.pairwise_filterMap.mpr ((pairwise_zipIdx _).imp fun hlt => ?_)
    intro first hfirst second hsecond
    obtain ⟨_, -, rfl⟩ := Option.map_eq_some_iff.mp hfirst
    obtain ⟨_, -, rfl⟩ := Option.map_eq_some_iff.mp hsecond
    exact Prod.Lex.toLex_lt_toLex.mpr (.inr ⟨rfl, hlt⟩)
  · -- two blocks
    refine (pairwise_zipIdx _).imp fun hlt => ?_
    intro first hfirst second hsecond
    obtain ⟨line, -, hfirst⟩ := List.mem_filterMap.mp hfirst
    obtain ⟨later, -, hsecond⟩ := List.mem_filterMap.mp hsecond
    obtain ⟨_, -, rfl⟩ := Option.map_eq_some_iff.mp hfirst
    obtain ⟨_, -, rfl⟩ := Option.map_eq_some_iff.mp hsecond
    exact Prod.Lex.toLex_lt_toLex.mpr (.inl hlt)

/-- The first of the definitions of a register is at the least of its places. -/
theorem isLeast_definedAt (h : method.definitions.idxOf register < method.places.length) :
    IsLeast (method.definedAt register)
      (method.places[method.definitions.idxOf register]).1 := by
  have hdefinitions : ∀ {line : Nat} (hline : line < method.places.length),
      method.definitions[line]? = some (method.places[line]).2 := by
    intro line hline
    rw [← map_snd_places, List.getElem?_map, List.getElem?_eq_getElem hline, Option.map_some]
  have hmem : register ∈ method.definitions := by
    rw [← List.idxOf_lt_length_iff, ← map_snd_places, List.length_map, map_snd_places]
    exact h
  have hself : (method.places[method.definitions.idxOf register]).2 = register := by
    have hfirst := hdefinitions h
    rw [List.getElem?_eq_getElem (List.idxOf_lt_length_of_mem hmem), List.getElem_idxOf] at hfirst
    exact (Option.some.inj hfirst).symm
  constructor
  · rw [← mem_places_iff]
    nth_rewrite 2 [← hself]
    exact List.getElem_mem h
  · intro place hplace
    obtain ⟨line, hline, heq⟩ := List.mem_iff_getElem.mp (mem_places_iff.mpr hplace)
    -- no earlier line of the list defines the register
    have hle : method.definitions.idxOf register ≤ line := by
      have hlater := hdefinitions hline
      rw [heq] at hlater
      obtain ⟨hlt, hget⟩ := List.getElem?_eq_some_iff.mp hlater
      by_contra hearly
      have hother := List.not_of_lt_findIdx (Nat.lt_of_not_le hearly)
      simp [hget] at hother
    rcases Nat.eq_or_lt_of_le hle with rfl | hlt
    · exact le_of_eq (congrArg Prod.fst heq)
    · have hbefore := List.pairwise_iff_getElem.mp method.pairwise_places _ _ h hline hlt
      rw [heq] at hbefore
      exact le_of_lt hbefore

end Method

/-! ## The order of the blocks -/

/-- The blocks of the definitions never go back. -/
theorem Method.pairwise_definitionSites (method : Method) :
    method.definitionSites.Pairwise fun first second => first.2 ≤ second.2 := by
  refine List.pairwise_flatMap.mpr ⟨fun entry _ => ?_, ?_⟩
  · exact List.pairwise_map.mpr (List.pairwise_of_forall fun _ _ => Nat.le_refl entry.2)
  · refine (Method.pairwise_zipIdx _).imp fun hlt first hfirst second hsecond => ?_
    obtain ⟨_, -, rfl⟩ := List.mem_map.mp hfirst
    obtain ⟨_, -, rfl⟩ := List.mem_map.mp hsecond
    exact Nat.le_of_lt hlt

namespace DefinitionMap

variable {map : DefinitionMap} {bound block : BlockId}

/-- Every register has its blocks in ascending order, none of them after `bound`. -/
def AscendingUpTo (map : DefinitionMap) (bound : BlockId) : Prop :=
  ∀ entry ∈ map.entries, entry.2.Pairwise (· < ·) ∧ ∀ block ∈ entry.2, block ≤ bound

theorem AscendingUpTo.record (h : map.AscendingUpTo bound) (register : Register)
    (hle : bound ≤ block) : (map.record register block).2.AscendingUpTo block := by
  obtain ⟨entries⟩ := map
  show AscendingUpTo ⟨insertInto register block entries⟩ block
  induction entries with
  | nil => simp [insertInto, AscendingUpTo]
  | cons entry entries ih =>
    obtain ⟨known, blocks⟩ := entry
    obtain ⟨⟨hsorted, hbound⟩, hrest⟩ := List.forall_mem_cons.mp h
    have hup : ∀ other ∈ blocks, other ≤ block := fun other hother =>
      (hbound other hother).trans hle
    have hothers : ∀ entry ∈ entries, entry.2.Pairwise (· < ·) ∧
        ∀ other ∈ entry.2, other ≤ block := fun entry hentry =>
      ⟨(hrest entry hentry).1, fun other hother => ((hrest entry hentry).2 other hother).trans hle⟩
    simp only [insertInto]
    split
    · refine List.forall_mem_cons.mpr ⟨?_, hothers⟩
      split
      · exact ⟨hsorted, hup⟩
      · next hnew =>
        rw [List.contains_iff_mem] at hnew
        refine ⟨List.pairwise_append.mpr ⟨hsorted, List.pairwise_singleton _ _, ?_⟩, ?_⟩
        · intro other hother last hlast
          rw [List.mem_singleton.mp hlast]
          exact Nat.lt_of_le_of_ne (hup other hother) fun heq => hnew (heq ▸ hother)
        · intro other hother
          rcases List.mem_append.mp hother with hother | hother
          · exact hup other hother
          · exact Nat.le_of_eq (List.mem_singleton.mp hother)
    · exact List.forall_mem_cons.mpr ⟨⟨hsorted, hup⟩, ih hrest⟩

/-- Definitions whose blocks never go back are recorded in ascending order. -/
theorem AscendingUpTo.recordAll {sites : List (Register × BlockId)}
    (h : map.AscendingUpTo bound) (hsorted : sites.Pairwise fun first second => first.2 ≤ second.2)
    (hbound : ∀ site ∈ sites, bound ≤ site.2) :
    ∃ last, (map.recordAll sites).AscendingUpTo last := by
  induction sites generalizing map bound with
  | nil => exact ⟨bound, h⟩
  | cons site sites ih =>
    obtain ⟨hlater, hrest⟩ := List.pairwise_cons.mp hsorted
    exact ih (h.record site.1 (hbound site List.mem_cons_self)) hrest hlater

/-- The map of a method: its registers are those the method defines, in the order of their
first definitions, and each has exactly the blocks that define it, in ascending order. -/
structure Lists (map : DefinitionMap) (method : Method) : Prop where
  nodup : map.registers.Nodup
  mem_registers_iff : ∀ register,
    register ∈ map.registers ↔ (method.definedAt register).Nonempty
  ordered : map.registers.Pairwise fun a b => ∃ first second,
    IsLeast (method.definedAt a) first ∧ IsLeast (method.definedAt b) second ∧ first < second
  isSome_blocks?_iff : ∀ register, (map.blocks? register).isSome ↔ register ∈ map.registers
  ascending : ∀ register blocks, map.blocks? register = some blocks → blocks.Pairwise (· < ·)
  mem_blocks_iff : ∀ register blocks, map.blocks? register = some blocks →
    ∀ block, block ∈ blocks ↔ ∃ line, toLex (block, line) ∈ method.definedAt register

end DefinitionMap

namespace Collector

variable (collector : Collector) (method : Method)

/-- Registers come in the order of their least places. -/
theorem ordered_collect : (collector.collect method).1.registers.Pairwise fun a b =>
    ∃ first second, IsLeast (method.definedAt a) first ∧ IsLeast (method.definedAt b) second ∧
      first < second := by
  have halong := (discovers_collect collector method).along
  have hlength : method.places.length = method.definitions.length := by
    rw [← Method.map_snd_places, List.length_map]
  refine halong.ascending.imp_of_mem fun ha hb hlt => ?_
  have hfirst := hlength ▸ List.idxOf_lt_length_of_mem (halong.mem _ ha)
  have hsecond := hlength ▸ List.idxOf_lt_length_of_mem (halong.mem _ hb)
  exact ⟨_, _, Method.isLeast_definedAt hfirst, Method.isLeast_definedAt hsecond,
    List.pairwise_iff_getElem.mp method.pairwise_places _ _ hfirst hsecond hlt⟩

/-- A scan lists the definitions of a method. -/
theorem lists_collect : (collector.collect method).1.Lists method := by
  have hdiscovers := discovers_collect collector method
  have hwell := wellFormed_collect collector method
  constructor
  case nodup => exact hdiscovers.along.nodup
  case mem_registers_iff =>
    intro register
    have hlisted : register ∈ (collector.collect method).1.registers ↔
        register ∈ method.definitions :=
      ⟨hdiscovers.along.mem register, hdiscovers.complete register⟩
    rw [hlisted, ← Method.map_snd_places, List.mem_map]
    constructor
    · rintro ⟨⟨place, _⟩, hmem, rfl⟩
      exact ⟨place, Method.mem_places_iff.mp hmem⟩
    · rintro ⟨place, hplace⟩
      exact ⟨(place, register), Method.mem_places_iff.mpr hplace, rfl⟩
  case ordered => exact ordered_collect collector method
  case isSome_blocks?_iff =>
    intro register
    rw [Option.isSome_iff_exists]
    simp only [DefinitionMap.blocks?_eq_some_iff hwell.registers, DefinitionMap.registers,
      List.mem_map, Prod.exists, exists_and_right, exists_eq_right]
  case ascending =>
    intro register blocks hblocks
    have hstart : ({} : DefinitionMap).AscendingUpTo 0 := by simp [DefinitionMap.AscendingUpTo]
    obtain ⟨last, hlast⟩ := hstart.recordAll method.pairwise_definitionSites
      fun site _ => Nat.zero_le site.2
    rw [← collect_eq_recordAll collector] at hlast
    exact (hlast _ ((DefinitionMap.blocks?_eq_some_iff hwell.registers).mp hblocks)).1
  case mem_blocks_iff =>
    intro register blocks hblocks block
    rw [hwell.mem_blocks_iff ((DefinitionMap.blocks?_eq_some_iff hwell.registers).mp hblocks),
      contains_collect, Method.mem_definers_iff_definedAt]

end Collector

/-! ## Instructions without a register -/

/-- A store, a call without result, or an instruction that writes a machine register, a
constant or a memory cell. -/
def Instruction.SparesRegisters (instruction : Instruction) : Prop :=
  (∃ address value, instruction.action = .store address value) ∨
  (∃ callee arguments, instruction.action = .call none callee arguments) ∨
  ∃ dest, instruction.result = some dest ∧
    (dest.isMachine = true ∨ dest.isLiteral = true ∨ dest.isMemory = true)

theorem Instruction.SparesRegisters.definedRegister_eq_none {instruction : Instruction}
    (h : instruction.SparesRegisters) : instruction.definedRegister = none := by
  rcases h with ⟨address, value, haction⟩ | ⟨callee, arguments, haction⟩ | ⟨dest, hresult, hdest⟩
  · simp [definedRegister, result, haction]
  · simp [definedRegister, result, haction]
  · rw [definedRegister, hresult, Option.bind_some]
    cases dest with
    | register id => simp [Operand.isMachine, Operand.isLiteral, Operand.isMemory] at hdest
    | machine | literal | memory => rfl

namespace Method

/-- The method without the instructions that `drop` picks. -/
def without (method : Method) (drop : Instruction → Bool) : Method :=
  { method with
    blocks := method.blocks.map fun found =>
      { found with instructions := found.instructions.filter (!drop ·) } }

/-- What defines no register may be dropped. -/
theorem definitionSites_without (method : Method) {drop : Instruction → Bool}
    (hdrop : ∀ instruction, drop instruction = true → instruction.definedRegister = none) :
    (method.without drop).definitionSites = method.definitionSites := by
  have hblock : ∀ found : Block,
      Block.definitions { found with instructions := found.instructions.filter (!drop ·) } =
        found.definitions := by
    intro found
    show (found.instructions.filter (!drop ·)).filterMap _ = found.instructions.filterMap _
    rw [List.filterMap_filter]
    refine List.filterMap_congr fun instruction _ => ?_
    cases hkeep : drop instruction with
    | false => rfl
    | true => exact (hdrop instruction hkeep).symm
  simp only [definitionSites, indexedBlocks, without, Array.toList_map, List.zipIdx_map,
    List.flatMap_map, Prod.map_fst, Prod.map_snd, id_eq, hblock]

end Method

/-! ## After placement -/

namespace Block

variable {block : Block} {register : Register} {registers : List Register}

/-- The number of phis for `register`, wherever they stand. -/
def phisFor (block : Block) (register : Register) : Nat :=
  block.instructions.countP fun instruction =>
    instruction.isPhi && instruction.definedRegister == some register

/-- A block with new phis has as many more as are for the register. -/
theorem phisFor_withPhis (block : Block) (registers : List Register) (register : Register) :
    (block.withPhis registers).phisFor register =
      block.phisFor register + registers.count register := by
  have hnew : (registers.map fun other => Instruction.phiFor other block.preds).countP
      (fun instruction => instruction.isPhi && instruction.definedRegister == some register) =
        registers.count register := by
    rw [List.countP_map]
    rfl
  have hold := congrArg (List.countP fun instruction =>
    instruction.isPhi && instruction.definedRegister == some register) block.phis_append_body
  rw [List.countP_append] at hold
  simp only [phisFor, withPhis]
  rw [List.countP_append, List.countP_append, hnew, ← hold]
  omega

theorem defines_withPhis_iff :
    (block.withPhis registers).defines register = true ↔
      block.defines register = true ∨ register ∈ registers := by
  have hold := congrArg (List.any · fun instruction =>
    instruction.definedRegister == some register) block.phis_append_body
  simp only [List.any_append] at hold
  simp only [defines, withPhis, List.any_append, List.any_map, ← hold, Bool.or_eq_true]
  have hnew : registers.any ((fun instruction => instruction.definedRegister == some register) ∘
      fun other => Instruction.phiFor other block.preds) = true ↔ register ∈ registers := by
    simp [List.any_eq_true]
  rw [hnew]
  tauto

end Block

/-- The number of phis for `register` in a block. -/
def Method.phisFor (method : Method) (register : Register) (block : BlockId) : Nat :=
  (method.blocks[block]?.map (·.phisFor register)).getD 0

namespace Placement

variable {stats : Stats} {method : Method} {out : Outcome}

/-- A run gives each block its new phis, all of them for registers that are defined. -/
theorem exists_withPhis_of_run (hrun : run stats method = .ok out) :
    ∃ new : BlockId → List Register,
      (∀ block : BlockId, out.method.blocks[block]? =
        method.blocks[block]?.map (·.withPhis (new block))) ∧
      ∀ block, ∀ register ∈ new block,
        register ∈ (({} : Collector).collect method).1.registers := by
  obtain ⟨sites, hmethod, -, hsub, -⟩ := exists_selected_of_run hrun
  have hnodup := (Collector.discovers_collect {} method).along.nodup
  refine ⟨newAt method.blocks sites, fun block => ?_, fun block register hmem => ?_⟩
  · rw [hmethod, foldl_mergeAt_eq_mapIdx method.blocks fun block => hnodup.sublist (hsub block),
      Array.getElem?_mapIdx]
  · exact (hsub block).subset (List.mem_filter.mp hmem).1

/-- The blocks that define a register afterwards are those that did and those that have got
a phi for it. -/
theorem definers_of_run (hrun : run stats method = .ok out) (register : Register) :
    out.method.definers register = method.definers register ∪
      {block | method.phisFor register block < out.method.phisFor register block} := by
  obtain ⟨new, hblocks, -⟩ := exists_withPhis_of_run hrun
  ext block
  rw [Set.mem_union, Set.mem_ofPred_eq]
  simp only [Method.definers, Method.phisFor, Set.mem_ofPred_eq, hblocks]
  cases method.blocks[block]? with
  | none => simp
  | some found =>
    have hcount : 0 < (new block).count register ↔ register ∈ new block := List.count_pos_iff
    simp [Block.defines_withPhis_iff, Block.phisFor_withPhis, hcount]

/-- No register gets its first definition from a run. -/
theorem definers_nonempty_iff_of_run (hrun : run stats method = .ok out) (register : Register) :
    (out.method.definers register).Nonempty ↔ (method.definers register).Nonempty := by
  obtain ⟨new, hblocks, hnew⟩ := exists_withPhis_of_run hrun
  constructor
  · rintro ⟨block, found, hfound, hdefines⟩
    rw [hblocks] at hfound
    obtain ⟨before, hbefore, rfl⟩ := Option.map_eq_some_iff.mp hfound
    rcases Block.defines_withPhis_iff.mp hdefines with hdefines | hmem
    · exact ⟨block, before, hbefore, hdefines⟩
    · have hlisted := (Collector.lists_collect {} method).mem_registers_iff register
      obtain ⟨place, hplace⟩ := hlisted.mp (hnew block register hmem)
      exact ⟨(ofLex place).1, Method.mem_definers_iff_definedAt.mpr ⟨(ofLex place).2, hplace⟩⟩
  · rw [definers_of_run hrun]
    exact fun ⟨block, hblock⟩ => ⟨block, .inl hblock⟩

end Placement

namespace Collector

/-- A scan collects the definitions of a method, all of them and in order, and nothing from
instructions that write no register; it counts the instructions it looks at. Placement adds
the blocks that get a new phi to those of the register, and makes no register known. -/
theorem collect_lists_definitions (collector : Collector) (method : Method) :
    (collector.collect method).1.Lists method ∧
    (∀ drop : Instruction → Bool,
      (∀ instruction, drop instruction = true → instruction.SparesRegisters) →
        (collector.collect (method.without drop)).1 = (collector.collect method).1) ∧
    (collector.collect method).2.scanned = collector.scanned + method.instructionCount ∧
    ∀ stats out, Placement.run stats method = .ok out → ∀ register,
      {block | (collector.collect out.method).1.contains register block = true} =
        {block | (collector.collect method).1.contains register block = true} ∪
          {block | method.phisFor register block < out.method.phisFor register block} ∧
      (register ∈ (collector.collect out.method).1.registers ↔
        register ∈ (collector.collect method).1.registers) := by
  refine ⟨lists_collect collector method, fun drop hdrop => ?_, scanned_collect collector method,
    fun stats out hrun register => ⟨?_, ?_⟩⟩
  · rw [collect_eq_recordAll, collect_eq_recordAll,
      method.definitionSites_without fun instruction h =>
        (hdrop instruction h).definedRegister_eq_none]
  · simp only [contains_collect, Set.ofPred_mem_eq]
    exact Placement.definers_of_run hrun register
  · have hlisted : ∀ after : Method, register ∈ (collector.collect after).1.registers ↔
        (after.definers register).Nonempty := by
      intro after
      rw [(lists_collect collector after).mem_registers_iff]
      constructor
      · rintro ⟨place, hplace⟩
        exact ⟨_, Method.mem_definers_iff_definedAt.mpr ⟨(ofLex place).2, hplace⟩⟩
      · rintro ⟨block, hblock⟩
        obtain ⟨line, hline⟩ := Method.mem_definers_iff_definedAt.mp hblock
        exact ⟨_, hline⟩
    rw [hlisted, hlisted]
    exact Placement.definers_nonempty_iff_of_run hrun register

/-- Register 7 is defined on both sides of a branch, on one of them twice, and register 4
before the branch and after it. The other instructions write no register. -/
def mixedWrites : Method where
  name := "mixed"
  heads := [0]
  blocks := #[
    { instructions := [{ action := .nop }, { action := .store (.register 9) (.register 8) },
        .assign 4 0, { action := .call none 2 [.register 6] }],
      terminator := .branch (.boolean true) 1 2 },
    { instructions := [.assign 7 0, { action := .move (.machine 3) (.register 7) }, .assign 7 1],
      terminator := .jump 3, preds := [0] },
    { instructions := [.assign 7 2, { action := .load (.memory 5 (-1)) (.register 7) }],
      terminator := .jump 3, preds := [0] },
    { instructions := [.assign 4 1], terminator := .ret none, preds := [1, 2] }]

theorem collect_lists_definitions_mixedWrites :
    (({ scanned := 3 } : Collector).collect mixedWrites).1.Lists mixedWrites ∧
      (({ scanned := 3 } : Collector).collect mixedWrites).2.scanned = 3 + 9 ∧
      (({} : Collector).collect (mixedWrites.without fun instruction =>
        match instruction.action with
        | .store _ _ => true
        | .load (.memory _ _) _ => true
        | _ => false)).1 = (({} : Collector).collect mixedWrites).1 ∧
      ∃ out, Placement.run {} mixedWrites = .ok out ∧ out.method.phisFor 7 3 = 1 ∧
        (({} : Collector).collect mixedWrites).1.contains 7 3 = false ∧
        (({} : Collector).collect out.method).1.contains 7 3 = true := by
  obtain ⟨hlists, -, hscanned, -⟩ := collect_lists_definitions { scanned := 3 } mixedWrites
  obtain ⟨-, hdrop, -, hplaced⟩ := collect_lists_definitions {} mixedWrites
  have hphis : (Placement.run {} mixedWrites).map (·.method.phisFor 7 3) = .ok 1 := by decide +kernel
  obtain ⟨out, hrun, hphis⟩ := Except.exists_ok_of_map hphis
  refine ⟨hlists, hscanned, hdrop _ ?_, out, hrun, hphis, by decide +kernel, ?_⟩
  · rintro ⟨action, comment⟩ hpicked
    cases action with
    | store address value => exact .inl ⟨address, value, rfl⟩
    | load dest address =>
      cases dest with
      | memory base offset => exact .inr (.inr ⟨.memory base offset, rfl, .inr (.inr rfl)⟩)
      | register | machine | literal => cases hpicked
    | nop | move | binary | call | phi => cases hpicked
  · have hnew : 3 ∈ {block | mixedWrites.phisFor 7 block < out.method.phisFor 7 block} := by
      show mixedWrites.phisFor 7 3 < out.method.phisFor 7 3
      rw [hphis]
      decide +kernel
    exact (Set.ext_iff.mp (hplaced {} out hrun 7).1 3).mpr (.inr hnew)

end Collector

end MinimalSsa
