import Mathlib.Data.List.Nodup
import Mathlib.Data.Set.Basic
import MinimalSsa.Definitions
import MinimalSsa.Proofs.Numbering

/-!
# What a scan of a method collects

The collector lists registers with blocks. Each register is listed once, with exactly
the blocks that define it, each of them once; so the length of a list tells in how
many blocks a register is defined.

* `Method.definers`: the blocks that define a register, read off the instructions.
* `DefinitionMap.WellFormed`: no register twice, and no block twice for a register.
* `Collector.collect_eq_recordAll`: the map of a method, from its definitions alone.
* `Collector.collect_entry`, `Collector.exists_entry`: the map against the defining
  blocks.
* `Collector.scanned_collect`: the instructions looked at are those of the method.
* `Method.definitions`, `Collector.discovers_collect`: the registers are listed in the
  order of their first definitions.
-/

namespace MinimalSsa

/-- The blocks of a method with an instruction that defines `register`. -/
def Method.definers (method : Method) (register : Register) : Set BlockId :=
  {block | ∃ found, method.blocks[block]? = some found ∧ found.defines register = true}

namespace DefinitionMap

variable {map : DefinitionMap} {register : Register} {block : BlockId}
variable {blocks : List BlockId}

/-- Every register is listed once, and for it every block once. -/
structure WellFormed (map : DefinitionMap) : Prop where
  registers : (map.entries.map Prod.fst).Nodup
  blocks : ∀ entry ∈ map.entries, entry.2.Nodup

/-- A known register keeps its place, and a new one comes last. -/
theorem map_fst_insertInto (register : Register) (block : BlockId)
    (entries : List (Register × List BlockId)) :
    (insertInto register block entries).map Prod.fst =
      if register ∈ entries.map Prod.fst then entries.map Prod.fst
      else entries.map Prod.fst ++ [register] := by
  induction entries with
  | nil => rfl
  | cons entry entries ih =>
    obtain ⟨known, blocks⟩ := entry
    simp only [insertInto, List.map_cons, List.mem_cons]
    by_cases hknown : known = register
    · have hmem : register = known ∨ register ∈ entries.map Prod.fst := .inl hknown.symm
      rw [if_pos hknown, if_pos hmem, List.map_cons]
    · rw [if_neg hknown, List.map_cons, ih]
      by_cases hmem : register ∈ entries.map Prod.fst
      · rw [if_pos hmem, if_pos (.inr hmem)]
      · rw [if_neg hmem, if_neg (not_or.mpr ⟨Ne.symm hknown, hmem⟩), List.cons_append]

theorem mem_map_fst_insertInto (register : Register) (block : BlockId)
    (entries : List (Register × List BlockId)) (other : Register) :
    other ∈ (insertInto register block entries).map Prod.fst ↔
      other ∈ entries.map Prod.fst ∨ other = register := by
  rw [map_fst_insertInto]
  split
  · next hknown => exact ⟨.inl, fun hor => hor.elim id fun heq => heq ▸ hknown⟩
  · rw [List.mem_append, List.mem_singleton]

theorem nodup_insertBlock (h : blocks.Nodup) :
    (if blocks.contains block then blocks else blocks ++ [block]).Nodup := by
  split
  · exact h
  · next hnew =>
    rw [List.contains_iff_mem] at hnew
    exact List.nodup_append'.mpr ⟨h, List.nodup_singleton _, by simpa using hnew⟩

/-- Recording keeps both. -/
theorem WellFormed.record (h : map.WellFormed) (register : Register) (block : BlockId) :
    (map.record register block).2.WellFormed := by
  obtain ⟨entries⟩ := map
  obtain ⟨hregisters, hblocks⟩ := h
  show WellFormed ⟨insertInto register block entries⟩
  induction entries with
  | nil => exact ⟨List.nodup_singleton _, by simp [insertInto]⟩
  | cons entry entries ih =>
    obtain ⟨known, blocks⟩ := entry
    obtain ⟨hnew, hrest⟩ := List.nodup_cons.mp hregisters
    obtain ⟨hfirst, hothers⟩ := List.forall_mem_cons.mp hblocks
    obtain ⟨ihRegisters, ihBlocks⟩ := ih hrest hothers
    simp only [insertInto]
    by_cases hknown : known = register
    · rw [if_pos hknown]
      refine ⟨hregisters, List.forall_mem_cons.mpr ⟨nodup_insertBlock hfirst, hothers⟩⟩
    · rw [if_neg hknown]
      refine ⟨List.nodup_cons.mpr ⟨?_, ihRegisters⟩,
        List.forall_mem_cons.mpr ⟨hfirst, ihBlocks⟩⟩
      rw [mem_map_fst_insertInto]
      exact not_or.mpr ⟨hnew, hknown⟩

/-- A listed register is found where it is listed. -/
theorem blocks?_eq_some_iff (hregisters : (map.entries.map Prod.fst).Nodup) :
    map.blocks? register = some blocks ↔ (register, blocks) ∈ map.entries := by
  obtain ⟨entries⟩ := map
  simp only [blocks?]
  induction entries with
  | nil => simp
  | cons entry entries ih =>
    obtain ⟨known, others⟩ := entry
    obtain ⟨hnew, hrest⟩ := List.nodup_cons.mp hregisters
    rw [List.lookup_cons, List.mem_cons]
    by_cases hknown : register = known
    · subst hknown
      have hnone : (register, blocks) ∉ entries := fun hmem =>
        hnew (List.mem_map.mpr ⟨_, hmem, rfl⟩)
      simp [hnone, eq_comm]
    · rw [beq_eq_false_iff_ne.mpr hknown, ih hrest]
      simp [hknown]

theorem WellFormed.mem_blocks_iff (h : map.WellFormed)
    (hentry : (register, blocks) ∈ map.entries) :
    block ∈ blocks ↔ map.contains register block = true := by
  rw [contains, (blocks?_eq_some_iff h.registers).mpr hentry]
  exact List.contains_iff_mem.symm

theorem WellFormed.exists_entry (h : map.WellFormed)
    (hcontains : map.contains register block = true) :
    ∃ blocks, (register, blocks) ∈ map.entries := by
  cases hblocks : map.blocks? register with
  | none => simp [contains, hblocks] at hcontains
  | some blocks => exact ⟨blocks, (blocks?_eq_some_iff h.registers).mp hblocks⟩

/-- Record definitions one after the other. -/
def recordAll (map : DefinitionMap) (sites : List (Register × BlockId)) : DefinitionMap :=
  sites.foldl (fun map site => (map.record site.1 site.2).2) map

theorem contains_recordAll {sites : List (Register × BlockId)} :
    (map.recordAll sites).contains register block = true ↔
      map.contains register block = true ∨ (register, block) ∈ sites := by
  induction sites generalizing map with
  | nil => simp [recordAll]
  | cons site sites ih =>
    show ((map.record site.1 site.2).2.recordAll sites).contains register block = true ↔ _
    rw [ih, contains_record, List.mem_cons, Prod.ext_iff, or_assoc]

theorem WellFormed.recordAll (h : map.WellFormed) (sites : List (Register × BlockId)) :
    (map.recordAll sites).WellFormed := by
  induction sites generalizing map with
  | nil => exact h
  | cons site sites ih => exact ih (h.record site.1 site.2)

end DefinitionMap

/-! ## A scan, definition by definition -/

/-- The registers that a block defines, in the order of its code. -/
def Block.definitions (block : Block) : List Register :=
  block.instructions.filterMap Instruction.definedRegister

/-- The registers that a method defines, in the order of its blocks and in each block in
that of the code, as often as they are defined. -/
def Method.definitions (method : Method) : List Register :=
  method.blocks.toList.flatMap Block.definitions

/-- The definitions of a method with their blocks, in the same order. -/
def Method.definitionSites (method : Method) : List (Register × BlockId) :=
  method.indexedBlocks.flatMap fun (found, block) => found.definitions.map (·, block)

theorem Block.mem_definitions_iff {block : Block} {register : Register} :
    register ∈ block.definitions ↔ block.defines register = true := by
  rw [definitions, List.mem_filterMap, defines, List.any_eq_true]
  simp only [beq_iff_eq]

/-- The definitions of a register are in the blocks that define it. -/
theorem Method.mem_definitionSites_iff {method : Method} {register : Register}
    {block : BlockId} :
    (register, block) ∈ method.definitionSites ↔ block ∈ method.definers register := by
  simp only [definitionSites, List.mem_flatMap, List.mem_map, Prod.exists, Prod.mk.injEq,
    mem_indexedBlocks_iff, Block.mem_definitions_iff]
  constructor
  · rintro ⟨found, block, hfound, register, hdefines, rfl, rfl⟩
    exact ⟨found, hfound, hdefines⟩
  · rintro ⟨found, hfound, hdefines⟩
    exact ⟨found, block, hfound, register, hdefines, rfl, rfl⟩

theorem Method.map_fst_definitionSites (method : Method) :
    method.definitionSites.map Prod.fst = method.definitions := by
  have hblock : ∀ entry : Block × BlockId,
      (entry.1.definitions.map (·, entry.2)).map Prod.fst = entry.1.definitions := by
    intro entry
    rw [List.map_map]
    exact List.map_id _
  rw [definitionSites, List.map_flatMap, definitions, indexedBlocks]
  simp only [hblock]
  rw [← List.flatMap_map Prod.fst, List.zipIdx_map_fst]

namespace Collector

variable {state : DefinitionMap × Collector} {register : Register} {site : BlockId}

theorem definedRegister_of_isNop {instruction : Instruction}
    (h : instruction.isNop = true) : instruction.definedRegister = none := by
  obtain ⟨action, comment⟩ := instruction
  cases action with
  | nop => rfl
  | _ => simp [Instruction.isNop] at h

/-- An instruction is recorded if it defines a register. -/
theorem visit_eq (block : BlockId) (instruction : Instruction) :
    (visit block state instruction).1 =
      state.1.recordAll (instruction.definedRegister.toList.map (·, block)) := by
  rw [visit]
  split
  · next hnop =>
    rw [definedRegister_of_isNop hnop]
    rfl
  · cases instruction.definedRegister <;> rfl

/-- A block is a sequence of definitions. -/
theorem visitBlock_eq (entry : Block × BlockId) :
    (visitBlock state entry).1 =
      state.1.recordAll (entry.1.definitions.map (·, entry.2)) := by
  rw [visitBlock, Block.definitions]
  induction entry.1.instructions generalizing state with
  | nil => rfl
  | cons instruction instructions ih =>
    rw [List.foldl_cons, ih, visit_eq, List.filterMap_cons]
    cases instruction.definedRegister <;> rfl

/-- So is a method: nothing else shows in its map. -/
theorem collect_eq_recordAll (collector : Collector) (method : Method) :
    (collector.collect method).1 = DefinitionMap.recordAll {} method.definitionSites := by
  suffices h : ∀ (entries : List (Block × BlockId)) (state : DefinitionMap × Collector),
      (entries.foldl visitBlock state).1 = state.1.recordAll
        (entries.flatMap fun (found, block) => found.definitions.map (·, block)) from
    h method.indexedBlocks ({}, collector)
  intro entries
  induction entries with
  | nil => exact fun _ => rfl
  | cons entry entries ih =>
    intro state
    rw [List.foldl_cons, ih, visitBlock_eq, List.flatMap_cons]
    exact (List.foldl_append ..).symm

/-- The map of a method holds its definitions and nothing else. -/
theorem contains_collect (collector : Collector) (method : Method) :
    (collector.collect method).1.contains register site = true ↔
      site ∈ method.definers register := by
  rw [collect_eq_recordAll, DefinitionMap.contains_recordAll, Method.mem_definitionSites_iff]
  exact or_iff_right Bool.false_ne_true

theorem wellFormed_collect (collector : Collector) (method : Method) :
    (collector.collect method).1.WellFormed := by
  have hempty : ({} : DefinitionMap).WellFormed := ⟨List.nodup_nil, by simp⟩
  rw [collect_eq_recordAll]
  exact hempty.recordAll method.definitionSites

/-- A register is listed with its defining blocks. -/
theorem collect_entry {collector : Collector} {method : Method} {blocks : List BlockId}
    (hentry : (register, blocks) ∈ (collector.collect method).1.entries) :
    {block | block ∈ blocks} = method.definers register := by
  ext block
  rw [← contains_collect collector method]
  exact (wellFormed_collect collector method).mem_blocks_iff hentry

/-- A register that some block defines is listed. -/
theorem exists_entry (collector : Collector) {method : Method}
    (hsite : site ∈ method.definers register) :
    ∃ blocks, (register, blocks) ∈ (collector.collect method).1.entries :=
  (wellFormed_collect collector method).exists_entry
    ((contains_collect collector method).mpr hsite)

/-- A block adds its instructions to the count, placeholders aside. -/
theorem scanned_visitBlock (state : DefinitionMap × Collector) (entry : Block × BlockId) :
    (visitBlock state entry).2.scanned = state.2.scanned + entry.1.instructionCount := by
  rw [visitBlock, Block.instructionCount]
  induction entry.1.instructions generalizing state with
  | nil => rfl
  | cons instruction instructions ih =>
    rw [List.foldl_cons, ih, visit, List.countP_cons]
    cases instruction.isNop with
    | true => simp
    | false =>
      simp only [Bool.false_eq_true, if_false, Bool.not_false, if_true]
      omega

/-- A method adds all of its instructions. -/
theorem scanned_collect (collector : Collector) (method : Method) :
    (collector.collect method).2.scanned = collector.scanned + method.instructionCount := by
  suffices h : ∀ (blocks : List Block) (first : Nat) (state : DefinitionMap × Collector),
      ((blocks.zipIdx first).foldl visitBlock state).2.scanned =
        state.2.scanned + blocks.foldr (fun block total => block.instructionCount + total) 0 from
    h method.blocks.toList 0 ({}, collector)
  intro blocks
  induction blocks with
  | nil => exact fun first state => rfl
  | cons block blocks ih =>
    intro first state
    rw [List.zipIdx_cons, List.foldl_cons, ih, scanned_visitBlock, List.foldr_cons,
      Nat.add_assoc]

end Collector

/-! ## The order of discovery -/

namespace DefinitionMap

variable {map : DefinitionMap} {done : List Register}

/-- The recorded registers in the order of their discovery. -/
def registers (map : DefinitionMap) : List Register :=
  map.entries.map Prod.fst

/-- The map lists the registers of `done`, in the order of their first definitions. -/
structure Discovers (map : DefinitionMap) (done : List Register) : Prop where
  along : Along done map.registers
  complete : ∀ register ∈ done, register ∈ map.registers

/-- Recording a definition discovers its register, unless it is known. -/
theorem Discovers.record (h : map.Discovers done) (register : Register) (block : BlockId) :
    (map.record register block).2.Discovers (done ++ [register]) := by
  have hregisters : (map.record register block).2.registers =
      if register ∈ map.registers then map.registers else map.registers ++ [register] :=
    map_fst_insertInto register block map.entries
  by_cases hknown : register ∈ map.registers
  · rw [if_pos hknown] at hregisters
    refine ⟨hregisters ▸ h.along.append_right [register], fun other hother => ?_⟩
    rw [hregisters]
    rcases List.mem_append.mp hother with hother | hother
    · exact h.complete other hother
    · rwa [List.mem_singleton.mp hother]
  · rw [if_neg hknown] at hregisters
    have hnew : register ∉ done := fun hmem => hknown (h.complete register hmem)
    refine ⟨hregisters ▸ h.along.concat hnew, fun other hother => ?_⟩
    rw [hregisters]
    rcases List.mem_append.mp hother with hother | hother
    · exact List.mem_append_left _ (h.complete other hother)
    · exact List.mem_append_right _ hother

theorem Discovers.recordAll (h : map.Discovers done) (sites : List (Register × BlockId)) :
    (map.recordAll sites).Discovers (done ++ sites.map Prod.fst) := by
  induction sites generalizing map done with
  | nil =>
    rw [List.map_nil, List.append_nil]
    exact h
  | cons site sites ih =>
    rw [List.map_cons, List.append_cons]
    exact ih (h.record site.1 site.2)

end DefinitionMap

/-- A scan lists the registers of a method in the order of their first definitions. -/
theorem Collector.discovers_collect (collector : Collector) (method : Method) :
    (collector.collect method).1.Discovers method.definitions := by
  have hempty : ({} : DefinitionMap).Discovers [] := ⟨⟨nofun, .nil, .nil⟩, nofun⟩
  rw [collect_eq_recordAll, ← method.map_fst_definitionSites]
  exact hempty.recordAll method.definitionSites

end MinimalSsa
