import MinimalSsa.Method

/-!
# Definition sites

Which blocks define which register. Only a register defined in at least two
blocks can ever need a merge.

* `DefinitionMap`: registers in the order in which their first definition was met,
  each with its blocks in the order in which they were met.
* `DefinitionMap.record`: note a definition; a block is noted once per register.
* `DefinitionMap.same`: equality that does not look at order.
* `Collector.collect`: the map of a method. The collector counts the instructions
  it has looked at, over all methods.
-/

namespace MinimalSsa

/-- Registers with the blocks that define them, both in order of discovery. -/
structure DefinitionMap where
  entries : List (Register × List BlockId) := []
  deriving DecidableEq, Inhabited

namespace DefinitionMap

/-- The number of registers. -/
def size (map : DefinitionMap) : Nat :=
  map.entries.length

/-- Has nothing been recorded? -/
def isEmpty (map : DefinitionMap) : Bool :=
  map.entries.isEmpty

/-- The blocks recorded for a register. -/
def blocks? (map : DefinitionMap) (register : Register) : Option (List BlockId) :=
  map.entries.lookup register

/-- Is this definition recorded? -/
def contains (map : DefinitionMap) (register : Register) (block : BlockId) : Bool :=
  match map.blocks? register with
  | some blocks => blocks.contains block
  | none => false

/-- Add a block at the end of the list of a register, which is itself added at the
end if it is new. -/
def insertInto (register : Register) (block : BlockId) :
    List (Register × List BlockId) → List (Register × List BlockId)
  | [] => [(register, [block])]
  | (known, blocks) :: rest =>
    if known = register then
      (known, if blocks.contains block then blocks else blocks ++ [block]) :: rest
    else (known, blocks) :: insertInto register block rest

/-- A block is in a list after it was added unless it was there. -/
theorem mem_insertBlock {blocks : List BlockId} {block other : BlockId} :
    other ∈ (if blocks.contains block then blocks else blocks ++ [block]) ↔
      other ∈ blocks ∨ other = block := by
  by_cases h : block ∈ blocks
  · rw [if_pos (by simpa using h)]
    exact ⟨Or.inl, fun hor => hor.elim id fun heq => heq ▸ h⟩
  · rw [if_neg (by simpa using h)]
    simp

/-- Record a definition. The answer says whether it is new. -/
def record (map : DefinitionMap) (register : Register) (block : BlockId) :
    Bool × DefinitionMap :=
  (!map.contains register block, { entries := insertInto register block map.entries })

/-- Recording adds this definition and no other. -/
theorem contains_record (map : DefinitionMap) (register other : Register)
    (block site : BlockId) :
    (map.record register block).2.contains other site = true ↔
      map.contains other site = true ∨ (other = register ∧ site = block) := by
  obtain ⟨entries⟩ := map
  simp only [contains, blocks?, record]
  induction entries with
  | nil =>
    by_cases h : other = register
    · simp [insertInto, h]
    · simp [insertInto, List.lookup_cons, beq_eq_false_iff_ne.mpr h, h]
  | cons head rest ih =>
    obtain ⟨known, blocks⟩ := head
    by_cases hknown : known = register
    · by_cases h : other = known
      · subst hknown h
        simp only [insertInto, if_true, List.lookup_cons, beq_self_eq_true, true_and]
        rw [List.contains_iff_mem, mem_insertBlock, List.contains_iff_mem]
      · have hne : ¬ other = register := hknown ▸ h
        simp [insertInto, hknown, List.lookup_cons, beq_eq_false_iff_ne.mpr hne, hne]
    · simp only [insertInto, if_neg hknown]
      by_cases h : other = known
      · have hne : ¬ other = register := h ▸ hknown
        simp [h, h ▸ hne]
      · simp only [List.lookup_cons, beq_eq_false_iff_ne.mpr h]
        exact ih

/-- The registers defined in at least two blocks. -/
def multiplyDefined (map : DefinitionMap) : List Register :=
  (map.entries.filter fun (_, blocks) => 2 ≤ blocks.length).map Prod.fst

/-- Do two lists without repetitions have the same members? -/
def sameBlocks (left right : List BlockId) : Bool :=
  left.length == right.length && left.all right.contains

/-- Do both maps hold the same definitions? -/
def same (left right : DefinitionMap) : Bool :=
  left.size == right.size && left.entries.all fun (register, blocks) =>
    match right.blocks? register with
    | some others => sameBlocks blocks others
    | none => false

end DefinitionMap

/-- Scans methods for definitions, and counts the instructions it has looked at.
Placeholders do not count. -/
structure Collector where
  scanned : Nat := 0
  deriving DecidableEq, Inhabited

namespace Collector

/-- Look at one instruction of `block`. -/
def visit (block : BlockId) (state : DefinitionMap × Collector) (instruction : Instruction) :
    DefinitionMap × Collector :=
  if instruction.isNop then state
  else
    (match instruction.definedRegister with
      | some register => (state.1.record register block).2
      | none => state.1,
     { scanned := state.2.scanned + 1 })

/-- Look at the instructions of a block in order. -/
def visitBlock (state : DefinitionMap × Collector) (entry : Block × BlockId) :
    DefinitionMap × Collector :=
  entry.1.instructions.foldl (visit entry.2) state

/-- Look at the blocks of a method in order. -/
def collect (collector : Collector) (method : Method) : DefinitionMap × Collector :=
  method.indexedBlocks.foldl visitBlock ({}, collector)

end Collector

end MinimalSsa
