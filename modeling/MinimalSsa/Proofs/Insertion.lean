import MinimalSsa.Placement
import MinimalSsa.Proofs.Definitions
import MinimalSsa.Proofs.Sites

/-!
# What insertion does to a method

Inserting phis at a list of sites changes the blocks one by one, each in the same
way: a block gets a phi for the register unless it has one. The edges stay, a block
ends up with the phis it had and those of its sites, and the order of the sites of
one register does not matter.

* `Block.merged`: what one site does to its block.
* `Placement.mergeAt`: what one site does to the table of blocks.
* `Placement.insertAll_eq_ok`: insertion at existing blocks succeeds, and counts the
  new phis.
* `Placement.exists_foldl_mergeAt_iff`, `Placement.map_node_foldl_mergeAt`: what a block
  has afterwards, and what stays.
* `Placement.foldl_mergeAt_rearranged`: the order within a register has no effect.
-/

namespace MinimalSsa

/-- The blocks of a method with a phi for `register`. -/
def Method.phiBlocks (method : Method) (register : Register) : Set BlockId :=
  {block | ∃ found, method.blocks[block]? = some found ∧ found.hasPhiFor register = true}

/-! ## One block -/

@[simp] theorem Instruction.isPhi_phiFor (register : Register) (preds : List BlockId) :
    (phiFor register preds).isPhi = true := rfl

@[simp] theorem Instruction.definedRegister_phiFor (register : Register)
    (preds : List BlockId) : (phiFor register preds).definedRegister = some register := rfl

namespace Block

variable {block : Block} {register other : Register}

/-- The block with a phi for `register`, unless it has one. -/
def merged (block : Block) (register : Register) : Block :=
  if block.hasPhiFor register then block
  else block.insertPhi (.phiFor register block.preds)

theorem any_insertPhi (block : Block) (phi : Instruction) (test : Instruction → Bool) :
    (block.insertPhi phi).instructions.any test = (test phi || block.instructions.any test) := by
  rw [← block.phis_append_body, insertPhi, List.any_append, List.any_cons, List.any_append]
  exact Bool.or_left_comm _ _ _

theorem defines_of_hasPhiFor (h : block.hasPhiFor register = true) :
    block.defines register = true := by
  obtain ⟨instruction, hmem, htest⟩ := List.any_eq_true.mp h
  exact List.any_eq_true.mpr ⟨instruction, hmem, (Bool.and_eq_true_iff.mp htest).2⟩

/-- A block ends up with one more phi. -/
theorem hasPhiFor_merged (block : Block) (register other : Register) :
    (block.merged other).hasPhiFor register = true ↔
      block.hasPhiFor register = true ∨ other = register := by
  rw [merged]
  split
  · next h => exact ⟨.inl, fun hor => hor.elim id fun heq => heq ▸ h⟩
  · rw [hasPhiFor, any_insertPhi]
    simp [hasPhiFor, or_comm]

/-- And defines one more register. -/
theorem defines_merged (block : Block) (register other : Register) :
    (block.merged other).defines register = true ↔
      block.defines register = true ∨ other = register := by
  rw [merged]
  split
  · next h =>
    exact ⟨.inl, fun hor => hor.elim id fun heq => heq ▸ defines_of_hasPhiFor h⟩
  · rw [defines, any_insertPhi]
    simp [defines, or_comm]

theorem phiCount_insertPhi (block : Block) {phi : Instruction} (h : phi.isPhi = true) :
    (block.insertPhi phi).phiCount = block.phiCount + 1 := by
  simp only [phiCount, insertPhi]
  rw [← block.phis_append_body, List.countP_append, List.countP_cons_of_pos h,
    List.countP_append, Nat.add_assoc]

/-- Edges are not touched. -/
@[simp] theorem node_merged (block : Block) (register : Register) :
    (block.merged register).node = block.node := by
  rw [merged]
  split <;> rfl

end Block

namespace Placement

variable {blocks : Array Block} {block : BlockId} {register : Register}
variable {sites others : List (BlockId × Register)}

/-! ## One site -/

/-- The blocks with a phi at one site. -/
def mergeAt (blocks : Array Block) (site : BlockId × Register) : Array Block :=
  blocks.modify site.1 (·.merged site.2)

@[simp] theorem size_mergeAt (blocks : Array Block) (site : BlockId × Register) :
    (mergeAt blocks site).size = blocks.size := Array.size_modify

theorem getElem?_mergeAt (blocks : Array Block) (site : BlockId × Register)
    (block : BlockId) :
    (mergeAt blocks site)[block]? =
      if site.1 = block then blocks[block]?.map (·.merged site.2) else blocks[block]? :=
  Array.getElem?_modify

theorem map_node_mergeAt (blocks : Array Block) (site : BlockId × Register) :
    (mergeAt blocks site).map Block.node = blocks.map Block.node := by
  apply Array.ext_getElem?
  intro block
  rw [Array.getElem?_map, Array.getElem?_map, getElem?_mergeAt]
  split
  · rw [Option.map_map]
    congr 1
    exact funext fun found => found.node_merged site.2
  · rfl

/-- Sites in different blocks, or for one register, may be exchanged. -/
theorem mergeAt_comm (blocks : Array Block) (register : Register) (first second : BlockId) :
    mergeAt (mergeAt blocks (first, register)) (second, register) =
      mergeAt (mergeAt blocks (second, register)) (first, register) := by
  apply Array.ext_getElem?
  intro block
  simp only [getElem?_mergeAt]
  by_cases hfirst : first = block <;> by_cases hsecond : second = block <;>
    simp [hfirst, hsecond]

/-- Changing one block changes the number of phis by the difference. -/
theorem foldr_phiCount_set {found : List Block} {i : Nat} {old : Block} (new : Block)
    (h : found[i]? = some old) :
    (found.set i new).foldr (fun block total => block.phiCount + total) 0 + old.phiCount =
      found.foldr (fun block total => block.phiCount + total) 0 + new.phiCount := by
  induction found generalizing i with
  | nil => simp at h
  | cons first found ih =>
    cases i with
    | zero =>
      obtain rfl : first = old := by simpa using h
      simp only [List.set_cons_zero, List.foldr_cons]
      omega
    | succ i =>
      have hrest := ih (by simpa using h)
      simp only [List.set_cons_succ, List.foldr_cons]
      omega

theorem mergeAt_eq_setIfInBounds {found : Block} (h : blocks[block]? = some found)
    (register : Register) :
    mergeAt blocks (block, register) =
      blocks.setIfInBounds block (found.merged register) := by
  have hlt : block < blocks.size := (Array.getElem?_eq_some_iff.mp h).1
  apply Array.ext_getElem?
  intro other
  rw [getElem?_mergeAt, Array.getElem?_setIfInBounds]
  by_cases heq : block = other
  · subst heq
    rw [if_pos rfl, if_pos rfl, if_pos hlt, h]
    rfl
  · rw [if_neg heq, if_neg heq]

/-- Where there is a phi already nothing changes. -/
theorem mergeAt_eq_self {found : Block} (h : blocks[block]? = some found)
    (hphi : found.hasPhiFor register = true) : mergeAt blocks (block, register) = blocks := by
  rw [mergeAt_eq_setIfInBounds h, Block.merged, if_pos hphi]
  obtain ⟨hlt, rfl⟩ := Array.getElem?_eq_some_iff.mp h
  rw [Array.setIfInBounds, dif_pos hlt, Array.set_getElem_self]

/-- Insertion into an existing block changes that block only, and counts a new phi. -/
theorem insert_eq_ok {progress : Progress} (hblock : block < progress.method.size)
    (register : Register) :
    ∃ next, insert progress block register = .ok next ∧
      next.method = { progress.method with
        blocks := mergeAt progress.method.blocks (block, register) } ∧
      next.method.phiCount + progress.inserted =
        progress.method.phiCount + next.inserted := by
  obtain ⟨found, hfound⟩ : ∃ found, progress.method.blocks[block]? = some found :=
    ⟨_, Array.getElem?_eq_getElem hblock⟩
  simp only [insert, hfound]
  by_cases hphi : found.hasPhiFor register = true
  · rw [if_pos hphi, mergeAt_eq_self hfound hphi]
    exact ⟨progress, rfl, rfl, rfl⟩
  · rw [if_neg hphi, mergeAt_eq_setIfInBounds hfound, Block.merged, if_neg hphi]
    refine ⟨_, rfl, rfl, ?_⟩
    have hlist : progress.method.blocks.toList[block]? = some found := by
      rw [Array.getElem?_toList]
      exact hfound
    have hcount := foldr_phiCount_set (found.insertPhi (.phiFor register found.preds)) hlist
    rw [Block.phiCount_insertPhi found rfl] at hcount
    simp only [Method.phiCount, Array.toList_setIfInBounds]
    omega

/-- Insertion does nothing or counts a new phi. -/
theorem insert_cases {progress next : Progress} (h : insert progress block register = .ok next) :
    next = progress ∨ next.inserted = progress.inserted + 1 := by
  unfold insert at h
  split at h
  · cases h
  · split at h
    · exact .inl (Except.ok.inj h).symm
    · exact .inr ((congrArg Progress.inserted (Except.ok.inj h)).symm)

/-! ## All sites -/

/-- Where no phi is counted nothing has changed, also if insertion has stopped early. -/
theorem insertAll_cases (progress : Progress) (sites : List (BlockId × Register)) :
    (insertAll progress sites).1 = progress ∨
      progress.inserted < (insertAll progress sites).1.inserted := by
  induction sites generalizing progress with
  | nil => exact .inl rfl
  | cons site sites ih =>
    rw [insertAll]
    cases hnext : insert progress site.1 site.2 with
    | error fault => exact .inl rfl
    | ok next =>
      rcases insert_cases hnext with rfl | hnew
      · exact ih next
      · rcases ih next with hsame | hmore
        · exact .inr (by simp only [hsame, hnew, Nat.lt_succ_self])
        · exact .inr (by simp only; omega)

/-- Insertion at existing blocks merges at one site after the other. -/
theorem insertAll_eq_ok (progress : Progress)
    (hsites : ∀ site ∈ sites, site.1 < progress.method.size) :
    ∃ done, insertAll progress sites = (done, none) ∧
      done.method = { progress.method with
        blocks := sites.foldl mergeAt progress.method.blocks } ∧
      done.method.phiCount + progress.inserted =
        progress.method.phiCount + done.inserted := by
  induction sites generalizing progress with
  | nil => exact ⟨progress, rfl, rfl, rfl⟩
  | cons site sites ih =>
    obtain ⟨block, register⟩ := site
    obtain ⟨hfirst, hrest⟩ := List.forall_mem_cons.mp hsites
    obtain ⟨next, hnext, hmethod, hcount⟩ := insert_eq_ok hfirst register
    have hsize : next.method.size = progress.method.size := by
      rw [hmethod]
      exact size_mergeAt _ _
    obtain ⟨done, hdone, hfinal, htotal⟩ :=
      ih next fun other hother => hsize.symm ▸ hrest other hother
    refine ⟨done, by simp only [insertAll, hnext, hdone], ?_, by omega⟩
    rw [hfinal, hmethod]
    rfl

/-- A property that a merge gives to a block for one register holds afterwards where it
did before and at the sites of the register. -/
theorem exists_foldl_mergeAt_iff {holds : Block → Prop}
    (hmerged : ∀ found other, holds (found.merged other) ↔ holds found ∨ other = register)
    (hsites : ∀ site ∈ sites, site.1 < blocks.size) (block : BlockId) :
    (∃ found, (sites.foldl mergeAt blocks)[block]? = some found ∧ holds found) ↔
      (∃ found, blocks[block]? = some found ∧ holds found) ∨ (block, register) ∈ sites := by
  induction sites generalizing blocks with
  | nil => simp
  | cons site sites ih =>
    obtain ⟨hfirst, hrest⟩ := List.forall_mem_cons.mp hsites
    rw [List.foldl_cons, ih (by simpa using hrest), getElem?_mergeAt, List.mem_cons,
      ← or_assoc]
    refine or_congr_left ?_
    by_cases heq : site.1 = block
    · subst heq
      simp only [if_pos, Array.getElem?_eq_getElem hfirst, Option.map_some, Option.some.injEq,
        exists_eq_left', hmerged]
      exact or_congr_right ⟨fun h => h ▸ rfl, fun h => (congrArg Prod.snd h).symm⟩
    · rw [if_neg heq, or_iff_left]
      exact fun h => heq (congrArg Prod.fst h).symm

/-- Insertion keeps the edges. -/
theorem map_node_foldl_mergeAt (sites : List (BlockId × Register)) (blocks : Array Block) :
    (sites.foldl mergeAt blocks).map Block.node = blocks.map Block.node := by
  induction sites generalizing blocks with
  | nil => rfl
  | cons site sites ih => rw [List.foldl_cons, ih, map_node_mergeAt]

/-- The order of the sites of each register has no effect. -/
theorem foldl_mergeAt_rearranged (h : Sites.Rearranged sites others) (blocks : Array Block) :
    sites.foldl mergeAt blocks = others.foldl mergeAt blocks := by
  induction h generalizing blocks with
  | nil => rfl
  | register register hperm _ ih =>
    rw [List.foldl_append, List.foldl_append, List.foldl_map, List.foldl_map, ih]
    congr 1
    exact hperm.foldl_eq' (fun first _ second _ blocks =>
      mergeAt_comm blocks register first second) blocks

end Placement

end MinimalSsa
