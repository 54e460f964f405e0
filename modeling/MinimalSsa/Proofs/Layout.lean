import Mathlib.Algebra.GroupWithZero.Nat
import MinimalSsa.Proofs.Repetition

/-!
# The code of a method after placement

Sites are found register by register and head by head, and inserted one at a time. Seen
from a block, only the registers that are merged in it matter, and they arrive in the
order in which they were discovered: each of them is looked at once, and the heads that
ask for it add its sites to one list. So a block ends up with its leading phis, then the
new ones in the order of discovery, then the rest of its code; all else in the method
stays.

* `Block.withPhis`: the code of a block with new phis.
* `Block.foldl_merged`, `Placement.foldl_mergeAt_eq_mapIdx`: insertion one by one gives
  that code, for a block and for a table.
* `Sites.registersAt_sublist`: the registers of the sites in one block come in the order
  of discovery.
* `Method.Selects`: the registers that are merged in a block, by the least sites.
* `Placement.run_inserts_phis`: the whole effect of a run.
-/

namespace MinimalSsa

/-! ## New phis in one block -/

namespace Block

variable {block : Block} {registers : List Register}

/-- The block with phis for `registers` between its leading phis and the rest. -/
def withPhis (block : Block) (registers : List Register) : Block :=
  { block with
    instructions := block.phis ++
      registers.map (fun register => .phiFor register block.preds) ++ block.body }

@[simp] theorem withPhis_nil (block : Block) : block.withPhis [] = block := by
  simp [withPhis]

/-- A phi that was inserted stands before those that follow it. -/
theorem withPhis_insertPhi (block : Block) (register : Register)
    (registers : List Register) :
    (block.insertPhi (.phiFor register block.preds)).withPhis registers =
      block.withPhis (register :: registers) := by
  have hphis := block.phis_insertPhi (Instruction.isPhi_phiFor register block.preds)
  have hbody := block.body_insertPhi (Instruction.isPhi_phiFor register block.preds)
  have hpreds : (block.insertPhi (.phiFor register block.preds)).preds = block.preds := rfl
  unfold withPhis
  rw [hphis, hbody, hpreds, List.map_cons, List.append_assoc block.phis,
    List.singleton_append]
  rfl

/-- Merging registers one after the other adds the phis that the block lacks, in that
order. -/
theorem foldl_merged (block : Block) (hnodup : registers.Nodup) :
    registers.foldl merged block =
      block.withPhis (registers.filter fun register => !block.hasPhiFor register) := by
  induction registers generalizing block with
  | nil => exact (withPhis_nil block).symm
  | cons register registers ih =>
    obtain ⟨hfresh, hrest⟩ := List.nodup_cons.mp hnodup
    rw [List.foldl_cons, ih (block.merged register) hrest, List.filter_cons]
    -- the registers that follow are others, so their phis are there or missing as before
    have hsame : registers.filter (fun other => !(block.merged register).hasPhiFor other) =
        registers.filter fun other => !block.hasPhiFor other := by
      refine List.filter_congr fun other hother => congrArg not (Bool.eq_iff_iff.mpr ?_)
      rw [hasPhiFor_merged]
      exact or_iff_left fun heq => hfresh (heq ▸ hother)
    rw [hsame]
    cases hphi : block.hasPhiFor register with
    | true => simp [merged, hphi]
    | false =>
      have hmerged : block.merged register =
          block.insertPhi (.phiFor register block.preds) := by simp [merged, hphi]
      rw [hmerged, withPhis_insertPhi]
      simp

/-- The new phis are counted. -/
theorem phiCount_withPhis (block : Block) (registers : List Register) :
    (block.withPhis registers).phiCount = block.phiCount + registers.length := by
  have hnew : (registers.map fun register =>
      Instruction.phiFor register block.preds).countP Instruction.isPhi = registers.length := by
    rw [List.countP_map]
    exact List.countP_eq_length.mpr fun _ _ => rfl
  have hold : block.phiCount =
      block.phis.countP Instruction.isPhi + block.body.countP Instruction.isPhi := by
    rw [phiCount, ← List.countP_append, phis_append_body]
  show (block.phis ++ registers.map _ ++ block.body).countP Instruction.isPhi = _
  rw [List.countP_append, List.countP_append, hnew, hold]
  omega

end Block

/-! ## New phis in a table of blocks -/

namespace Placement

variable {sites : List (BlockId × Register)}

/-- The registers of the sites in `block`, in the order of the sites. -/
def registersAt (sites : List (BlockId × Register)) (block : BlockId) : List Register :=
  (sites.filter fun site => site.1 == block).map Prod.snd

theorem mem_registersAt_iff {block : BlockId} {register : Register} :
    register ∈ registersAt sites block ↔ (block, register) ∈ sites := by
  simp [registersAt]

theorem registersAt_cons (site : BlockId × Register) (sites : List (BlockId × Register))
    (block : BlockId) :
    registersAt (site :: sites) block =
      if site.1 = block then site.2 :: registersAt sites block
      else registersAt sites block := by
  by_cases heq : site.1 = block <;> simp [registersAt, heq]

/-- A block is changed by its own sites only. -/
theorem getElem?_foldl_mergeAt (sites : List (BlockId × Register)) (blocks : Array Block)
    (block : BlockId) :
    (sites.foldl mergeAt blocks)[block]? =
      blocks[block]?.map ((registersAt sites block).foldl Block.merged) := by
  induction sites generalizing blocks with
  | nil => simp [registersAt]
  | cons site sites ih =>
    rw [List.foldl_cons, ih, getElem?_mergeAt, registersAt_cons]
    by_cases heq : site.1 = block
    · rw [if_pos heq, if_pos heq, Option.map_map]
      rfl
    · rw [if_neg heq, if_neg heq]

/-- The registers of the sites in `block` for which the block has no phi. -/
def newAt (blocks : Array Block) (sites : List (BlockId × Register)) (block : BlockId) :
    List Register :=
  (registersAt sites block).filter fun register =>
    !(blocks[block]?.any fun found => found.hasPhiFor register)

theorem newAt_eq {blocks : Array Block} {block : BlockId} {found : Block}
    (sites : List (BlockId × Register)) (h : blocks[block]? = some found) :
    newAt blocks sites block =
      (registersAt sites block).filter fun register => !found.hasPhiFor register := by
  simp [newAt, h]

/-- Insertion at all sites gives every block its new phis at once. -/
theorem foldl_mergeAt_eq_mapIdx (blocks : Array Block)
    (hnodup : ∀ block, (registersAt sites block).Nodup) :
    sites.foldl mergeAt blocks =
      blocks.mapIdx fun block found => found.withPhis (newAt blocks sites block) := by
  apply Array.ext_getElem?
  intro block
  rw [getElem?_foldl_mergeAt, Array.getElem?_mapIdx]
  cases hfound : blocks[block]? with
  | none => rfl
  | some found =>
    rw [Option.map_some, Option.map_some, newAt_eq sites hfound, found.foldl_merged (hnodup block)]

/-- Changing the blocks of a list each in its own way changes the number of phis by the
sum of the differences. -/
theorem foldr_phiCount_mapIdx (blocks : List Block) (registers : Nat → List Register) :
    (blocks.mapIdx fun block found => found.withPhis (registers block)).foldr
        (fun block total => block.phiCount + total) 0 =
      blocks.foldr (fun block total => block.phiCount + total) 0 +
        ((List.range blocks.length).map fun block => (registers block).length).sum := by
  induction blocks generalizing registers with
  | nil => rfl
  | cons block blocks ih =>
    rw [List.mapIdx_cons, List.foldr_cons, ih, List.foldr_cons, List.length_cons,
      List.range_succ_eq_map, List.map_cons, List.map_map, List.sum_cons,
      Block.phiCount_withPhis]
    show _ = _ + (_ + ((List.range blocks.length).map fun block =>
      (registers (block + 1)).length).sum)
    omega

end Placement

/-! ## The order of the sites in a block -/

namespace Sites

variable {graph : Graph} {analyses : List Dominance}
variable {entries : List (Register × List BlockId)}

/-- The sites of one register ask for it once in each block at most. -/
theorem registersAt_map_sublist {sites : List BlockId} (hnodup : sites.Nodup)
    (register : Register) (block : BlockId) :
    (Placement.registersAt (sites.map (·, register)) block).Sublist [register] := by
  have hreplicate : Placement.registersAt (sites.map (·, register)) block =
      List.replicate (sites.count block) register := by
    rw [Placement.registersAt, List.filter_map, List.map_map,
      show ((fun site : BlockId × Register => site.1 == block) ∘ (·, register)) =
        (fun other => other == block) from rfl, List.filter_beq, List.map_replicate]
    rfl
  rw [hreplicate, List.replicate_sublist_iff, List.count_singleton_self]
  exact List.nodup_iff_count_le_one.mp hnodup block

/-- In every block the registers of the sites come in the order of the entries, whichever
heads have asked for them. -/
theorem registersAt_sublist (hanalysed : ∀ dominance ∈ analyses, graph.Analysed dominance)
    (hentries : ∀ entry ∈ entries, entry.2.Nodup) {found : List (BlockId × Register)}
    (hfound : ofEntries analyses graph.size entries = .ok found) (block : BlockId) :
    (Placement.registersAt found block).Sublist (entries.map Prod.fst) := by
  induction entries generalizing found with
  | nil =>
    obtain rfl := Except.ok.inj hfound
    exact List.nil_sublist _
  | cons entry entries ih =>
    obtain ⟨register, blocks⟩ := entry
    obtain ⟨hfirst, hrest⟩ := List.forall_mem_cons.mp hentries
    obtain ⟨sites, hok, hnodup, -, -⟩ := ofBlocks_eq_ok hanalysed rfl hfirst
    obtain ⟨others, hothers, -⟩ := ofEntries_eq_ok hanalysed rfl hrest
    simp only [ofEntries, hok, hothers, Except.ok.injEq] at hfound
    subst hfound
    have hsplit : Placement.registersAt (sites.map (·, register) ++ others) block =
        Placement.registersAt (sites.map (·, register)) block ++
          Placement.registersAt others block := by
      simp only [Placement.registersAt, List.filter_append, List.map_append]
    rw [hsplit, List.map_cons, ← List.singleton_append]
    exact (registersAt_map_sublist hnodup register block).append (ih hrest hothers)

end Sites

/-! ## The effect of a run -/

/-- The register is merged in the block: the block is one of the least sites that answer
every head for the definitions of the register. Methods with guarded regions have no
merges. -/
def Method.Selects (method : Method) (register : Register) (block : BlockId) : Prop :=
  method.hasRegions = false ∧ ∃ sites,
    method.graph.IsSites method.heads (method.definers register) sites ∧ block ∈ sites

/-- Nothing is merged in a method that placement leaves alone. -/
theorem Method.not_selects_of_skip {method : Method}
    (h : method.heads = [] ∨ method.hasRegions = true) (register : Register)
    (block : BlockId) : ¬ method.Selects register block := by
  rintro ⟨hregions, sites, hsites, hblock⟩
  have hheads : method.heads = [] := h.resolve_right (by simp [hregions])
  rcases (method.definers register).subsingleton_or_nontrivial with hsingle | hmany
  · rw [hsites.single hsingle] at hblock
    exact hblock
  · -- without heads the empty set answers all of them
    have hempty : method.graph.SitesClosed method.heads (method.definers register) ∅ := by
      intro head hhead
      rw [hheads] at hhead
      exact absurd hhead List.not_mem_nil
    exact (hsites.least hmany).2 hempty hblock

namespace Placement

variable {stats : Stats} {method : Method} {out : Outcome}

/-- The sites of a run: which they are, and in what order a block sees them. -/
theorem exists_selected_of_run (hrun : run stats method = .ok out) :
    ∃ sites, out.method = { method with blocks := sites.foldl mergeAt method.blocks } ∧
      out.method.phiCount = method.phiCount + out.inserted ∧
      (∀ block, (registersAt sites block).Sublist
        (({} : Collector).collect method).1.registers) ∧
      ∀ block register, (block, register) ∈ sites ↔ method.Selects register block := by
  rcases run_cases hrun with ⟨hskip, event, rfl⟩ | ⟨-, hregions, hconsistent, -, hplace⟩
  · refine ⟨[], rfl, rfl, fun _ => List.nil_sublist _, fun block register => ?_⟩
    exact iff_of_false List.not_mem_nil (method.not_selects_of_skip hskip register block)
  obtain ⟨found, placed, hfound, hplaced, hmethod, hcount⟩ := place_eq_ok hconsistent stats
  obtain rfl := Except.ok.inj (hplace.symm.trans hplaced)
  obtain ⟨others, hothers, -, hsites⟩ := Sites.all_eq_ok hconsistent {}
  obtain rfl := Except.ok.inj (hfound.symm.trans hothers)
  refine ⟨found, hmethod, hcount, fun block => ?_, fun block register => ?_⟩
  · obtain ⟨analyses, hanalyses, -, hanalysed⟩ :=
      Sites.analyses_eq_ok hconsistent.mirrored hconsistent.head_lt
    rw [Sites.all, hanalyses, ← Graph.size_graph] at hfound
    exact Sites.registersAt_sublist hanalysed
      (Collector.wellFormed_collect {} method).blocks hfound block
  · refine ⟨fun hmem => ⟨hregions, _, hsites register, hmem⟩, ?_⟩
    rintro ⟨-, sites, hleast, hmem⟩
    rw [← (hsites register).unique (fun _ => Iff.rfl) hleast] at hmem
    exact hmem

/-- Placement inserts phis and does nothing else. Every block keeps its name, its edges
and its code; between the leading phis and the rest come the new phis, for the registers
that are merged in the block and had no phi there, each once and in the order in which
the registers are first defined. The count is that of the new phis. -/
theorem run_inserts_phis (stats : Stats) (method : Method) (out : Outcome)
    (hrun : run stats method = .ok out) :
    ∃ new : BlockId → List Register,
      out.method = { method with
        blocks := method.blocks.mapIdx fun block found => { found with
          instructions := found.phis ++
            (new block).map (fun register => .phiFor register found.preds) ++ found.body } } ∧
      (∀ block found, method.blocks[block]? = some found →
        (new block).Sublist (({} : Collector).collect method).1.registers ∧
        Along method.definitions (new block) ∧
        (∀ register, register ∈ new block ↔
          method.Selects register block ∧ found.hasPhiFor register = false) ∧
        ∀ register ∈ new block, ∃ operands,
          (Instruction.phiFor register found.preds).action =
            .phi register operands found.preds ∧
          operands.length = found.preds.length ∧
          ∀ operand ∈ operands, operand = .register register) ∧
      out.inserted = ((List.range method.size).map fun block => (new block).length).sum := by
  obtain ⟨sites, hmethod, hcount, hsub, hmem⟩ := exists_selected_of_run hrun
  have hdiscovers := Collector.discovers_collect {} method
  have hblocks := foldl_mergeAt_eq_mapIdx method.blocks fun block =>
    hdiscovers.along.nodup.sublist (hsub block)
  rw [hblocks] at hmethod
  refine ⟨newAt method.blocks sites, hmethod, fun block found hfound => ?_, ?_⟩
  · have hnew := newAt_eq sites hfound
    have hpart : (newAt method.blocks sites block).Sublist
        (({} : Collector).collect method).1.registers :=
      hnew ▸ List.filter_sublist.trans (hsub block)
    refine ⟨hpart, hdiscovers.along.sublist hpart, fun register => ?_, fun register _ => ?_⟩
    · rw [hnew, List.mem_filter, mem_registersAt_iff, hmem, Bool.not_eq_true']
    · exact ⟨_, rfl, List.length_replicate, fun _ => List.eq_of_mem_replicate⟩
  · -- the phis of the method are those it had and the new ones
    have hphis := foldr_phiCount_mapIdx method.blocks.toList (newAt method.blocks sites)
    rw [← Array.toList_mapIdx, Array.length_toList] at hphis
    rw [hmethod] at hcount
    simp only [Method.phiCount, hphis, Nat.add_left_cancel_iff] at hcount
    exact hcount.symm

/-- Registers 7, 3 and 5 are defined on both sides of a branch. The join has a phi for
another register in front, and behind its code one for register 5. -/
def scatteredPhis : Method where
  name := "scattered"
  heads := [0]
  blocks := #[
    { terminator := .branch (.boolean true) 1 2 },
    { instructions := [.assign 7 0, .assign 3 0, .assign 5 0], terminator := .jump 3,
      preds := [0] },
    { instructions := [.assign 5 1, .assign 3 1, .assign 7 1], terminator := .jump 3,
      preds := [0] },
    { instructions := [.phiFor 9 [1, 2], .assign 4 0, .phiFor 5 [1, 2]],
      terminator := .ret none, preds := [1, 2] }]

theorem run_inserts_phis_scatteredPhis :
    ∃ out, run {} scatteredPhis = .ok out ∧
      out.method.blocks[3]?.map Block.instructions =
        some [.phiFor 9 [1, 2], .phiFor 7 [1, 2], .phiFor 3 [1, 2], .assign 4 0,
          .phiFor 5 [1, 2]] ∧
      ∃ new : BlockId → List Register,
        out.method.blocks = (scatteredPhis.blocks.mapIdx fun block found => { found with
          instructions := found.phis ++
            (new block).map (fun register => .phiFor register found.preds) ++ found.body }) ∧
        Along [7, 3, 5, 5, 3, 7, 9, 4, 5] (new 3) ∧
        out.inserted = (new 0).length + (new 1).length + (new 2).length + (new 3).length := by
  have hcode : (run {} scatteredPhis).map (·.method.blocks[3]?.map Block.instructions) =
      .ok (some [.phiFor 9 [1, 2], .phiFor 7 [1, 2], .phiFor 3 [1, 2], .assign 4 0,
        .phiFor 5 [1, 2]]) := by decide +kernel
  obtain ⟨out, hrun, hcode⟩ := Except.exists_ok_of_map hcode
  obtain ⟨new, hmethod, hnew, hcount⟩ := run_inserts_phis {} scatteredPhis out hrun
  have hsum : out.inserted = ((List.range 4).map fun block => (new block).length).sum := hcount
  refine ⟨out, hrun, hcode, new, by rw [hmethod], (hnew 3 _ rfl).2.1, ?_⟩
  simpa [List.range_succ, Nat.add_assoc] using hsum

end Placement

end MinimalSsa
