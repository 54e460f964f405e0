import MinimalSsa.Graph.BlockSet

/-!
# The worklist of iterated frontiers

The state of the search for an iterated frontier. Blocks wait on a stack until their
frontiers are looked at. Two sets are kept apart: the blocks that were ever put on the
stack, so that none is put there twice, and the blocks that were met in a frontier,
which are the ones to report. A block that the search begins with is in the first set
only, until it is met.

* `Worklist.push`: put a block on the stack, unless it was there before.
* `Worklist.meet`: meet a block in a frontier.
* `Worklist.pending`: how many blocks can still come from the stack. It falls with every
  block that does (`Worklist.pending_pop_lt`), so the search ends.
-/

namespace MinimalSsa

/-- A search for an iterated frontier. -/
structure Worklist where
  /-- The blocks that wait, the last one first. -/
  stack : List BlockId := []
  /-- The blocks that wait or have waited. -/
  queued : BlockSet
  /-- The blocks met in a frontier. -/
  found : BlockSet
  deriving DecidableEq

namespace Worklist

/-- The search before it begins, in a graph of `size` blocks. -/
def empty (size : Nat) : Worklist where
  queued := .empty size
  found := .empty size

/-- Let a block wait, unless it has been queued before. -/
def push (work : Worklist) (block : BlockId) : Worklist :=
  if work.queued.lacks block then
    { work with stack := block :: work.stack, queued := work.queued.insert block }
  else work

/-- Meet a block in a frontier. The first time it is found, and its own frontier is to be
looked at as well. -/
def meet (work : Worklist) (block : BlockId) : Worklist :=
  if work.found.contains block then work
  else push { work with found := work.found.insert block } block

/-- The number of blocks that wait, and of those that may still come to wait. -/
def pending (work : Worklist) : Nat :=
  work.stack.length + work.queued.free

theorem pending_push_le (work : Worklist) (block : BlockId) :
    (work.push block).pending ≤ work.pending := by
  unfold push
  split
  · next hlacks =>
    have hfree := BlockSet.free_insert_lt hlacks
    simp only [pending, List.length_cons]
    omega
  · exact Nat.le_refl _

theorem pending_meet_le (work : Worklist) (block : BlockId) :
    (work.meet block).pending ≤ work.pending := by
  unfold meet
  split
  · exact Nat.le_refl _
  · exact pending_push_le _ block

theorem pending_foldl_meet_le (work : Worklist) (blocks : List BlockId) :
    (blocks.foldl meet work).pending ≤ work.pending := by
  induction blocks generalizing work with
  | nil => exact Nat.le_refl _
  | cons block blocks ih => exact Nat.le_trans (ih (work.meet block)) (pending_meet_le work block)

/-- A block that is taken from the stack makes up for all that its frontier adds. -/
theorem pending_pop_lt (block : BlockId) (stack blocks : List BlockId)
    (queued found : BlockSet) :
    (blocks.foldl meet ⟨stack, queued, found⟩).pending <
      pending ⟨block :: stack, queued, found⟩ := by
  refine Nat.lt_of_le_of_lt (pending_foldl_meet_le _ blocks) ?_
  simp [pending]

end Worklist

end MinimalSsa
