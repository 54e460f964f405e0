import Mathlib.Order.Bounds.Defs
import MinimalSsa.Dominance
import MinimalSsa.Proofs.Search

/-!
# What the worklist finds

The search for an iterated frontier takes blocks from a stack and meets the blocks of
their frontiers. Whether a block is put on the stack and whether it is reported are
decided by two different sets. What ties them together is that the queued blocks are the
given ones and the found ones, at any time, and that each of them either waits or has
been looked at, and not both. So no frontier is forgotten when a given block is met
later, none is looked at twice, and in the end the found blocks are closed.

* `Dominance.Closed`: a set that holds the frontiers of given blocks and of its members.
* `Worklist.Explores`: the invariant of the search, with the blocks looked at so far and
  the rest of the frontier that is being gone through.
* `Worklist.Explores.push`, `Worklist.Explores.pop`, `Worklist.Explores.meet`: the steps.
* `Worklist.Explores.drain`: a whole search.
* `Dominance.expanded_once`: no frontier is looked at twice, and none is missed.
* `Dominance.isLeast_drain`: the search finds the least closed set.
* `Dominance.iteratedFrontier_eq`: a query refuses the first block that is out of reach,
  and otherwise answers with what the search finds.
-/

namespace MinimalSsa

/-- `region` holds the frontiers of `seeds` and those of its own members. -/
def Dominance.Closed (dominance : Dominance) (seeds : List BlockId) (region : Set BlockId) :
    Prop :=
  ∀ x, x ∈ seeds ∨ x ∈ region → ∀ y ∈ dominance.frontierOf x, y ∈ region

/-- The blocks that a search takes from its stack, one after the other. -/
def Dominance.expanded (dominance : Dominance) : Worklist → List BlockId
  | ⟨[], _, _⟩ => []
  | ⟨block :: stack, queued, found⟩ =>
    block :: dominance.expanded
      ((dominance.frontierOf block).foldl .meet ⟨stack, queued, found⟩)
  termination_by work => work.pending
  decreasing_by exact Worklist.pending_pop_lt ..

namespace Worklist

variable {work : Worklist} {block x y : BlockId}

/-! ## Putting a block on the stack -/

theorem push_of_contains (h : work.queued.contains block = true) : work.push block = work := by
  refine if_neg fun hlacks => ?_
  rw [BlockSet.not_contains_of_lacks hlacks] at h
  cases h

theorem push_of_new (hblock : block < work.queued.size)
    (hnew : ¬ work.queued.contains block = true) :
    work.push block =
      { work with stack := block :: work.stack, queued := work.queued.insert block } :=
  if_pos ((BlockSet.contains_or_lacks hblock).resolve_left hnew)

@[simp] theorem found_push (work : Worklist) (block : BlockId) :
    (work.push block).found = work.found := by
  unfold push
  split <;> rfl

@[simp] theorem size_queued_push (work : Worklist) (block : BlockId) :
    (work.push block).queued.size = work.queued.size := by
  unfold push
  split
  · exact BlockSet.size_insert ..
  · rfl

/-- Whether it was there before or not, the block is queued afterwards. -/
theorem contains_push (hblock : block < work.queued.size) (x : BlockId) :
    (work.push block).queued.contains x = true ↔
      x = block ∨ work.queued.contains x = true := by
  by_cases hold : work.queued.contains block = true
  · rw [push_of_contains hold]
    exact ⟨.inr, fun h => h.elim (fun heq => heq ▸ hold) id⟩
  · rw [push_of_new hblock hold]
    exact BlockSet.contains_insert_iff hblock x

/-! ## The invariant -/

/-- Every block that was queued is done or waits, and none twice. -/
structure Waits (done : List BlockId) (work : Worklist) : Prop where
  nodup : (done ++ work.stack).Nodup
  queued_iff : ∀ x, work.queued.contains x = true ↔ x ∈ done ++ work.stack

theorem Waits.push {done : List BlockId} (h : Waits done work)
    (hblock : block < work.queued.size) : Waits done (work.push block) := by
  by_cases hold : work.queued.contains block = true
  · rwa [push_of_contains hold]
  · rw [push_of_new hblock hold]
    rw [h.queued_iff] at hold
    refine ⟨List.nodup_middle.mpr (List.nodup_cons.mpr ⟨hold, h.nodup⟩), fun x => ?_⟩
    show (work.queued.insert block).contains x = true ↔ x ∈ done ++ block :: work.stack
    rw [BlockSet.contains_insert_iff hblock, h.queued_iff, List.perm_middle.mem_iff,
      List.mem_cons]

/-- A search that began with `seeds`, has looked at the frontiers of `done`, and is still to
go through `rest` in the last of them. The queued blocks are the given ones and the found
ones; the frontiers of the blocks done have been found but for the rest; and nothing has
been found that is not in every closed set. -/
structure Explores (dominance : Dominance) (seeds done rest : List BlockId) (work : Worklist) :
    Prop extends Waits done work where
  size_queued : work.queued.size = dominance.frontiers.size
  size_found : work.found.size = dominance.frontiers.size
  rest_lt : ∀ x ∈ rest, x < dominance.frontiers.size
  origin : ∀ x, work.queued.contains x = true ↔ x ∈ seeds ∨ work.found.contains x = true
  expanded : ∀ x ∈ done, ∀ y ∈ dominance.frontierOf x,
    work.found.contains y = true ∨ y ∈ rest
  least : ∀ region, dominance.Closed seeds region →
    ∀ x, work.found.contains x = true ∨ x ∈ rest → x ∈ region

namespace Explores

variable {dominance : Dominance} {seeds done rest : List BlockId}

/-- Before it begins, a search has found nothing. -/
theorem start (dominance : Dominance) :
    Explores dominance [] [] [] (.empty dominance.frontiers.size) := by
  have hsize : (BlockSet.empty dominance.frontiers.size).size = dominance.frontiers.size := by
    simp [BlockSet.empty, BlockSet.size]
  constructor
  case toWaits => exact ⟨List.nodup_nil, by simp [empty]⟩
  case size_queued => exact hsize
  case size_found => exact hsize
  case rest_lt => simp
  case origin => simp [empty]
  case expanded => simp
  case least => simp [empty]

/-- One more block to begin with. -/
theorem push (h : Explores dominance seeds done rest work)
    (hblock : block < dominance.frontiers.size) :
    Explores dominance (seeds ++ [block]) done rest (work.push block) := by
  have hlt : block < work.queued.size := h.size_queued ▸ hblock
  constructor
  case toWaits => exact h.toWaits.push hlt
  case size_queued => rw [size_queued_push, h.size_queued]
  case size_found => rw [found_push, h.size_found]
  case rest_lt => exact h.rest_lt
  case origin =>
    intro x
    rw [contains_push hlt, h.origin, found_push, List.mem_append, List.mem_singleton, or_comm,
      or_right_comm]
  case expanded => rw [found_push]; exact h.expanded
  case least =>
    intro region hclosed
    rw [found_push]
    refine h.least region fun x hx => hclosed x (hx.imp_left ?_)
    exact List.mem_append_left _

/-- The next block is taken from the stack. It was queued, so its frontier is in every closed
set. -/
theorem pop {stack : List BlockId} {queued found : BlockSet}
    (hrange : ∀ x, ∀ y ∈ dominance.frontierOf x, y < dominance.frontiers.size)
    (h : Explores dominance seeds done [] ⟨block :: stack, queued, found⟩) :
    Explores dominance seeds (done ++ [block]) (dominance.frontierOf block)
      ⟨stack, queued, found⟩ := by
  have hqueued : queued.contains block = true :=
    (h.queued_iff block).mpr (List.mem_append_right _ List.mem_cons_self)
  constructor
  case toWaits =>
    show Waits (done ++ [block]) ⟨stack, queued, found⟩
    have hsame : done ++ [block] ++ stack = done ++ block :: stack := by simp
    exact ⟨hsame ▸ h.nodup, fun x => hsame ▸ h.queued_iff x⟩
  case size_queued => exact h.size_queued
  case size_found => exact h.size_found
  case rest_lt => exact hrange block
  case origin => exact h.origin
  case expanded =>
    intro x hx y hy
    rcases List.mem_append.mp hx with hx | hx
    · exact .inl ((h.expanded x hx y hy).resolve_right List.not_mem_nil)
    · exact .inr (List.mem_singleton.mp hx ▸ hy)
  case least =>
    intro region hclosed x hx
    rcases hx with hx | hx
    · exact h.least region hclosed x (.inl hx)
    · refine hclosed block (((h.origin block).mp hqueued).imp_right fun hfound => ?_) x hx
      exact h.least region hclosed block (.inl hfound)

/-- The next block of the frontier is met. If it was given, or found in another frontier, it
has been queued before and does not wait again. -/
theorem meet (h : Explores dominance seeds done (block :: rest) work) :
    Explores dominance seeds done rest (work.meet block) := by
  obtain ⟨hblock, hrest⟩ := List.forall_mem_cons.mp h.rest_lt
  by_cases hmet : work.found.contains block = true
  · -- nothing is new
    rw [Worklist.meet, if_pos hmet]
    refine ⟨h.toWaits, h.size_queued, h.size_found, hrest, h.origin, fun x hx y hy => ?_, ?_⟩
    · rcases h.expanded x hx y hy with hy | hy
      · exact .inl hy
      · exact (List.mem_cons.mp hy).imp_left fun (heq : y = block) => heq ▸ hmet
    · exact fun region hclosed x hx =>
        h.least region hclosed x (hx.imp_right (List.mem_cons_of_mem block))
  · rw [Worklist.meet, if_neg hmet]
    have hlt : block < { work with found := work.found.insert block }.queued.size :=
      h.size_queued ▸ hblock
    have hinsert := BlockSet.contains_insert_iff (show block < work.found.size from
      h.size_found ▸ hblock)
    constructor
    case toWaits => exact Waits.push ⟨h.nodup, h.queued_iff⟩ hlt
    case size_queued => rw [size_queued_push, h.size_queued]
    case size_found => rw [found_push, BlockSet.size_insert, h.size_found]
    case rest_lt => exact hrest
    case origin =>
      intro x
      rw [contains_push hlt, found_push, hinsert, or_left_comm]
      exact or_congr_right (h.origin x)
    case expanded =>
      intro x hx y hy
      rw [found_push, hinsert]
      rcases h.expanded x hx y hy with hy | hy
      · exact .inl (.inr hy)
      · exact (List.mem_cons.mp hy).imp_left .inl
    case least =>
      intro region hclosed x hx
      rw [found_push, hinsert] at hx
      rcases hx with (rfl | hx) | hx
      · exact h.least region hclosed x (.inr List.mem_cons_self)
      · exact h.least region hclosed x (.inl hx)
      · exact h.least region hclosed x (.inr (List.mem_cons_of_mem block hx))

/-! ## Whole searches -/

/-- All blocks to begin with are queued, one after the other. -/
theorem foldl_push (h : Explores dominance seeds done rest work) {blocks : List BlockId}
    (hblocks : ∀ x ∈ blocks, x < dominance.frontiers.size) :
    Explores dominance (seeds ++ blocks) done rest (blocks.foldl .push work) := by
  induction blocks generalizing seeds work with
  | nil => rwa [List.append_nil]
  | cons block blocks ih =>
    obtain ⟨hblock, hrest⟩ := List.forall_mem_cons.mp hblocks
    rw [List.foldl_cons, List.append_cons]
    exact ih (h.push hblock) hrest

/-- A frontier is gone through to its end. -/
theorem foldl_meet (h : Explores dominance seeds done rest work) :
    Explores dominance seeds done [] (rest.foldl .meet work) := by
  induction rest generalizing work with
  | nil => exact h
  | cons block rest ih => exact ih h.meet

/-- The search goes on until no block waits. -/
theorem drain (hrange : ∀ x, ∀ y ∈ dominance.frontierOf x, y < dominance.frontiers.size)
    (h : Explores dominance seeds done [] work) :
    (dominance.drain work).stack = [] ∧
      Explores dominance seeds (done ++ dominance.expanded work) [] (dominance.drain work) := by
  fun_induction Dominance.drain dominance work generalizing done with
  | case1 queued found =>
    rw [Dominance.expanded, List.append_nil]
    exact ⟨rfl, h⟩
  | case2 block stack queued found ih =>
    rw [Dominance.expanded, List.append_cons]
    exact ih (h.pop hrange).foldl_meet

end Explores

end Worklist

namespace Dominance

variable {dominance : Dominance} {seeds : List BlockId}

/-- The work of a search that is to begin with `seeds`. -/
def startAt (dominance : Dominance) (seeds : List BlockId) : Worklist :=
  seeds.foldl .push (.empty dominance.frontiers.size)

section Search

variable (hrange : ∀ x, ∀ y ∈ dominance.frontierOf x, y < dominance.frontiers.size)
variable (hseeds : ∀ x ∈ seeds, x < dominance.frontiers.size)

include hrange hseeds

theorem explores_drain :
    (dominance.drain (dominance.startAt seeds)).stack = [] ∧
      Worklist.Explores dominance seeds (dominance.expanded (dominance.startAt seeds)) []
        (dominance.drain (dominance.startAt seeds)) :=
  ((Worklist.Explores.start dominance).foldl_push hseeds).drain hrange

/-- The search looks at the frontiers of the given and of the found blocks, and of each of
them once: also of a block that is given and found. -/
theorem expanded_once :
    (dominance.expanded (dominance.startAt seeds)).Nodup ∧
      ∀ x, x ∈ dominance.expanded (dominance.startAt seeds) ↔ x ∈ seeds ∨
        (dominance.drain (dominance.startAt seeds)).found.contains x = true := by
  obtain ⟨hstack, hend⟩ := explores_drain hrange hseeds
  have hnodup := hend.nodup
  have hqueued := hend.queued_iff
  -- nothing waits any more
  rw [hstack, List.append_nil] at hnodup hqueued
  exact ⟨hnodup, fun x => (hqueued x).symm.trans (hend.origin x)⟩

/-- The search finds the least set that holds the frontiers of the given blocks and of its
members. -/
theorem isLeast_drain :
    IsLeast {region | dominance.Closed seeds region}
      {x | (dominance.drain (dominance.startAt seeds)).found.contains x = true} := by
  obtain ⟨-, hend⟩ := explores_drain hrange hseeds
  obtain ⟨-, hexpanded⟩ := expanded_once hrange hseeds
  refine ⟨fun x hx y hy => ?_, fun region hclosed x hx => ?_⟩
  · exact (hend.expanded x ((hexpanded x).mpr hx) y hy).resolve_right List.not_mem_nil
  · exact hend.least region hclosed x (.inl hx)

end Search

/-- What a search that begins with `blocks` finds, in the order of the analysis. -/
def closeFrontier (dominance : Dominance) (blocks : List BlockId) : List BlockId :=
  dominance.met (dominance.drain (dominance.startAt blocks))

/-- Blocks are queued up to the first one that is out of reach. -/
theorem queue_eq (dominance : Dominance) (blocks : List BlockId) (work : Worklist) :
    dominance.queue blocks work =
      match blocks.find? fun block => !dominance.isReachable block with
      | some block => .error (.unreachableBlock block dominance.head)
      | none => .ok (blocks.foldl .push work) := by
  induction blocks generalizing work with
  | nil => rfl
  | cons block blocks ih =>
    rw [queue, List.find?_cons]
    cases hreach : dominance.isReachable block with
    | false => rfl
    | true => exact ih (work.push block)

theorem iteratedFrontier_eq (dominance : Dominance) (blocks : List BlockId) :
    dominance.iteratedFrontier blocks =
      match blocks.find? fun block => !dominance.isReachable block with
      | some block => .error (.unreachableBlock block dominance.head)
      | none => .ok (dominance.closeFrontier blocks) := by
  rw [iteratedFrontier, queue_eq]
  cases blocks.find? fun block => !dominance.isReachable block with
  | some block => rfl
  | none => rfl

end Dominance

end MinimalSsa
