import MinimalSsa.Text

/-!
# Sets of blocks

A set of blocks of one graph, as a table with a mark per block. A block is in
the set, lacking from it, or no block of the graph at all.

* `BlockSet.insert`, `BlockSet.contains`, `BlockSet.lacks`: the operations.
* `BlockSet.free`: the number of blocks not in the set. It falls with every new
  member (`BlockSet.free_insert_lt`), which is why searches end.
-/

namespace MinimalSsa

/-- A set of blocks, as a table of marks. -/
structure BlockSet where
  marks : Array Bool
  deriving DecidableEq, Inhabited

namespace BlockSet

/-- The set without members, for a graph of `size` blocks. -/
def empty (size : Nat) : BlockSet :=
  ⟨Array.replicate size false⟩

/-- The number of blocks there are, members or not. -/
def size (set : BlockSet) : Nat :=
  set.marks.size

/-- Is the block a member? -/
def contains (set : BlockSet) (block : BlockId) : Bool :=
  set.marks[block]? == some true

/-- Is it a block of the graph, and not a member? -/
def lacks (set : BlockSet) (block : BlockId) : Bool :=
  set.marks[block]? == some false

/-- The set with one more member. -/
def insert (set : BlockSet) (block : BlockId) : BlockSet :=
  ⟨set.marks.setIfInBounds block true⟩

/-- The set with further members. -/
def insertAll (set : BlockSet) (blocks : List BlockId) : BlockSet :=
  blocks.foldl insert set

/-- The number of blocks that are not members. -/
def free (set : BlockSet) : Nat :=
  set.marks.count false

/-- The members in ascending order. -/
def toList (set : BlockSet) : List BlockId :=
  (List.range set.size).filter set.contains

/-- The blocks that are not members, in ascending order. -/
def complement (set : BlockSet) : List BlockId :=
  (List.range set.size).filter set.lacks

/-- A set is about the same blocks whatever its members. -/
@[simp] theorem size_insert (set : BlockSet) (block : BlockId) :
    (set.insert block).size = set.size := by
  simp [size, insert]

@[simp] theorem size_insertAll (set : BlockSet) (blocks : List BlockId) :
    (set.insertAll blocks).size = set.size := by
  induction blocks generalizing set with
  | nil => rfl
  | cons block rest ih => exact (ih (set.insert block)).trans (size_insert set block)

@[simp] theorem contains_empty (size : Nat) (block : BlockId) :
    (empty size).contains block = false := by
  by_cases h : block < size
  · simp [empty, contains, h]
  · simp [empty, contains, h]

/-- The members after an insertion are those before it and the new one. -/
theorem contains_insert {set : BlockSet} {block : BlockId} (h : block < set.size)
    (other : BlockId) :
    (set.insert block).contains other = (block == other || set.contains other) := by
  have hsize : block < set.marks.size := h
  by_cases heq : block = other
  · subst heq
    simp [contains, insert, hsize]
  · simp [contains, insert, Array.getElem?_setIfInBounds_ne heq,
      beq_eq_false_iff_ne.mpr heq]

/-- A new member leaves fewer blocks outside. -/
theorem free_insert_lt {set : BlockSet} {block : BlockId} (h : set.lacks block = true) :
    (set.insert block).free < set.free := by
  obtain ⟨marks⟩ := set
  have hlook : marks[block]? = some false := by simpa [lacks] using h
  obtain ⟨hlt, hval⟩ := Array.getElem?_eq_some_iff.mp hlook
  have hpos : 0 < marks.count false :=
    Array.count_pos_iff.mpr (Array.mem_of_getElem? hlook)
  have hcount : (marks.set block true hlt).count false = marks.count false - 1 := by
    rw [Array.count_set hlt, hval]
    simp
  simp only [free, insert, Array.setIfInBounds, hlt, dite_true, hcount]
  omega

end BlockSet

end MinimalSsa
