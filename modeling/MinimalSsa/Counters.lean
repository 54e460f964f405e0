import MinimalSsa.Failure

/-!
# Counters

Named amounts, in the order of their names. A counter that was never added to reads
as zero.

* `Counters.tally`: add to a counter without a limit; this is how statistics that
  count things at hand are summed. `Counters.get_tally` says what it does to every
  counter.
* `Counters.add`: add to a counter that may hold at most `Counters.limit`.
* `Counters.merge`, `Counters.absorb`: add all counters of another set, with and
  without the limit.
-/

namespace MinimalSsa

/-- Named amounts, sorted by name. -/
structure Counters where
  entries : List (String × Nat) := []
  sorted : entries.Pairwise (fun left right => left.1 < right.1) := by exact List.Pairwise.nil
  deriving DecidableEq

namespace Counters

/-- No counters. -/
def empty : Counters := {}

instance : Inhabited Counters := ⟨empty⟩

/-- The largest amount a limited counter may hold. -/
def limit : Nat :=
  UInt64.size - 1

/-- Has nothing been added? -/
def isEmpty (counters : Counters) : Bool :=
  counters.entries.isEmpty

/-- The amount of a counter. -/
def get (counters : Counters) (name : String) : Nat :=
  (counters.entries.lookup name).getD 0

/-! ## Adding without a limit -/

/-- Add an amount at its place in a sorted list. -/
def tallyInto (name : String) (amount : Nat) : List (String × Nat) → List (String × Nat)
  | [] => [(name, amount)]
  | (known, held) :: rest =>
    if known = name then (known, held + amount) :: rest
    else if name < known then (name, amount) :: (known, held) :: rest
    else (known, held) :: tallyInto name amount rest

/-- The names after adding are those before it and the new one. -/
theorem mem_tallyInto {name : String} {amount : Nat} {entries : List (String × Nat)}
    {entry : String × Nat} (h : entry ∈ tallyInto name amount entries) :
    entry.1 = name ∨ ∃ before ∈ entries, before.1 = entry.1 := by
  induction entries with
  | nil =>
    simp only [tallyInto, List.mem_singleton] at h
    exact Or.inl (by rw [h])
  | cons head rest ih =>
    obtain ⟨known, held⟩ := head
    simp only [tallyInto] at h
    split at h
    · -- the counter is at the head
      rcases List.mem_cons.mp h with rfl | hrest
      · exact Or.inr ⟨(known, held), List.mem_cons_self, rfl⟩
      · exact Or.inr ⟨entry, List.mem_cons_of_mem _ hrest, rfl⟩
    · split at h
      · -- the counter is new and comes first
        rcases List.mem_cons.mp h with rfl | hrest
        · exact Or.inl rfl
        · exact Or.inr ⟨entry, hrest, rfl⟩
      · -- the counter comes later
        rcases List.mem_cons.mp h with rfl | hrest
        · exact Or.inr ⟨(known, held), List.mem_cons_self, rfl⟩
        · rcases ih hrest with hname | ⟨before, hmem, hbefore⟩
          · exact Or.inl hname
          · exact Or.inr ⟨before, List.mem_cons_of_mem _ hmem, hbefore⟩

/-- Adding keeps a list sorted. -/
theorem sorted_tallyInto (name : String) (amount : Nat) {entries : List (String × Nat)}
    (h : entries.Pairwise (fun left right => left.1 < right.1)) :
    (tallyInto name amount entries).Pairwise (fun left right => left.1 < right.1) := by
  induction entries with
  | nil => exact List.pairwise_singleton _ _
  | cons head rest ih =>
    obtain ⟨known, held⟩ := head
    obtain ⟨hhead, hrest⟩ := List.pairwise_cons.mp h
    simp only [tallyInto]
    split
    · exact List.pairwise_cons.mpr ⟨hhead, hrest⟩
    · rename_i hne
      split
      · rename_i hlt
        refine List.pairwise_cons.mpr ⟨fun entry hmem => ?_, h⟩
        rcases List.mem_cons.mp hmem with rfl | hmem
        · exact hlt
        · exact String.lt_trans hlt (hhead entry hmem)
      · rename_i hnlt
        refine List.pairwise_cons.mpr ⟨fun entry hmem => ?_, ih hrest⟩
        rcases mem_tallyInto hmem with hname | ⟨before, hbefore, heq⟩
        · have hle : known ≤ name := String.not_lt.mp hnlt
          rw [hname]
          exact String.not_le.mp fun hge => hne (String.le_antisymm hle hge)
        · rw [← heq]
          exact hhead before hbefore

/-- Add to a counter. -/
def tally (counters : Counters) (name : String) (amount : Nat) : Counters where
  entries := tallyInto name amount counters.entries
  sorted := sorted_tallyInto name amount counters.sorted

/-- A name that comes before all names of a list is not in it. -/
theorem lookup_eq_none {name : String} {entries : List (String × Nat)}
    (h : ∀ entry ∈ entries, name < entry.1) : entries.lookup name = none := by
  refine List.lookup_eq_none_iff.mpr fun entry hmem => ?_
  have hne : name ≠ entry.1 := fun heq => String.lt_irrefl name (heq ▸ h entry hmem)
  simpa using hne

/-- What adding does to the look-up of any name. -/
theorem lookup_tallyInto (name other : String) (amount : Nat)
    {entries : List (String × Nat)}
    (h : entries.Pairwise (fun left right => left.1 < right.1)) :
    ((tallyInto name amount entries).lookup other).getD 0 =
      (entries.lookup other).getD 0 + if other = name then amount else 0 := by
  induction entries with
  | nil =>
    by_cases hother : other = name
    · simp [tallyInto, hother]
    · simp [tallyInto, List.lookup_cons, beq_eq_false_iff_ne.mpr hother, hother]
  | cons head rest ih =>
    obtain ⟨known, held⟩ := head
    obtain ⟨hhead, hrest⟩ := List.pairwise_cons.mp h
    simp only [tallyInto]
    split
    · -- the counter is at the head
      rename_i heq
      by_cases hother : other = known
      · subst heq
        simp [hother]
      · have hname : ¬ other = name := heq ▸ hother
        simp [List.lookup_cons, beq_eq_false_iff_ne.mpr hother, hname]
    · rename_i hne
      split
      · -- the counter is new, so the old list does not have it
        rename_i hlt
        have hnone : ((known, held) :: rest).lookup name = none := by
          refine lookup_eq_none fun entry hmem => ?_
          rcases List.mem_cons.mp hmem with rfl | hmem
          · exact hlt
          · exact String.lt_trans hlt (hhead entry hmem)
        by_cases hother : other = name
        · subst hother
          rw [hnone]
          simp
        · rw [List.lookup_cons, beq_eq_false_iff_ne.mpr hother]
          simp [hother]
      · by_cases hother : other = known
        · have hname : ¬ other = name := fun hname => hne (hother ▸ hname)
          simp [hother, hother ▸ hname]
        · rw [List.lookup_cons, List.lookup_cons, beq_eq_false_iff_ne.mpr hother]
          exact ih hrest

/-- Adding changes one counter, by the amount added. -/
theorem get_tally (counters : Counters) (name other : String) (amount : Nat) :
    (counters.tally name amount).get other =
      counters.get other + if other = name then amount else 0 :=
  lookup_tallyInto name other amount counters.sorted

/-- Add further amounts. -/
def tallyAll (counters : Counters) (amounts : List (String × Nat)) : Counters :=
  amounts.foldl (fun sum (name, amount) => sum.tally name amount) counters

/-- Add all counters of another set. -/
def absorb (counters other : Counters) : Counters :=
  counters.tallyAll other.entries

/-! ## Adding within the limit -/

/-- Add to a counter that must stay within the limit. -/
def add (counters : Counters) (name : String) (amount : Nat) : Except Fault Counters :=
  if counters.get name + amount ≤ limit then .ok (counters.tally name amount)
  else .error .counterOverflow

/-- Add further amounts one by one, within the limit. What was added before a fault
stays added. -/
def addAll (counters : Counters) : List (String × Nat) → Counters × Option Fault
  | [] => (counters, none)
  | (name, amount) :: rest =>
    match counters.add name amount with
    | .ok added => added.addAll rest
    | .error fault => (counters, some fault)

/-- Add all counters of another set in the order of their names, within the limit. -/
def merge (counters other : Counters) : Counters × Option Fault :=
  counters.addAll other.entries

end Counters

end MinimalSsa
