import Mathlib.Data.List.TakeWhile
import MinimalSsa.Operand

/-!
# Texts that can be cut off

A reader goes through a text from the left: a number ends where its digits do, an
item of a list where a comma or a closing bracket stands, and the first character
of an operand tells its form. So a text is looked at together with what follows
it, and a printer is good if the two can be told apart.

* `Stops`: what follows does not continue a word.
* `Legible`: the texts of a printer can be cut off from what follows, unless that
  starts with a digit.
* `Opens`: what the texts of a printer start with.
* `legible_nat`, `legible_int`: numbers, and with them the names of registers,
  blocks and methods.
* `Legible.listed_close`, `Legible.listed_cons`: lists of legible items.
* `Operand.legible_text`: operands.
-/

namespace MinimalSsa

/-! ## Words and what follows them -/

/-- What follows does not go on with a character of the kind `kind`. -/
def Stops (kind : Char → Bool) (rest : List Char) : Prop :=
  ∀ c ∈ rest.head?, kind c = false

@[simp] theorem stops_nil (kind : Char → Bool) : Stops kind [] := by
  simp [Stops]

@[simp] theorem stops_cons {kind : Char → Bool} {c : Char} {rest : List Char} :
    Stops kind (c :: rest) ↔ kind c = false := by
  simp [Stops]

theorem Stops.takeWhile_eq_nil {kind : Char → Bool} {rest : List Char}
    (h : Stops kind rest) : rest.takeWhile kind = [] := by
  cases rest with
  | nil => rfl
  | cons c rest => exact List.takeWhile_cons_of_neg (by simp [stops_cons.mp h])

/-- A word of one kind of characters ends where another kind begins. -/
theorem append_inj_of_stops {kind : Char → Bool} {word word' rest rest' : List Char}
    (hword : ∀ c ∈ word, kind c = true) (hword' : ∀ c ∈ word', kind c = true)
    (hrest : Stops kind rest) (hrest' : Stops kind rest')
    (h : word ++ rest = word' ++ rest') : word = word' ∧ rest = rest' := by
  have htaken := congrArg (List.takeWhile kind) h
  rw [List.takeWhile_append_of_pos hword, List.takeWhile_append_of_pos hword',
    hrest.takeWhile_eq_nil, hrest'.takeWhile_eq_nil, List.append_nil, List.append_nil] at htaken
  subst htaken
  exact ⟨rfl, List.append_cancel_left h⟩

/-- Every text of the printer can be cut off from what follows it, provided that
does not start with a digit. -/
def Legible {α : Type} (print : α → String) : Prop :=
  ∀ ⦃a b : α⦄ ⦃rest rest' : List Char⦄,
    Stops Char.isDigit rest → Stops Char.isDigit rest' →
    (print a).toList ++ rest = (print b).toList ++ rest' → a = b ∧ rest = rest'

/-- The texts of the printer are not empty, and `initial` holds of their first
characters. -/
def Opens {α : Type} (print : α → String) (initial : α → Char → Prop) : Prop :=
  ∀ a, ∃ c ∈ (print a).toList.head?, initial a c

section Printers

variable {α : Type} {print : α → String} {initial : α → Char → Prop}

theorem Legible.injective (hprint : Legible print) : Function.Injective print := by
  intro a b h
  exact (hprint (stops_nil _) (stops_nil _) (by rw [h])).1

theorem Legible.prefixed (hprint : Legible print) (word : String) :
    Legible fun a => word ++ print a := by
  intro a b rest rest' hrest hrest' h
  simp only [String.toList_append, List.append_assoc] at h
  exact hprint hrest hrest' (List.append_cancel_left h)

/-- Texts that agree start with a character either of them can start with. -/
theorem Opens.common (hopens : Opens print initial) {a b : α} {rest rest' : List Char}
    (h : (print a).toList ++ rest = (print b).toList ++ rest') :
    ∃ c, initial a c ∧ initial b c := by
  obtain ⟨c, hhead, hc⟩ := hopens a
  obtain ⟨c', hhead', hc'⟩ := hopens b
  have hsame : some c = some c' := by
    simpa [List.head?_append, Option.mem_def.mp hhead, Option.mem_def.mp hhead']
      using congrArg List.head? h
  obtain rfl := Option.some.inj hsame
  exact ⟨c, hc, hc'⟩

end Printers

/-! ## Numbers and names -/

theorem toList_toString_nat (n : Nat) : (toString n).toList = Nat.toDigits 10 n := by
  rw [Nat.toString_eq_repr, Nat.toList_repr]

theorem isDigit_of_mem_toString {n : Nat} {c : Char} (h : c ∈ (toString n).toList) :
    c.isDigit = true := by
  rw [toList_toString_nat] at h
  exact Nat.isDigit_of_mem_toDigits (by decide) (by decide) h

theorem legible_nat : Legible (toString : Nat → String) := by
  intro m n rest rest' hrest hrest' h
  obtain ⟨hdigits, hrest⟩ := append_inj_of_stops (fun _ => isDigit_of_mem_toString)
    (fun _ => isDigit_of_mem_toString) hrest hrest' h
  rw [toList_toString_nat, toList_toString_nat] at hdigits
  have hvalue := congrArg (fun digits => Nat.ofDigitChars 10 digits 0) hdigits
  exact ⟨by simpa using hvalue, hrest⟩

theorem opens_nat : Opens (toString : Nat → String) fun _ c => c.isDigit = true := by
  intro n
  cases h : (toString n).toList with
  | nil =>
    rw [toList_toString_nat] at h
    exact absurd h Nat.toDigits_ne_nil
  | cons c tail => exact ⟨c, rfl, isDigit_of_mem_toString (h ▸ List.mem_cons_self)⟩

theorem toString_int_of_nonneg {i : Int} (h : 0 ≤ i) : toString i = toString i.natAbs := by
  rw [Int.toString_eq_repr, Int.repr_eq_if, if_pos h, Nat.toString_eq_repr]
  congr 1
  omega

theorem toString_int_of_neg {i : Int} (h : i < 0) : toString i = "-" ++ toString i.natAbs := by
  rw [Int.toString_eq_repr, Int.repr_eq_if, if_neg (by omega), Nat.toString_eq_repr]
  congr 2
  omega

/-- The first characters of a number in print. -/
def numberInitial (i : Int) (c : Char) : Prop :=
  if i < 0 then c = '-' else c.isDigit = true

theorem neg_iff_of_numberInitial {i : Int} {c : Char} (h : numberInitial i c) :
    i < 0 ↔ c = '-' := by
  rw [numberInitial] at h
  split at h
  · exact ⟨fun _ => h, fun _ => ‹_›⟩
  · refine ⟨fun hneg => absurd hneg ‹_›, fun hsign => ?_⟩
    rw [hsign] at h
    exact absurd h (by decide)

theorem not_numberInitial {i : Int} {c : Char} (hdigit : c.isDigit = false) (hsign : c ≠ '-') :
    ¬ numberInitial i c := by
  rw [numberInitial]
  split <;> simp [hdigit, hsign]

theorem opens_int : Opens (toString : Int → String) numberInitial := by
  intro i
  by_cases hneg : i < 0
  · rw [toString_int_of_neg hneg]
    exact ⟨'-', by simp, by rw [numberInitial, if_pos hneg]⟩
  · rw [toString_int_of_nonneg (by omega)]
    obtain ⟨c, hhead, hc⟩ := opens_nat i.natAbs
    exact ⟨c, hhead, by rwa [numberInitial, if_neg hneg]⟩

theorem legible_int : Legible (toString : Int → String) := by
  intro i j rest rest' hrest hrest' h
  obtain ⟨c, hi, hj⟩ := opens_int.common h
  -- the first character shows that the signs agree
  have hsign : i < 0 ↔ j < 0 :=
    (neg_iff_of_numberInitial hi).trans (neg_iff_of_numberInitial hj).symm
  by_cases hneg : i < 0
  · rw [toString_int_of_neg hneg, toString_int_of_neg (hsign.mp hneg)] at h
    obtain ⟨habs, hrest⟩ := legible_nat.prefixed "-" hrest hrest' h
    exact ⟨by omega, hrest⟩
  · rw [toString_int_of_nonneg (by omega), toString_int_of_nonneg (by omega)] at h
    obtain ⟨habs, hrest⟩ := legible_nat hrest hrest' h
    exact ⟨by omega, hrest⟩

theorem Register.legible_text : Legible Register.text :=
  legible_nat.prefixed "%"

theorem BlockId.legible_text : Legible BlockId.text :=
  legible_nat.prefixed "bb"

theorem MethodId.legible_text : Legible MethodId.text :=
  legible_nat.prefixed "fn"

theorem BlockId.opens_text : Opens BlockId.text fun _ c => c = 'b' := by
  intro block
  exact ⟨'b', by simp [BlockId.text], rfl⟩

/-! ## Lists -/

/-- The items of a list after its first one. -/
def separated (items : List String) : List Char :=
  items.flatMap fun item => ',' :: ' ' :: item.toList

theorem toList_listed_cons (item : String) (items : List String) :
    (listed (item :: items)).toList = item.toList ++ separated items := by
  induction items generalizing item with
  | nil => simp [listed, separated]
  | cons next items ih =>
    have hnext := ih next
    rw [listed] at hnext
    rw [listed, String.intercalate_cons_cons]
    simp [hnext, separated]

/-- What follows goes on neither with a digit nor with another item. -/
abbrev Closes (rest : List Char) : Prop :=
  Stops (fun c => c.isDigit || c == ',') rest

theorem Closes.stops_separated {rest : List Char} (h : Closes rest) (items : List String) :
    Stops Char.isDigit (separated items ++ rest) := by
  cases items with
  | nil =>
    cases rest with
    | nil => exact stops_nil _
    | cons c rest =>
      rw [Closes, stops_cons, Bool.or_eq_false_iff] at h
      exact stops_cons.mpr h.1
  | cons item items => simp [separated]

section Lists

variable {α : Type} {print : α → String} {initial : α → Char → Prop} {rest rest' : List Char}

theorem Legible.separated (hprint : Legible print) (hrest : Closes rest) (hrest' : Closes rest')
    {xs ys : List α}
    (h : separated (xs.map print) ++ rest = separated (ys.map print) ++ rest') :
    xs = ys ∧ rest = rest' := by
  induction xs generalizing ys with
  | nil =>
    cases ys with
    | nil => exact ⟨rfl, h⟩
    | cons y ys =>
      obtain rfl : rest = _ := h
      simp [MinimalSsa.separated] at hrest
  | cons x xs ih =>
    cases ys with
    | nil =>
      obtain rfl : _ = rest' := h
      simp [MinimalSsa.separated] at hrest'
    | cons y ys =>
      simp only [List.map_cons, MinimalSsa.separated, List.flatMap_cons, List.cons_append,
        List.append_assoc, List.cons.injEq, true_and] at h
      obtain ⟨rfl, htail⟩ := hprint (hrest.stops_separated _) (hrest'.stops_separated _) h
      obtain ⟨rfl, hrest⟩ := ih htail
      exact ⟨rfl, hrest⟩

/-- Lists that are not empty can be told from each other. -/
theorem Legible.listed_cons (hprint : Legible print) (hrest : Closes rest)
    (hrest' : Closes rest') {x y : α} {xs ys : List α}
    (h : (listed ((x :: xs).map print)).toList ++ rest =
      (listed ((y :: ys).map print)).toList ++ rest') :
    x :: xs = y :: ys ∧ rest = rest' := by
  simp only [List.map_cons, toList_listed_cons, List.append_assoc] at h
  obtain ⟨rfl, htail⟩ := hprint (hrest.stops_separated _) (hrest'.stops_separated _) h
  obtain ⟨rfl, hrest⟩ := hprint.separated hrest hrest' htail
  exact ⟨rfl, hrest⟩

/-- A list before a bracket that starts no item can be told from any other. -/
theorem Legible.listed_close (hprint : Legible print) (hopens : Opens print initial)
    {close : Char} (hclose : Closes [close]) (hinitial : ∀ a, ¬ initial a close) {xs ys : List α}
    (h : (listed (xs.map print)).toList ++ close :: rest =
      (listed (ys.map print)).toList ++ close :: rest') :
    xs = ys ∧ rest = rest' := by
  -- an item cannot start where the other list is already closed
  have hfirst : ∀ {y : α} {ys : List α} {rest rest' : List Char},
      close :: rest ≠ (listed ((y :: ys).map print)).toList ++ rest' := by
    intro y ys rest rest' hsame
    obtain ⟨c, hhead, hc⟩ := hopens y
    rw [List.map_cons, toList_listed_cons, List.append_assoc] at hsame
    obtain rfl : close = c := by
      simpa [List.head?_append, Option.mem_def.mp hhead] using congrArg List.head? hsame
    exact hinitial y hc
  cases xs with
  | nil =>
    cases ys with
    | nil => exact ⟨rfl, (List.cons.inj h).2⟩
    | cons y ys => exact absurd h hfirst
  | cons x xs =>
    cases ys with
    | nil => exact absurd h.symm hfirst
    | cons y ys =>
      have hcloses : ∀ rest, Closes (close :: rest) := fun rest => by simpa using hclose
      obtain ⟨hlist, hrest⟩ := hprint.listed_cons (hcloses _) (hcloses _) h
      exact ⟨hlist, (List.cons.inj hrest).2⟩

end Lists

/-! ## Operands -/

namespace Literal

/-- The first characters of a constant in print. -/
def Initial : Literal → Char → Prop
  | .integer value, c => numberInitial value.toInt c
  | .boolean true, c => c = 't'
  | .boolean false, c => c = 'f'
  | .null, c => c = 'n'

theorem opens_text : Opens text Initial := by
  intro value
  cases value with
  | integer value => exact opens_int value.toInt
  | boolean value =>
    cases value with
    | true => exact ⟨'t', rfl, rfl⟩
    | false => exact ⟨'f', rfl, rfl⟩
  | null => exact ⟨'n', rfl, rfl⟩

theorem not_initial {value : Literal} {c : Char} (hdigit : c.isDigit = false)
    (hc : c ∉ ['-', 't', 'f', 'n']) : ¬ value.Initial c := by
  simp only [List.mem_cons, List.not_mem_nil, or_false, not_or] at hc
  cases value with
  | integer value => exact not_numberInitial hdigit hc.1
  | boolean value => cases value <;> simp [Initial, hc]
  | null => simp [Initial, hc]

theorem legible_text : Legible text := by
  intro a b rest rest' hrest hrest' h
  obtain ⟨c, ha, hb⟩ := opens_text.common h
  cases a with
  | integer value =>
    cases b with
    | integer value' =>
      obtain ⟨hvalue, hrest⟩ := legible_int hrest hrest' h
      exact ⟨by rw [Int64.toInt_inj.mp hvalue], hrest⟩
    | boolean value' => cases value' <;> simp_all [Initial, not_numberInitial]
    | null => simp_all [Initial, not_numberInitial]
  | boolean value =>
    cases b with
    | integer value' => cases value <;> simp_all [Initial, not_numberInitial]
    | boolean value' => cases value <;> cases value' <;> simp_all [Initial]
    | null => cases value <;> simp_all [Initial]
  | null =>
    cases b with
    | integer value' => simp_all [Initial, not_numberInitial]
    | boolean value' => cases value' <;> simp_all [Initial]
    | null => exact ⟨rfl, List.append_cancel_left h⟩

end Literal

namespace Operand

/-- The first characters of an operand in print. -/
def Initial : Operand → Char → Prop
  | .register _, c => c = '%'
  | .machine _, c => c = 'r'
  | .literal value, c => value.Initial c
  | .memory _ _, c => c = '['

/-- A memory cell in print, with its sign and its distance apart. -/
theorem text_memory (base : Register) (offset : Int32) :
    (Operand.memory base offset).text = "[" ++ Register.text base ++
      (if offset.toInt < 0 then " - " else " + ") ++ toString offset.toInt.natAbs ++ "]" := by
  rw [text]
  split <;> rfl

theorem opens_text : Opens text Initial := by
  intro operand
  cases operand with
  | register id => exact ⟨'%', by simp [text, Register.text], rfl⟩
  | machine number => exact ⟨'r', by simp [text], rfl⟩
  | literal value => exact Literal.opens_text value
  | memory base offset => exact ⟨'[', by simp [text_memory], rfl⟩

theorem not_initial {operand : Operand} {c : Char} (hdigit : c.isDigit = false)
    (hc : c ∉ ['-', 't', 'f', 'n', '%', 'r', '[']) : ¬ operand.Initial c := by
  simp only [List.mem_cons, List.not_mem_nil, or_false, not_or] at hc
  cases operand with
  | literal value => exact Literal.not_initial hdigit (by simp [hc])
  | _ => simp [Initial, hc]

/-- The sign of an offset stands between the base and the distance, so it is
read before the distance is. -/
theorem memory_inj_of_text {base base' : Register} {offset offset' : Int32}
    {rest rest' : List Char}
    (h : (Operand.memory base offset).text.toList ++ rest =
      (Operand.memory base' offset').text.toList ++ rest') :
    Operand.memory base offset = .memory base' offset' ∧ rest = rest' := by
  have hstops : ∀ (offset : Int32) (tail : List Char), Stops Char.isDigit
      ((if offset.toInt < 0 then " - " else " + " : String).toList ++ tail) := by
    intro offset tail
    split <;> simp
  rw [text_memory, text_memory] at h
  simp only [String.toList_append, List.append_assoc] at h
  obtain ⟨rfl, hoffset⟩ :=
    Register.legible_text (hstops _ _) (hstops _ _) (List.append_cancel_left h)
  have hsign : offset.toInt < 0 ↔ offset'.toInt < 0 := by
    by_cases hneg : offset.toInt < 0 <;> by_cases hneg' : offset'.toInt < 0 <;>
      simp [hneg, hneg'] at hoffset ⊢
  simp only [hsign] at hoffset
  obtain ⟨hdistance, hclose⟩ :=
    legible_nat (by simp) (by simp) (List.append_cancel_left hoffset)
  have hvalue : offset.toInt = offset'.toInt := by omega
  exact ⟨by rw [Int32.toInt_inj.mp hvalue], List.append_cancel_left hclose⟩

theorem legible_text : Legible text := by
  intro a b rest rest' hrest hrest' h
  obtain ⟨c, ha, hb⟩ := opens_text.common h
  cases a with
  | register id =>
    cases b with
    | register id' =>
      obtain ⟨rfl, hrest⟩ := Register.legible_text hrest hrest' h
      exact ⟨rfl, hrest⟩
    | _ => simp_all [Initial, Literal.not_initial]
  | machine number =>
    cases b with
    | machine number' =>
      obtain ⟨hnumber, hrest⟩ := legible_nat.prefixed "r" hrest hrest' h
      exact ⟨by rw [UInt8.toNat_inj.mp hnumber], hrest⟩
    | _ => simp_all [Initial, Literal.not_initial]
  | literal value =>
    cases b with
    | literal value' =>
      obtain ⟨rfl, hrest⟩ := Literal.legible_text hrest hrest' h
      exact ⟨rfl, hrest⟩
    | _ => simp_all [Initial, Literal.not_initial]
  | memory base offset =>
    cases b with
    | memory base' offset' => exact memory_inj_of_text h
    | _ => simp_all [Initial, Literal.not_initial]

end Operand

end MinimalSsa
