import MinimalSsa.Instruction
import MinimalSsa.Proofs.Legible
import MinimalSsa.Terminator

/-!
# Printed code is unambiguous

Equal texts are texts of equal code. The text of an instruction names its result,
if it has one, and the right-hand side after it starts with a letter of its form
or with an operand. A terminator starts with a letter of its form.

* `Action.text_eq`: an action in print is its result and its right-hand side.
* `Action.eq_of_valueText_eq`: these two determine it.
* `Action.eq_of_text_eq`, `Terminator.text_injective`: the texts of actions and
  terminators.
* `text_eq_text_iff`: equal texts belong to equal code, and only they do.
-/

namespace MinimalSsa

/-! ## Instructions -/

theorem BinaryOp.symbol_injective : Function.Injective symbol := by
  intro a b h
  cases a <;> cases b <;> first | rfl | simp [symbol] at h

theorem BinaryOp.ne_blank_of_mem_symbol {op : BinaryOp} {c : Char} (h : c ∈ op.symbol.toList) :
    (c != ' ') = true := by
  rw [bne_iff_ne]
  rintro rfl
  cases op <;> simp [symbol] at h

/-- An operator ends at the blank after it. -/
theorem BinaryOp.symbol_inj_of_blank {op op' : BinaryOp} {rest rest' : List Char}
    (h : op.symbol.toList ++ ' ' :: rest = op'.symbol.toList ++ ' ' :: rest') :
    op = op' ∧ rest = rest' := by
  obtain ⟨hsymbol, hrest⟩ := append_inj_of_stops (fun _ => ne_blank_of_mem_symbol)
    (fun _ => ne_blank_of_mem_symbol) (by simp) (by simp) h
  exact ⟨symbol_injective (String.toList_inj.mp hsymbol), (List.cons.inj hrest).2⟩

namespace Action

/-- A phi has as many operands as incoming blocks. -/
def Paired : Action → Prop
  | .phi _ operands sources => operands.length = sources.length
  | _ => True

/-- What stands right of the equals sign, or the whole text where there is none. -/
def valueText : Action → String
  | .nop => "nop"
  | .move _ source => source.text
  | .binary op _ left right => left.text ++ " " ++ op.symbol ++ " " ++ right.text
  | .load _ address => "load " ++ address.text
  | .store address value => "store " ++ address.text ++ ", " ++ value.text
  | .call _ callee arguments => callText callee arguments
  | .phi _ operands sources =>
    match List.zipWith slotText operands sources with
    | [] => "phi"
    | slots => "phi " ++ listed slots

/-- The text of an action names its result first. -/
theorem text_eq (action : Action) (comment : Option String) :
    action.text = match (Instruction.mk action comment).result with
      | some dest => dest.text ++ " = " ++ action.valueText
      | none => action.valueText := by
  apply String.toList_injective
  cases action with
  | call dest callee arguments => cases dest <;> rfl
  | phi dest operands sources =>
    simp only [text, valueText, Instruction.result, Operand.text]
    cases List.zipWith slotText operands sources <;> simp
  | nop => rfl
  | _ => simp [text, valueText, Instruction.result]

/-- The letters that right-hand sides start with and operands do not. -/
def keyletters : List Char :=
  ['l', 's', 'c', 'p']

/-- The letter that tells the form of a right-hand side. -/
def keyletter? : Action → Option Char
  | .nop | .move _ _ | .binary _ _ _ _ => none
  | .load _ _ => some 'l'
  | .store _ _ => some 's'
  | .call _ _ _ => some 'c'
  | .phi _ _ _ => some 'p'

theorem find?_keyletters_of_initial {operand : Operand} {c : Char} (h : operand.Initial c) :
    keyletters.find? (· == c) = none := by
  have hletters : ∀ letter ∈ keyletters,
      letter.isDigit = false ∧ letter ∉ ['-', 't', 'f', 'n', '%', 'r', '['] := by
    simp [keyletters]
  rw [List.find?_eq_none]
  intro letter hletter hsame
  obtain rfl := beq_iff_eq.mp hsame
  obtain ⟨hdigit, hother⟩ := hletters letter hletter
  exact Operand.not_initial hdigit hother h

theorem opens_valueText :
    Opens valueText fun action c => keyletters.find? (· == c) = action.keyletter? := by
  intro action
  cases action with
  | nop => exact ⟨'n', rfl, rfl⟩
  | move dest source =>
    obtain ⟨c, hhead, hc⟩ := Operand.opens_text source
    exact ⟨c, hhead, find?_keyletters_of_initial hc⟩
  | binary op dest left right =>
    obtain ⟨c, hhead, hc⟩ := Operand.opens_text left
    refine ⟨c, ?_, find?_keyletters_of_initial hc⟩
    simp [valueText, List.head?_append, Option.mem_def.mp hhead]
  | load dest address => exact ⟨'l', by simp [valueText], rfl⟩
  | store address value => exact ⟨'s', by simp [valueText], rfl⟩
  | call dest callee arguments => exact ⟨'c', by simp [valueText, callText], rfl⟩
  | phi dest operands sources =>
    refine ⟨'p', ?_, rfl⟩
    simp only [valueText]
    cases List.zipWith slotText operands sources <;> simp

theorem keyletter?_eq_of_valueText {action action' : Action}
    (h : action.valueText = action'.valueText) : action.keyletter? = action'.keyletter? := by
  obtain ⟨c, hc, hc'⟩ :=
    opens_valueText.common (congrArg (fun text => text.toList ++ []) h)
  rw [← hc, hc']

theorem legible_slotText : Legible fun slot : Operand × BlockId => slotText slot.1 slot.2 := by
  rintro ⟨operand, source⟩ ⟨operand', source'⟩ rest rest' - - h
  simp only [slotText, String.toList_append, List.append_assoc] at h
  obtain ⟨rfl, hsource⟩ :=
    Operand.legible_text (by simp) (by simp) (List.append_cancel_left h)
  obtain ⟨rfl, hclose⟩ :=
    BlockId.legible_text (by simp) (by simp) (List.append_cancel_left hsource)
  exact ⟨rfl, List.append_cancel_left hclose⟩

/-- A phi in print: a blank and the slots follow the word, if there are any. -/
theorem toList_valueText_phi (dest : Register) (operands : List Operand)
    (sources : List BlockId) :
    (Action.phi dest operands sources).valueText.toList = "phi".toList ++
      match operands.zip sources with
      | [] => []
      | slots => ' ' :: (listed (slots.map fun slot => slotText slot.1 slot.2)).toList := by
  have hslots : List.zipWith slotText operands sources =
      (operands.zip sources).map fun slot => slotText slot.1 slot.2 := by
    rw [List.zip, List.map_zipWith]
  rw [valueText, hslots]
  cases operands.zip sources with
  | nil => rfl
  | cons slot slots => exact String.toList_append

theorem zip_eq_of_valueText {dest dest' : Register} {operands operands' : List Operand}
    {sources sources' : List BlockId}
    (h : (Action.phi dest operands sources).valueText =
      (Action.phi dest' operands' sources').valueText) :
    operands.zip sources = operands'.zip sources' := by
  have hchars := congrArg String.toList h
  rw [toList_valueText_phi, toList_valueText_phi] at hchars
  have hslots := List.append_cancel_left hchars
  generalize operands.zip sources = slots at hslots ⊢
  generalize operands'.zip sources' = slots' at hslots ⊢
  cases slots with
  | nil =>
    cases slots' with
    | nil => rfl
    | cons slot slots => exact absurd hslots.symm (List.cons_ne_nil _ _)
  | cons slot slots =>
    cases slots' with
    | nil => exact absurd hslots (List.cons_ne_nil _ _)
    | cons slot' slots' =>
      have hlisted := congrArg (· ++ []) (List.cons.inj hslots).2
      exact (legible_slotText.listed_cons (stops_nil _) (stops_nil _) hlisted).1

theorem callText_inj {callee callee' : MethodId} {arguments arguments' : List Operand}
    (h : callText callee arguments = callText callee' arguments') :
    callee = callee' ∧ arguments = arguments' := by
  have hchars := congrArg String.toList h
  simp only [callText, String.toList_append, List.append_assoc] at hchars
  obtain ⟨rfl, hlist⟩ :=
    MethodId.legible_text (by simp) (by simp) (List.append_cancel_left hchars)
  have hclosed : (listed (arguments.map Operand.text)).toList ++ ')' :: [] =
      (listed (arguments'.map Operand.text)).toList ++ ')' :: [] :=
    List.append_cancel_left hlist
  have harguments := Operand.legible_text.listed_close Operand.opens_text (by simp)
    (fun _ => Operand.not_initial (by decide) (by decide)) hclosed
  exact ⟨rfl, harguments.1⟩

/-- An operand alone is no operation. -/
theorem text_ne_binary {source left right : Operand} {op : BinaryOp} :
    source.text ≠ left.text ++ " " ++ op.symbol ++ " " ++ right.text := by
  intro h
  have hchars := congrArg (fun text => text.toList ++ []) h
  simp only [String.toList_append, List.append_assoc] at hchars
  obtain ⟨-, hrest⟩ := Operand.legible_text (by simp) (by simp) hchars
  simp at hrest

theorem binary_inj_of_text {op op' : BinaryOp} {left left' right right' : Operand}
    (h : left.text ++ " " ++ op.symbol ++ " " ++ right.text =
      left'.text ++ " " ++ op'.symbol ++ " " ++ right'.text) :
    op = op' ∧ left = left' ∧ right = right' := by
  have hchars := congrArg String.toList h
  simp only [String.toList_append, List.append_assoc] at hchars
  obtain ⟨rfl, hrest⟩ := Operand.legible_text (by simp) (by simp) hchars
  obtain ⟨rfl, hright⟩ := BinaryOp.symbol_inj_of_blank (List.append_cancel_left hrest)
  exact ⟨rfl, rfl, Operand.legible_text.injective (String.toList_injective hright)⟩

theorem store_inj_of_text {address address' value value' : Operand}
    (h : "store " ++ address.text ++ ", " ++ value.text =
      "store " ++ address'.text ++ ", " ++ value'.text) :
    address = address' ∧ value = value' := by
  have hchars := congrArg String.toList h
  simp only [String.toList_append, List.append_assoc] at hchars
  obtain ⟨rfl, hrest⟩ :=
    Operand.legible_text (by simp) (by simp) (List.append_cancel_left hchars)
  have hvalue := String.toList_injective (List.append_cancel_left hrest)
  exact ⟨rfl, Operand.legible_text.injective hvalue⟩

/-- Actions with one result and one right-hand side are one action. -/
theorem eq_of_valueText_eq {action action' : Action} (hpaired : action.Paired)
    (hpaired' : action'.Paired)
    (hresult : (Instruction.mk action none).result = (Instruction.mk action' none).result)
    (h : action.valueText = action'.valueText) : action = action' := by
  have hletter := keyletter?_eq_of_valueText h
  cases action with
  | nop =>
    cases action' with
    | nop => rfl
    | _ => simp_all [keyletter?, Instruction.result]
  | move dest source =>
    cases action' with
    | move dest' source' =>
      obtain rfl := Option.some.inj hresult
      rw [Operand.legible_text.injective h]
    | binary op dest' left right => exact absurd h text_ne_binary
    | _ => simp_all [keyletter?, Instruction.result]
  | binary op dest left right =>
    cases action' with
    | move dest' source => exact absurd h.symm text_ne_binary
    | binary op' dest' left' right' =>
      obtain rfl := Option.some.inj hresult
      obtain ⟨rfl, rfl, rfl⟩ := binary_inj_of_text h
      rfl
    | _ => simp_all [keyletter?, Instruction.result]
  | load dest address =>
    cases action' with
    | load dest' address' =>
      obtain rfl := Option.some.inj hresult
      rw [(Operand.legible_text.prefixed "load ").injective h]
    | _ => simp [keyletter?] at hletter
  | store address value =>
    cases action' with
    | store address' value' =>
      obtain ⟨rfl, rfl⟩ := store_inj_of_text h
      rfl
    | _ => simp [keyletter?] at hletter
  | call dest callee arguments =>
    cases action' with
    | call dest' callee' arguments' =>
      obtain rfl : dest = dest' := hresult
      obtain ⟨rfl, rfl⟩ := callText_inj h
      rfl
    | _ => simp [keyletter?] at hletter
  | phi dest operands sources =>
    cases action' with
    | phi dest' operands' sources' =>
      obtain rfl := Operand.register.inj (Option.some.inj hresult)
      have hslots := zip_eq_of_valueText h
      -- lists of one length can be read back from the slots
      have hoperands := congrArg (List.map Prod.fst) hslots
      have hsources := congrArg (List.map Prod.snd) hslots
      rw [List.map_fst_zip hpaired.le, List.map_fst_zip hpaired'.le] at hoperands
      rw [List.map_snd_zip hpaired.ge, List.map_snd_zip hpaired'.ge] at hsources
      rw [hoperands, hsources]
    | _ => simp [keyletter?] at hletter

/-- A text that names a result first is not one of an action without a result: no
operand starts with the letter of a store or a call, and `nop` is too short. -/
theorem text_ne_of_result {dest : Operand} {value : String} {action : Action}
    (hresult : (Instruction.mk action none).result = none) :
    dest.text ++ " = " ++ value ≠ action.valueText := by
  intro h
  obtain ⟨c, hhead, hc⟩ := Operand.opens_text dest
  obtain ⟨c', hhead', hc'⟩ := opens_valueText action
  obtain rfl : c = c' := by
    rw [← h] at hhead'
    simpa [List.head?_append, Option.mem_def.mp hhead] using hhead'
  rw [find?_keyletters_of_initial hc] at hc'
  cases action with
  | nop =>
    have hdest : dest.text.length ≠ 0 := by
      intro hempty
      simp [String.length_eq_zero_iff.mp hempty] at hhead
    have hlength := congrArg String.length h
    rw [String.length_append, String.length_append] at hlength
    have hshort : dest.text.length + 3 + value.length = 3 := hlength
    omega
  | store address value => simp [keyletter?] at hc'
  | call dest callee arguments => simp [keyletter?] at hc'
  | _ => simp [Instruction.result] at hresult

theorem eq_of_text_eq {action action' : Action} (hpaired : action.Paired)
    (hpaired' : action'.Paired) (h : action.text = action'.text) : action = action' := by
  rw [text_eq action none, text_eq action' none] at h
  cases hresult : (Instruction.mk action none).result with
  | none =>
    cases hresult' : (Instruction.mk action' none).result with
    | none =>
      rw [hresult, hresult'] at h
      exact eq_of_valueText_eq hpaired hpaired' (hresult.trans hresult'.symm) h
    | some dest' =>
      rw [hresult, hresult'] at h
      exact absurd h.symm (text_ne_of_result hresult)
  | some dest =>
    cases hresult' : (Instruction.mk action' none).result with
    | none =>
      rw [hresult, hresult'] at h
      exact absurd h (text_ne_of_result hresult')
    | some dest' =>
      rw [hresult, hresult'] at h
      have hchars := congrArg String.toList h
      simp only [String.toList_append, List.append_assoc] at hchars
      obtain ⟨rfl, hvalue⟩ := Operand.legible_text (by simp) (by simp) hchars
      have hsame := String.toList_injective (List.append_cancel_left hvalue)
      exact eq_of_valueText_eq hpaired hpaired' (hresult.trans hresult'.symm) hsame

end Action

/-! ## Terminators -/

namespace Terminator

theorem branch_inj_of_text {condition condition' : Operand}
    {onTrue onTrue' onFalse onFalse' : BlockId}
    (h : (branch condition onTrue onFalse).text = (branch condition' onTrue' onFalse').text) :
    branch condition onTrue onFalse = branch condition' onTrue' onFalse' := by
  have hchars := congrArg String.toList h
  simp only [text, String.toList_append, List.append_assoc] at hchars
  obtain ⟨rfl, htrue⟩ :=
    Operand.legible_text (by simp) (by simp) (List.append_cancel_left hchars)
  obtain ⟨rfl, hfalse⟩ :=
    BlockId.legible_text (by simp) (by simp) (List.append_cancel_left htrue)
  have hlast := String.toList_injective (List.append_cancel_left hfalse)
  rw [BlockId.legible_text.injective hlast]

theorem switch_inj_of_text {value value' : Operand} {cases cases' : List BlockId}
    {fallback fallback' : BlockId}
    (h : (switch value cases fallback).text = (switch value' cases' fallback').text) :
    switch value cases fallback = switch value' cases' fallback' := by
  have hchars := congrArg String.toList h
  simp only [text, bracketed, String.toList_append, List.append_assoc] at hchars
  obtain ⟨rfl, hcases⟩ :=
    Operand.legible_text (by simp) (by simp) (List.append_cancel_left hchars)
  have hlist : (listed (cases.map BlockId.text)).toList ++ ']' :: (" default ".toList ++
        (BlockId.text fallback).toList) =
      (listed (cases'.map BlockId.text)).toList ++ ']' :: (" default ".toList ++
        (BlockId.text fallback').toList) :=
    List.append_cancel_left (List.append_cancel_left hcases)
  obtain ⟨rfl, hfallback⟩ := BlockId.legible_text.listed_close BlockId.opens_text
    (by simp) (by simp) hlist
  have hlast := String.toList_injective (List.append_cancel_left hfallback)
  rw [BlockId.legible_text.injective hlast]

/-- A result is told from no result by the blank before it. -/
theorem text_ret_ne {result : Operand} : (ret (some result)).text ≠ (ret none).text := by
  intro h
  have hlength := congrArg String.length h
  rw [text, String.length_append] at hlength
  have hlong : 7 + result.text.length = 6 := hlength
  omega

/-- The first character of a terminator in print. -/
def initial : Terminator → Char
  | .jump _ => 'j'
  | .branch _ _ _ => 'i'
  | .switch _ _ _ => 's'
  | .ret _ => 'r'
  | .unreachable => 'u'

theorem opens_text : Opens text fun terminator c => terminator.initial = c := by
  intro terminator
  refine ⟨terminator.initial, ?_, rfl⟩
  cases terminator with
  | ret value => cases value <;> simp [text, initial]
  | unreachable => rfl
  | _ => simp [text, initial]

theorem text_injective : Function.Injective text := by
  intro a b h
  obtain ⟨c, ha, hb⟩ := opens_text.common (congrArg (fun text => text.toList ++ []) h)
  have hinitial : a.initial = b.initial := ha.trans hb.symm
  cases a with
  | jump target =>
    cases b with
    | jump target' => rw [(BlockId.legible_text.prefixed "jump ").injective h]
    | _ => simp [initial] at hinitial
  | branch condition onTrue onFalse =>
    cases b with
    | branch condition' onTrue' onFalse' => exact branch_inj_of_text h
    | _ => simp [initial] at hinitial
  | switch value cases fallback =>
    cases b with
    | switch value' cases' fallback' => exact switch_inj_of_text h
    | _ => simp [initial] at hinitial
  | ret value =>
    cases b with
    | ret value' =>
      cases value with
      | none =>
        cases value' with
        | none => rfl
        | some result' => exact absurd h.symm text_ret_ne
      | some result =>
        cases value' with
        | none => exact absurd h text_ret_ne
        | some result' => rw [(Operand.legible_text.prefixed "return ").injective h]
    | _ => simp [initial] at hinitial
  | unreachable =>
    cases b with
    | unreachable => rfl
    | _ => simp [initial] at hinitial

end Terminator

/-! ## All three printers -/

/-- Operands, instructions and terminators are determined by their texts. The
instructions have no comments, which may hold any text, and their phis no slot
that the printed list leaves out. -/
theorem text_eq_text_iff :
    (∀ a b : Operand, a.text = b.text ↔ a = b) ∧
    (∀ a b : Instruction, a.comment = none → b.comment = none →
      a.action.Paired → b.action.Paired → (a.text = b.text ↔ a = b)) ∧
    ∀ a b : Terminator, a.text = b.text ↔ a = b := by
  refine ⟨fun a b => Operand.legible_text.injective.eq_iff, ?_,
    fun a b => Terminator.text_injective.eq_iff⟩
  rintro ⟨action, comment⟩ ⟨action', comment'⟩ rfl rfl hpaired hpaired'
  constructor
  · intro h
    have hsame : action = action' := Action.eq_of_text_eq hpaired hpaired' h
    rw [hsame]
  · intro h
    rw [h]

/-- `%1 = phi [%2, bb0], [[%3 - 2147483648], bb10]` -/
def cellMerge : Instruction :=
  { action := .phi 1 [.register 2, .memory 3 (-2147483648)] [0, 10] }

/-- `%1 = phi [%2, bb0], [[%3 + 2147483647], bb10]` -/
def otherCellMerge : Instruction :=
  { action := .phi 1 [.register 2, .memory 3 2147483647] [0, 10] }

theorem text_eq_text_iff_cellMerge :
    (cellMerge.comment = none ∧ otherCellMerge.comment = none) ∧
    (cellMerge.action.Paired ∧ otherCellMerge.action.Paired) ∧
    (cellMerge.text = otherCellMerge.text ↔ cellMerge = otherCellMerge) :=
  ⟨⟨rfl, rfl⟩, ⟨rfl, rfl⟩, text_eq_text_iff.2.1 cellMerge otherCellMerge rfl rfl rfl rfl⟩

end MinimalSsa
