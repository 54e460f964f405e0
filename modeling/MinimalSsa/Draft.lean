import MinimalSsa.Method.Edit

/-!
# Drafting blocks

Filling a block step by step: instructions and terminators, in order, through
the editing operations. The first fault ends the draft; what was done before it
stays.
-/

namespace MinimalSsa

/-- One step in filling a block. -/
inductive DraftStep where
  | assign (register : Register) (value : Int64)
  | push (instruction : Instruction)
  | terminate (terminator : Terminator)
  deriving DecidableEq, Inhabited

namespace Method

/-- Take one step on a block. -/
def draftStep (method : Method) (block : BlockId) : DraftStep → Edit
  | .assign register value =>
    .ofExcept method (method.push block (.assign register value))
  | .push instruction => .ofExcept method (method.push block instruction)
  | .terminate terminator => method.retarget block terminator

/-- Take several steps on a block. -/
def draft (method : Method) (block : BlockId) : List DraftStep → Edit
  | [] => { method := method }
  | step :: rest =>
    let edit := method.draftStep block step
    match edit.fault with
    | some _ => edit
    | none => edit.method.draft block rest

end Method

end MinimalSsa
