/-!
# Printed names and layout

The words every printer of the library shares: how blocks, registers and
methods are named in print, how lists are joined, and how deep a line is
indented.

* `Register.text`, `BlockId.text`, `MethodId.text`: `%3`, `bb3`, `fn3`.
* `listed`, `bracketed`: items joined by `, `, without and with brackets.
* `indentation`: two spaces per level.
-/

namespace MinimalSsa

/-- A virtual register of a method. -/
abbrev Register := Nat

/-- The position of a block in its method. -/
abbrev BlockId := Nat

/-- The position of a method in its program. -/
abbrev MethodId := Nat

/-- A register in print: `%3`. -/
def Register.text (register : Register) : String :=
  "%" ++ toString register

/-- A block in print: `bb3`. -/
def BlockId.text (block : BlockId) : String :=
  "bb" ++ toString block

/-- A callee in print: `fn3`. -/
def MethodId.text (method : MethodId) : String :=
  "fn" ++ toString method

/-- Items separated by a comma and a space. -/
def listed (items : List String) : String :=
  String.intercalate ", " items

/-- A list in square brackets. -/
def bracketed (items : List String) : String :=
  "[" ++ listed items ++ "]"

/-- The blanks at the start of a line: two per level. -/
def indentation (level : Nat) : String :=
  String.join (List.replicate level "  ")

end MinimalSsa
