import MinimalSsa.Method

/-!
# Programs

The methods that are compiled together. A method is found by position or by name;
of several with one name, the last one added is found.

* `Program.add`, `Program.get?`, `Program.lookup`.
* `Program.names`: every name with the method it finds, sorted.
* `Program.text`: the printed form.
-/

namespace MinimalSsa

/-- The methods compiled together. -/
structure Program where
  methods : Array Method := #[]
  deriving DecidableEq, Inhabited

namespace Program

/-- The number of methods. -/
def size (program : Program) : Nat :=
  program.methods.size

/-- A further method and its position. -/
def add (program : Program) (method : Method) : MethodId × Program :=
  (program.size, { methods := program.methods.push method })

/-- The method at a position. -/
def get? (program : Program) (id : MethodId) : Option Method :=
  program.methods[id]?

/-- Put a method in the place of another. -/
def set (program : Program) (id : MethodId) (method : Method) : Program :=
  { methods := program.methods.setIfInBounds id method }

/-- Every method's name with its position. -/
def entries (program : Program) : List (String × MethodId) :=
  (program.methods.toList.map Method.name).zipIdx

/-- The method of this name; of several, the last. -/
def lookup (program : Program) (name : String) : Option MethodId :=
  program.entries.reverse.lookup name

/-- Every name with the method it finds, sorted by name. -/
def names (program : Program) : List (String × MethodId) :=
  (program.entries.filter fun (name, id) => program.lookup name == some id).mergeSort
    fun left right => decide (left.1 ≤ right.1)

/-- A program in print. -/
def text (program : Program) (level : Nat) : String :=
  indentation level ++ "module \x7b\n" ++
    String.join (program.methods.toList.map fun method => method.text (level + 1) ++ "\n") ++
    indentation level ++ "\x7d\n"

end Program

end MinimalSsa
