import TapeCompiler.Machine.Basic

/-!
# Machines as shown to a reader
-/

namespace TapeCompiler

namespace Machine

/-- The stored cells, with the one under the head in brackets. -/
def viewCells (m : Machine) : List String :=
  m.tape.cells.zipIdx.map fun (cell, k) =>
    if m.tape.leftmost + (k : Int) = m.head then "[" ++ cell ++ "]" else cell

/-- The configuration in five lines. -/
def view (m : Machine) : String :=
  "Index: " ++ toString m.head ++
  "\nState: " ++ m.state ++
  "\nDefault: " ++ m.tape.blank ++
  "\nOrigin: " ++ toString m.tape.origin ++
  "\nTape: " ++ ", ".intercalate m.viewCells ++ "\n"

/-- The configuration with the rules. -/
def render (m : Machine) : String :=
  "TuringMachine(\n" ++ m.view ++ "Rules:\n" ++
    String.join (m.table.rules.map fun r => r.render ++ "\n") ++ ")"

end Machine

end TapeCompiler
