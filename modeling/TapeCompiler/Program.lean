import TapeCompiler.Rule

/-!
# Programs

A program is a start configuration with a table: the first stored cells of the tape from index `0`
on, the head's index, the blank that fills all other cells, the start state and the rules.
-/

namespace TapeCompiler

/-- A start configuration with its rules, in the order in which they were given. -/
structure Program where
  cells : List Symbol
  head : Int
  blank : Symbol
  start : Symbol
  rules : List Rule
  deriving DecidableEq, Repr

namespace Program

/-- A program always has a cell to stand on: without any, one empty cell is stored. -/
def ofCells (cells : List Symbol) (head : Int) (blank start : Symbol) (rules : List Rule) :
    Program :=
  { cells := if cells.isEmpty then [""] else cells, head, blank, start, rules }

/-- The indices that have a written form: those of a signed 64-bit word. -/
def Representable (i : Int) : Prop := -0x8000000000000000 ≤ i ∧ i < 0x8000000000000000

instance (i : Int) : Decidable (Representable i) := inferInstanceAs (Decidable (_ ∧ _))

end Program

end TapeCompiler
