import TapeCompiler.Tape

/-!
# Rows of stored cells

The storage of a tape laid out as one row of cells, with the place of index `0` in it. A row grows
by one blank cell at a time until the cell that is asked for is in it. A cell that is added on the
left moves all others, and with them the place of index `0`, one place to the right.

Cells are found by their place in the row, and where there is no such place there is no answer. That
this never happens is a theorem about rows (`Tape.perform_row`), not a matter of their definition.
-/

namespace TapeCompiler.Tape

/-- Stored cells from left to right, and the place of index `0` among them. -/
structure Row where
  blank : Symbol
  cells : List Symbol
  origin : Nat
  deriving DecidableEq, Repr

namespace Row

/-- The row with the given cells from index `0` on; without any, one blank cell is stored. -/
def ofCells (cells : List Symbol) (blank : Symbol) : Row :=
  ⟨blank, if cells = [] then [blank] else cells, 0⟩

/-- The index of the first stored cell. -/
def leftmost (r : Row) : Int := -r.origin

/-- The index of the last stored cell. -/
def rightmost (r : Row) : Int := r.cells.length - 1 - r.origin

/-- The row with one more blank cell on the left. -/
def pushLeft (r : Row) : Row := { r with cells := r.blank :: r.cells, origin := r.origin + 1 }

/-- The row with one more blank cell on the right. -/
def pushRight (r : Row) : Row := { r with cells := r.cells ++ [r.blank] }

theorem leftmost_pushLeft (r : Row) : r.pushLeft.leftmost = r.leftmost - 1 := by
  simp only [pushLeft, leftmost]
  omega

theorem rightmost_pushLeft (r : Row) : r.pushLeft.rightmost = r.rightmost := by
  simp only [pushLeft, rightmost, List.length_cons]
  omega

theorem rightmost_pushRight (r : Row) : r.pushRight.rightmost = r.rightmost + 1 := by
  simp only [pushRight, rightmost, List.length_append, List.length_singleton]
  omega

/-- Grows on the left as long as the index is in front of the first cell. -/
def growLeft (r : Row) (i : Int) : Row :=
  if i < r.leftmost then r.pushLeft.growLeft i else r
termination_by (r.leftmost - i).toNat
decreasing_by
  rw [leftmost_pushLeft]
  omega

/-- Grows on the right as long as the index is behind the last cell. -/
def growRight (r : Row) (i : Int) : Row :=
  if r.rightmost < i then r.pushRight.growRight i else r
termination_by (i - r.rightmost).toNat
decreasing_by
  rw [rightmost_pushRight]
  omega

/-- The row with the cell stored. -/
def grow (r : Row) (i : Int) : Row := (r.growLeft i).growRight i

/-- The place of an index in the row. -/
def slot? (r : Row) (i : Int) : Option Nat :=
  if 0 ≤ r.origin + i ∧ r.origin + i < r.cells.length then some (r.origin + i).toNat else none

/-- The symbol of a stored cell. -/
def at? (r : Row) (i : Int) : Option Symbol := do r.cells[← r.slot? i]?

/-- The symbol in a cell, which is stored first. -/
def get? (r : Row) (i : Int) : Option (Symbol × Row) := do
  let r := r.grow i
  return (← r.at? i, r)

/-- The symbol in a cell. Cells that are not stored are blank. -/
def peek? (r : Row) (i : Int) : Option Symbol :=
  if i < r.leftmost ∨ r.rightmost < i then some r.blank else r.at? i

/-- The row with a symbol put into a cell, which is stored first. -/
def set? (r : Row) (i : Int) (v : Symbol) : Option Row := do
  let r := r.grow i
  return { r with cells := r.cells.set (← r.slot? i) v }

/-- The symbols in the cells from `lo` to `hi`. -/
def window? (r : Row) (lo hi : Int) : Option (List Symbol) :=
  (List.range (hi + 1 - lo).toNat).mapM fun (k : Nat) => r.peek? (lo + k)

/-- The place of the first symbol that is not blank. -/
def first? (r : Row) : Option Nat := r.cells.findIdx? (· ≠ r.blank)

/-- The place of the last symbol that is not blank. -/
def last? (r : Row) : Option Nat :=
  (r.cells.reverse.findIdx? (· ≠ r.blank)).map (r.cells.length - 1 - ·)

/-- The cells from the first symbol that is not blank to the last. -/
def trimmed (r : Row) : List Symbol :=
  match r.first?, r.last? with
  | some first, some last => (r.cells.drop first).take (last + 1 - first)
  | _, _ => []

/-- Carries out a request and answers the symbols that it asks for. -/
def perform (r : Row) : Request → Option (List Symbol × Row)
  | .get i => do
    let (v, r) ← r.get? i
    return ([v], r)
  | .peek i => do return ([← r.peek? i], r)
  | .set i v => do return ([], ← r.set? i v)
  | .window lo hi => do return (← r.window? lo hi, r)

/-- Carries out requests one after the other. -/
def performAll (r : Row) : List Request → Option (List (List Symbol) × Row)
  | [] => some ([], r)
  | request :: requests => do
    let (answer, r) ← r.perform request
    let (answers, r) ← r.performAll requests
    return (answer :: answers, r)

end Row

/-- The storage of a tape, laid out as a row. -/
def row (t : Tape) : Row := ⟨t.blank, t.cells, t.origin⟩

end TapeCompiler.Tape
