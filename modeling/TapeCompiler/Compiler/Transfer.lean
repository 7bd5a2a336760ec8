import TapeCompiler.Compiler.Scan

/-!
# Transfers

A transfer copies a block of cells to another place. Read in the direction of the transfer, the tape
holds the value of the cursor (the origin), the block, `stop`, some cells of values `between`,
`start`, some cells of values `after`, and blanks. The block is copied behind the `after` cells.

A marker is planted behind them first. Then, cell by cell, a placeholder is put for the value, the
value is carried to the marker and written there, and the marker is pushed on by one cell. When the
block is used up the marker is erased, and on the way back to the origin the placeholders are turned
into the values again, or into blanks if the block is to be moved.
-/

namespace TapeCompiler

/-- The values that mark out a transfer. -/
structure Layout where
  /-- The values of the block. -/
  values : List Symbol
  /-- The value right behind the block. -/
  stop : Symbol
  between : List Symbol
  /-- The value in front of the destination. -/
  start : Symbol
  /-- Values that already follow `start`. -/
  after : List Symbol
  direction : Action
  deriving DecidableEq, Repr

namespace Layout

/-- The first symbol of a list that occurs again in it. -/
def firstRepeated : List Symbol → Option Symbol
  | [] => none
  | s :: rest => if rest.contains s then some s else firstRepeated rest

/-- The three values that mark the borders of a transfer. -/
def boundaries (l : Layout) (origin : Symbol) : List Symbol := [origin, l.stop, l.start]

/-- The values between the borders. -/
def inside (l : Layout) : List Symbol := l.values ++ l.between ++ l.after

/-- A transfer moves, has a block, has borders that differ from each other and from all values
between them, and can tell the blanks behind the destination. -/
def check (l : Layout) (origin blank : Symbol) : Except Error Unit :=
  if !l.direction.moves then .error (.misuse (.transferDirection l.direction))
  else if l.values = [] then .error (.misuse .noSource)
  else
    match firstRepeated (l.boundaries origin) with
    | some s => .error (.misuse (.boundaryTwice s))
    | none =>
      match (l.boundaries origin).find? l.inside.contains with
      | some s => .error (.misuse (.boundaryInside s))
      | none => if l.after.contains blank then .error (.misuse (.blankAfter blank)) else .ok ()

/-- The distinct values of the block. -/
def sources (l : Layout) : List Symbol := l.values.eraseDups

/-- All values between the first cell of the block and the marker. -/
def crossed (l : Layout) : List Symbol :=
  (l.values ++ [l.stop] ++ l.between ++ [l.start] ++ l.after).eraseDups

end Layout

namespace Build

/-- Goes from the origin to the first blank behind the destination and puts the marker there. -/
def plantMarker (l : Layout) (blank marker : Symbol) : Build Unit := do
  let _ ← seek { interior := l.sources, terminals := [l.stop], direction := l.direction }
  let _ ← seek { interior := l.between, terminals := [l.start], direction := l.direction }
  deliver { interior := l.after, terminals := [blank], direction := l.direction } (some marker)

/-- Goes back from the marker to the origin. -/
def returnToOrigin (l : Layout) (origin : Symbol) : Build Unit := do
  let back := l.direction.opposite
  let _ ← seek
    { interior := l.after ++ l.between ++ [l.start], terminals := [l.stop], direction := back }
  let _ ← seek { interior := l.sources, terminals := [origin], direction := back }

/-- One pass of the copying loop, from the state `pass` on a cell of the block: puts the
placeholder, writes the value at the marker, pushes the marker on, and comes back to `pass` on the
next cell. -/
def copyCell (l : Layout) (blank marker : Symbol) (placeholders : List Symbol) (pass : Symbol) :
    Build Unit := do
  setCursor (.pairs l.sources (List.replicate l.sources.length pass))
  scanPairs { interior := l.crossed, terminals := [marker], direction := l.direction }
    (.relocate (l.sources.zip placeholders))
  moveEach
    { action := l.direction
      write := some (.each l.sources)
      expect := some (.same blank)
      next := .fresh }
  join { action := .stay, write := some marker }
  let _ ← seek
    { interior := l.crossed, terminals := placeholders, direction := l.direction.opposite }
  let found ← current
  emitAll (found.entries.map fun (v, state) => ⟨v, state, v, pass, l.direction⟩)

/-- Leaves the copying loop when the block is used up: erases the marker and comes back to the cell
behind the block. -/
def eraseMarker (l : Layout) (blank marker pass : Symbol) : Build Unit := do
  setCursor (.single l.stop pass)
  deliver { interior := l.crossed, terminals := [marker], direction := l.direction } (some blank)
  let _ ← seek
    { interior := l.crossed, terminals := [l.stop], direction := l.direction.opposite }

/-- Replaces the placeholders by `restored` on the way back to the origin. -/
def restoreBlock (l : Layout) (origin : Symbol) (placeholders restored : List Symbol) :
    Build Unit := do
  let back := l.direction.opposite
  let cleanup ← move { action := back, next := some .fresh }
  emitAll ((placeholders.zip restored).map fun (p, v) => ⟨p, cleanup, v, cleanup, back⟩)
  let done ← newState
  emit ⟨origin, cleanup, origin, done, .stay⟩
  setCursor (.single origin done)

/-- Copies the block, or moves it if `erase` is set. The cursor comes back to the origin. -/
def transfer (l : Layout) (erase : Bool) : Build Unit := atomic do
  let (origin, _) ← single "transfer"
  let filler ← blank
  ofExcept (l.check origin filler)
  reserve (l.crossed ++ [origin, filler]) []
  let marker ← newValue
  let placeholders ← newValues l.sources.length
  plantMarker l filler marker
  returnToOrigin l origin
  let pass ← move { action := l.direction, next := some .fresh }
  copyCell l filler marker placeholders pass
  eraseMarker l filler marker pass
  restoreBlock l origin placeholders
    (if erase then List.replicate l.sources.length filler else l.sources)

end Build

end TapeCompiler
