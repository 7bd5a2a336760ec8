import TapeCompiler.Compiler.Move

/-!
# Scans

A scan leaves the cell of the cursor, goes on over cells with interior values, and stops on the
first cell with a terminal value. An edit says what it writes into the cells on its way. The other
operations of this module are scans with a particular edit, scans followed by a write, and scans
from every path of the cursor.
-/

namespace TapeCompiler

/-- What a scan writes into its first cell, the cells between, and its last cell. -/
structure Edit where
  start : Symbol → Symbol
  interior : Symbol → Symbol
  finish : Symbol → Symbol

namespace Edit

/-- Leaves all cells as they are. -/
def keep : Edit := ⟨id, id, id⟩

/-- Writes one symbol into all cells. -/
def paint (s : Symbol) : Edit := ⟨fun _ => s, fun _ => s, fun _ => s⟩

/-- Replaces the symbol of the first cell by its partner in the last pair that starts with it. -/
def relocate (pairs : List (Symbol × Symbol)) : Edit :=
  { keep with start := fun v => (pairs.reverse.lookup v).getD v }

end Edit

/-- Where a scan goes, and whether its first and last cells are edited. -/
structure Scan where
  interior : List Symbol
  terminals : List Symbol
  direction : Action
  editStart : Bool := true
  editEnd : Bool := false
  deriving DecidableEq, Repr

namespace Scan

/-- A scan has to move, and to have something to stop on. -/
def check (s : Scan) : Except Error Unit :=
  if !s.direction.moves then .error (.misuse (.scanDirection s.direction))
  else if s.terminals = [] then .error (.misuse .noTerminal)
  else .ok ()

/-- The values on which the scan stops. -/
def stops (s : Scan) : List Symbol := s.terminals.eraseDups

/-- The values over which the scan goes on. -/
def crossed (s : Scan) : List Symbol := s.interior.eraseDups.filter fun v => !s.stops.contains v

/-- What the scan writes into its first cell. -/
def first (s : Scan) (w : Edit) (v : Symbol) : Symbol := if s.editStart then w.start v else v

/-- What the scan writes into its last cell. -/
def last (s : Scan) (w : Edit) (v : Symbol) : Symbol := if s.editEnd then w.finish v else v

/-- The only value on which the scan stops. -/
def onlyStop (s : Scan) (operation : String) : Except Error Symbol :=
  match s.stops with
  | [v] => .ok v
  | _ => .error (.misuse (.notOneTerminal operation))

end Scan

namespace Build

/-- Scans from a single cursor, and answers the state of arrival. -/
def scan (s : Scan) (w : Edit) : Build Symbol := atomic do
  ofExcept s.check
  let (value, _) ← single "traverse"
  let going ← move { action := s.direction, write := some (s.first w value), next := some .fresh }
  emitAll (s.crossed.map fun v => ⟨v, going, w.interior v, going, s.direction⟩)
  let arrived ← newState
  emitAll (s.stops.map fun v => ⟨v, going, s.last w v, arrived, .stay⟩)
  setCursor (.meeting (s.stops.map (s.last w)).eraseDups arrived)
  pure arrived

/-- Scans and leaves all cells as they are. -/
def seek (s : Scan) : Build Symbol := scan s .keep

/-- Scans and writes one symbol, by default the blank, into the cells on the way. -/
def paint (s : Scan) (symbol : Option Symbol) : Build Symbol := do
  let filler ← blank
  scan s (.paint (symbol.getD filler))

/-- Scans, and then writes a value into the last cell if one is given. -/
def deliver (s : Scan) (value : Option Symbol) : Build Unit := atomic do
  let _ ← seek s
  match value with
  | none => pure ()
  | some value =>
    let arrived ← current
    let target ← newState
    emitAll (arrived.entries.map fun (v, state) => ⟨v, state, value, target, .stay⟩)
    setCursor (.single value target)

/-- Writes `replacement` into the first cell, and its former value into the last cell of a scan.
Without a replacement this is only the scan. -/
def carry (s : Scan) (replacement : Option Symbol) : Build Unit := atomic do
  match replacement with
  | none =>
    let _ ← seek s
  | some replacement =>
    let (value, _) ← single "move_from_to"
    let _ ← move { action := .stay, write := some replacement, next := some .fresh }
    deliver s (some value)

/-- Scans from each of the given situations, and answers the states of arrival. Where this is used
the scan has one stop, so that every cursor on which a scan ends has one state, that of arrival. -/
def scanEach (s : Scan) (w : Edit) : List (Symbol × Symbol) → Build (List Symbol)
  | [] => pure []
  | (value, state) :: rest => do
    setCursor (.single value state)
    let arrived ← scan s w
    let others ← scanEach s w rest
    pure (arrived :: others)

/-- Scans from every pair of the cursor to the one stop, across the values of all pairs. Each pair
has its own state of arrival. -/
def scanPairs (s : Scan) (w : Edit) : Build Unit := atomic do
  let (values, states) ← pairs "parallelise"
  let stop ← ofExcept (s.onlyStop "parallelise")
  let arrived ← scanEach { s with interior := s.interior ++ values } w (values.zip states)
  setCursor (.branch stop arrived)

/-- Scans from every path of a branch to the one stop. Each path has its own state of arrival. -/
def seekEach (s : Scan) : Build Unit := atomic do
  let (value, states) ← branch "parallel_move"
  let stop ← ofExcept (s.onlyStop "parallel_move")
  let arrived ← scanEach s .keep (states.map fun state => (value, state))
  setCursor (.branch stop arrived)

end Build

end TapeCompiler
