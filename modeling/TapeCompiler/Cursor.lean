import TapeCompiler.Error

/-!
# Cursors

A cursor is the condition under which the next rule of a program under construction applies. It goes
stale when rules are added by hand, and is refused until it is set again.
-/

namespace TapeCompiler

namespace Condition

/-- Values matched with states one by one. -/
def ofLists (values states : List Symbol) : Except Error Condition :=
  if values.length = states.length then .ok (pairs values states)
  else .error (.misuse (.pairing values.length states.length))

end Condition

/-- Where a program under construction is, and whether that is still known. -/
structure Cursor where
  current : Condition
  fresh : Bool
  deriving DecidableEq, Repr

namespace Cursor

/-- A fresh cursor. -/
def ofCondition (current : Condition) : Cursor := ⟨current, true⟩

/-- The cursor that no longer describes the program. -/
def staled (c : Cursor) : Cursor := { c with fresh := false }

/-- The condition of a fresh cursor. -/
def get (c : Cursor) : Except Error Condition :=
  if c.fresh then .ok c.current else .error (.unsettled (.stale c.current))

/-- The value and state of a fresh single cursor. -/
def single (c : Cursor) (operation : String) : Except Error (Symbol × Symbol) := do
  match ← c.get with
  | .single v s => pure (v, s)
  | other => throw (.unsettled (.shape operation .single other))

/-- The value and states of a fresh branch cursor. -/
def branch (c : Cursor) (operation : String) : Except Error (Symbol × List Symbol) := do
  match ← c.get with
  | .branch v ss => pure (v, ss)
  | other => throw (.unsettled (.shape operation .branch other))

/-- The values and states of a fresh cursor of pairs. -/
def pairs (c : Cursor) (operation : String) : Except Error (List Symbol × List Symbol) := do
  match ← c.get with
  | .pairs vs ss => pure (vs, ss)
  | other => throw (.unsettled (.shape operation .pairs other))

end Cursor

end TapeCompiler
