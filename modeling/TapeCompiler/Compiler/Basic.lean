import TapeCompiler.Cursor
import TapeCompiler.Machine.Basic
import TapeCompiler.NameSupply.Basic

/-!
# The compiler and its operations

A compiler adds rules to a machine. It knows which symbols are in use, so that it can make up fresh
ones, and it has a cursor that says where the program under construction is.

Operations are of type `Build`: they may fail, and what they have done up to then stays done.
`atomic` rolls an operation back if it fails: the rules it has added are dropped again, and the names
and the cursor are those from before.
-/

namespace TapeCompiler

/-- A machine under construction. -/
structure Compiler where
  machine : Machine
  states : NameSupply
  values : NameSupply
  cursor : Cursor
  deriving DecidableEq, Repr

namespace Compiler

/-- The values a machine uses: its stored cells, its blank and the sign for it, and those of its
rules. -/
def valuesOf (m : Machine) : List Symbol :=
  m.tape.cells ++ [m.tape.blank, blankSign] ++ m.table.rules.flatMap fun r => [r.value, r.write]

/-- The states of a machine's rules. -/
def statesOf (m : Machine) : List Symbol := m.table.rules.flatMap fun r => [r.state, r.next]

/-- The supply of states of a machine: it continues the series of the current state, if that is a
label that can be continued. -/
def stateSupply (m : Machine) : NameSupply :=
  match NameSupply.standard.startSeries m.state with
  | .ok supply => supply.reserveAll (statesOf m)
  | .error _ => (NameSupply.standard.reserve m.state).reserveAll (statesOf m)

/-- A compiler that goes on from the present situation of a machine. -/
def ofMachine (m : Machine) : Compiler where
  machine := m
  states := stateSupply m
  values := NameSupply.standard.reserveAll (valuesOf m)
  cursor := .ofCondition (.single m.symbol m.state)

/-- A compiler for a program. -/
def ofProgram (p : Program) : Except Error Compiler := do
  let m ← Machine.ofProgram p
  pure (ofMachine m)

/-- Keeps values and states from being made up. -/
def reserve (c : Compiler) (values states : List Symbol) : Compiler :=
  { c with values := c.values.reserveAll values, states := c.states.reserveAll states }

/-- The compiler with another, fresh cursor. Its symbols are not reserved. -/
def aim (c : Compiler) (current : Condition) : Compiler := { c with cursor := .ofCondition current }

/-- The compiler with another, fresh cursor whose symbols are reserved. -/
def setCursor (c : Compiler) (current : Condition) : Compiler :=
  (c.reserve current.values current.states).aim current

/-- The compiler `after` some operation, put back to where it was `before`: the rules behind those
of `before` are dropped, and its names and cursor come back. -/
def rollback (before after : Compiler) : Compiler where
  machine := after.machine.truncateRules before.machine.table.size
  states := before.states
  values := before.values
  cursor := before.cursor

end Compiler

/-- An operation of a compiler. -/
abbrev Build := EStateM Error Compiler

namespace Build

/-- Takes over an answer or a failure. -/
def ofExcept {α : Type} (result : Except Error α) : Build α :=
  match result with
  | .ok a => pure a
  | .error e => throw e

/-- An operation that is rolled back if it fails. -/
def atomic {α : Type} (operation : Build α) : Build α := fun c =>
  match operation c with
  | .ok a c' => .ok a c'
  | .error e c' => .error e (c.rollback c')

/-- The condition of the cursor. -/
def current : Build Condition := do return (← get).cursor.current

/-- The blank of the machine. -/
def blank : Build Symbol := do return (← get).machine.tape.blank

/-- The value and state of a single cursor. -/
def single (operation : String) : Build (Symbol × Symbol) := do
  ofExcept ((← get).cursor.single operation)

/-- The value and states of a branch cursor. -/
def branch (operation : String) : Build (Symbol × List Symbol) := do
  ofExcept ((← get).cursor.branch operation)

/-- The values and states of a cursor of pairs. -/
def pairs (operation : String) : Build (List Symbol × List Symbol) := do
  ofExcept ((← get).cursor.pairs operation)

/-- Makes up a state. -/
def newState : Build Symbol :=
  modifyGet fun c => (c.states.pop.1, { c with states := c.states.pop.2 })

/-- Makes up several states. -/
def newStates (n : Nat) : Build (List Symbol) :=
  modifyGet fun c => ((c.states.take n).1, { c with states := (c.states.take n).2 })

/-- Makes up a value. -/
def newValue : Build Symbol :=
  modifyGet fun c => (c.values.pop.1, { c with values := c.values.pop.2 })

/-- Makes up several values. -/
def newValues (n : Nat) : Build (List Symbol) :=
  modifyGet fun c => ((c.values.take n).1, { c with values := (c.values.take n).2 })

/-- Keeps values and states from being made up. -/
def reserve (values states : List Symbol) : Build Unit := modify fun c => c.reserve values states

/-- Sets the cursor without reserving its symbols. -/
def aim (condition : Condition) : Build Unit := modify fun c => c.aim condition

/-- Sets the cursor and reserves its symbols. -/
def setCursor (condition : Condition) : Build Unit := modify fun c => c.setCursor condition

/-- Adds a rule and reserves its symbols. -/
def emit (r : Rule) : Build Unit := do
  reserve [r.value, r.write] [r.state, r.next]
  let machine ← ofExcept ((← get).machine.addRule r)
  modify fun c => { c with machine }

/-- Adds rules one after the other. -/
def emitAll : List Rule → Build Unit
  | [] => pure ()
  | r :: rs => do
    emit r
    emitAll rs

/-- Adds a rule by hand. The cursor is stale until it is set again. -/
def manual (r : Rule) : Build Unit := atomic do
  modify fun c => { c with cursor := c.cursor.staled }
  emit r

end Build

end TapeCompiler
