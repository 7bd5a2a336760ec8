import TapeCompiler.Compiler.Basic

/-!
# Moves

The operations that add one rule per path of the cursor: a move from a single cursor, the same with
several values possible at the landing cell, the moves and the joining of the paths of a branch, and
the halt.
-/

namespace TapeCompiler

/-- Where a move leads. -/
inductive Target where
  /-- The state it comes from. -/
  | same
  /-- A made-up state. -/
  | fresh
  | named (state : Symbol)
  deriving DecidableEq, Repr

/-- A move. `write` is the value under the head if not given; `expect` is the value at the landing
cell, by default the one written. -/
structure Move where
  action : Action
  write : Option Symbol := none
  expect : Option Symbol := none
  next : Option Target := none
  deriving DecidableEq, Repr

/-- One symbol for all paths of a branch, or one for each. -/
inductive Spread where
  | same (symbol : Symbol)
  | each (symbols : List Symbol)
  deriving DecidableEq, Repr

namespace Spread

/-- One symbol for each of `n` paths. -/
def expand (n : Nat) (part : BranchPart) : Spread → Except Error (List Symbol)
  | same s => .ok (List.replicate n s)
  | each ss => if ss.length = n then .ok ss else .error (.misuse (.spread ss.length part n))

end Spread

/-- Where the moves of a branch lead. -/
inductive Targets where
  | same
  | fresh
  | named (states : List Symbol)
  deriving DecidableEq, Repr

/-- A move of every path of a branch. -/
structure BranchMove where
  action : Action
  write : Option Spread := none
  expect : Option Spread := none
  next : Targets := .same
  deriving DecidableEq, Repr

/-- The condition of paths with one expected value and one state each: a branch if all expect the
same value. -/
def Condition.ofPaths (expected states : List Symbol) : Condition :=
  match expected with
  | v :: vs => if vs.all (· == v) then .branch v states else .pairs (v :: vs) states
  | [] => .pairs [] states

namespace Build

/-- The state of a target, for a move from `state`. -/
def target (state : Symbol) : Target → Build Symbol
  | .same => pure state
  | .fresh => newState
  | .named s => pure s

/-- Adds one rule from a single cursor, and answers the state it leads to: by default the same. -/
def move (m : Move) : Build Symbol := atomic do
  let (value, state) ← single "single_move"
  let next ← target state (m.next.getD .same)
  let write := m.write.getD value
  emit ⟨value, state, write, next, m.action⟩
  aim (.single (m.expect.getD write) next)
  pure next

/-- A move after which any of `values` may be under the head. -/
def moveAmong (m : Move) (values : List Symbol) : Build Unit :=
  if values = [] then throw (.misuse .noValues)
  else
    atomic do
      let next ← move m
      reserve values []
      aim (.pairs values (List.replicate values.length next))

/-- The state in which the paths of a branch come together. -/
def joinTarget : Target → Build Symbol
  | .same => do throw (.unsettled (.joinInPlace (← current)))
  | .fresh => newState
  | .named s => pure s

/-- Takes all paths of a branch to one state: by default a made-up one. -/
def join (m : Move) : Build Unit := atomic do
  let (value, states) ← branch "join"
  let next ← joinTarget (m.next.getD .fresh)
  let write := m.write.getD value
  emitAll (states.map fun state => ⟨value, state, write, next, m.action⟩)
  aim (.single (m.expect.getD write) next)

/-- The states of targets, for moves from `states`. -/
def targets (states : List Symbol) : Targets → Build (List Symbol)
  | .same => pure states
  | .fresh => newStates states.length
  | .named ss => ofExcept ((Spread.each ss).expand states.length .targets)

/-- Moves every path of a branch on its own. -/
def moveEach (m : BranchMove) : Build Unit := atomic do
  let (value, states) ← branch "branch_move"
  let n := states.length
  let writes ← ofExcept ((m.write.getD (.same value)).expand n .writes)
  let expected ← ofExcept ((m.expect.getD (.each writes)).expand n .expected)
  let nexts ← targets states m.next
  emitAll ((states.zip (writes.zip nexts)).map fun (state, write, next) =>
    ⟨value, state, write, next, m.action⟩)
  aim (.ofPaths expected nexts)

/-- Adds the halting rule of a single cursor. -/
def halt : Build Unit := atomic do
  let (value, state) ← single "stop"
  emit ⟨value, state, value, state, .halt⟩

end Build

end TapeCompiler
