import TapeCompiler.Compiler.Transfer

/-!
# Commands to a compiler

Instructions are the operations that add rules; commands are all that can be asked of a compiler.
A history of a compiler is a list of commands.
-/

namespace TapeCompiler

/-- An operation that adds rules. -/
inductive Instruction where
  | manual (rule : Rule)
  | move (move : Move)
  | moveAmong (move : Move) (values : List Symbol)
  | join (move : Move)
  | moveEach (move : BranchMove)
  | halt
  | scan (scan : Scan) (edit : Edit)
  | seek (scan : Scan)
  | paint (scan : Scan) (symbol : Option Symbol)
  | erase (scan : Scan)
  | deliver (scan : Scan) (value : Option Symbol)
  | carry (scan : Scan) (replacement : Option Symbol)
  | scanPairs (scan : Scan) (edit : Edit)
  | seekPairs (scan : Scan)
  | seekEach (scan : Scan)
  | copyBlock (layout : Layout)
  | moveBlock (layout : Layout)

namespace Instruction

/-- Carries out an instruction. -/
def build : Instruction → Build Unit
  | manual r => Build.manual r
  | move m => do let _ ← Build.move m
  | moveAmong m values => Build.moveAmong m values
  | join m => Build.join m
  | moveEach m => Build.moveEach m
  | halt => Build.halt
  | scan s w => do let _ ← Build.scan s w
  | seek s => do let _ ← Build.seek s
  | paint s symbol => do let _ ← Build.paint s symbol
  | erase s => do let _ ← Build.paint s none
  | deliver s value => Build.deliver s value
  | carry s replacement => Build.carry s replacement
  | scanPairs s w => Build.scanPairs s w
  | seekPairs s => Build.scanPairs s .keep
  | seekEach s => Build.seekEach s
  | copyBlock l => Build.transfer l false
  | moveBlock l => Build.transfer l true

end Instruction

/-- A request to a compiler. -/
inductive Command where
  | compile (instruction : Instruction)
  | setCursor (condition : Condition)
  | reserve (values states : List Symbol)
  | newState
  | newValue
  | run (limit : Nat)

/-- An answer of a compiler. -/
inductive Reply where
  | done
  | condition (condition : Condition)
  | symbol (symbol : Symbol)
  | outcome (outcome : Outcome)
  deriving DecidableEq, Repr

namespace Compiler

/-- Carries out an instruction and answers where the program under construction then is. -/
def compile (c : Compiler) (i : Instruction) : Except Error Condition × Compiler :=
  match i.build c with
  | .ok _ c' => (.ok c'.cursor.current, c')
  | .error e c' => (.error e, c')

/-- Carries out a command. -/
def perform (c : Compiler) : Command → Except Error Reply × Compiler
  | .compile i =>
    let (result, c') := c.compile i
    (result.map .condition, c')
  | .setCursor condition => (.ok .done, c.setCursor condition)
  | .reserve values states => (.ok .done, c.reserve values states)
  | .newState => (.ok (.symbol c.states.pop.1), { c with states := c.states.pop.2 })
  | .newValue => (.ok (.symbol c.values.pop.1), { c with values := c.values.pop.2 })
  | .run limit =>
    let (outcome, machine) := c.machine.run limit
    (.ok (.outcome outcome), { c with machine })

end Compiler

end TapeCompiler
