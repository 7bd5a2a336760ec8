import TapeCompiler.Program.Parse
import TapeCompiler.Table
import TapeCompiler.Tape

/-!
# Machines

A machine is a program in execution. `step` applies the rule for the symbol under the head in the
current state; `run` repeats it up to a given number of times. The machine keeps a log of the rules
it has applied and can always be put back to its start.

A machine has room for one hook, which is told every rule as it is applied and gives no answer, so
that no hook changes what the machine does. The recorder stands for the one hook whose effect is of
interest here: it keeps what it is told. It is off while no hook is installed or another one is, and
what it has heard outlasts that.
-/

namespace TapeCompiler

/-- The hook that records the rules applied. -/
structure Recorder where
  /-- Whether this is the hook that is installed. -/
  on : Bool
  /-- What has been heard and not yet been collected. -/
  heard : Array Rule
  deriving DecidableEq, Repr

namespace Recorder

/-- A recorder that is off and has heard nothing. -/
def idle : Recorder := ⟨false, #[]⟩

/-- Hears a rule, if it is on. -/
def hear (r : Recorder) (rule : Rule) : Recorder :=
  if r.on then { r with heard := r.heard.push rule } else r

end Recorder

/-- A program in execution. -/
structure Machine where
  /-- What the machine was started from. -/
  program : Program
  table : Table
  tape : Tape
  head : Int
  state : Symbol
  halted : Bool
  /-- The rules applied since the start. -/
  log : Array Rule
  /-- How many rules have been applied since the start. -/
  stepCount : Nat
  recorder : Recorder
  deriving DecidableEq, Repr

/-- The outcome of a step, or of several. -/
inductive Outcome where
  | continues
  | halted
  | failed (error : Error)
  deriving DecidableEq, Repr

namespace Machine

/-- A machine at the start of a program, with the given table. -/
def start (program : Program) (table : Table) : Machine where
  program := program
  table := table
  tape := Tape.ofCells program.cells program.blank
  head := program.head
  state := program.start
  halted := false
  log := #[]
  stepCount := 0
  recorder := .idle

/-- A machine at the start of a program. -/
def ofProgram (program : Program) : Except Error Machine := do
  let table ← Table.ofRules program.rules
  pure (start program table)

/-- A machine at the start of a written program. -/
def ofText (text : String) : Except Error Machine := do
  let program ← Program.parse text
  ofProgram program

/-- The symbol under the head. -/
def symbol (m : Machine) : Symbol := m.tape.read m.head

/-- The machine that has applied a rule. -/
def apply (m : Machine) (r : Rule) : Machine :=
  let tape := m.tape.write m.head r.write
  let head := m.head + r.action.offset
  { m with
    tape := if r.action.moves then tape.reach head else tape
    head
    state := r.next
    halted := r.action == .halt
    log := m.log.push r
    stepCount := m.stepCount + 1
    recorder := m.recorder.hear r }

/-- Applies the rule for the present situation. The cell under the head is stored first, whether
there is a rule or not. -/
def step (m : Machine) : Outcome × Machine :=
  if m.halted then (.halted, m)
  else
    let m := { m with tape := m.tape.reach m.head }
    match m.table.find? m.symbol m.state with
    | none => (.failed (.missingRule m.symbol m.state m.table.rules), m)
    | some r =>
      let m := m.apply r
      (if m.halted then .halted else .continues, m)

/-- Steps until the machine does not continue, at most `n` times. -/
def run : Nat → Machine → Outcome × Machine
  | 0, m => (.continues, m)
  | n + 1, m =>
    match m.step with
    | (.continues, m') => run n m'
    | result => result

/-- Steps up to `n` times, and stops after an outcome other than `continues` unless `always` says
otherwise. Answers the outcomes. -/
def steps (always : Bool) : Nat → Machine → List Outcome × Machine
  | 0, m => ([], m)
  | n + 1, m =>
    match m.step with
    | (.continues, m') =>
      let (outcomes, m'') := steps always n m'
      (.continues :: outcomes, m'')
    | (outcome, m') =>
      if always then
        let (outcomes, m'') := steps always n m'
        (outcome :: outcomes, m'')
      else ([outcome], m')

/-- The machine put back to its start. Rules added since, and the recorder, stay. -/
def reset (m : Machine) : Machine :=
  { start m.program m.table with recorder := m.recorder }

/-- The machine with one more rule. -/
def addRule (m : Machine) (r : Rule) : Except Error Machine := do
  let table ← m.table.insert r
  pure { m with table }

/-- The machine without the rules behind the first `n`. -/
def truncateRules (m : Machine) (n : Nat) : Machine := { m with table := m.table.truncate n }

/-- Adds the rules of a text, up to the first that contradicts another. -/
def addText (m : Machine) (text : String) : Except Error Unit × Machine :=
  match Program.parseRules text m.tape.blank with
  | .error e => (.error e, m)
  | .ok rules =>
    let (result, table) := m.table.insertAll rules
    (result, { m with table })

/-- Installs the recorder as the hook, or takes it out. To install another hook takes it out too,
since there is room for one only. -/
def listen (m : Machine) (on : Bool) : Machine :=
  { m with recorder := { m.recorder with on } }

/-- What the recorder has heard, and the machine with nothing heard. -/
def drain (m : Machine) : List Rule × Machine :=
  (m.recorder.heard.toList, { m with recorder := { m.recorder with heard := #[] } })

/-- The program that would start where the machine is. Its cells are those stored. -/
def capture (m : Machine) : Program where
  cells := m.tape.cells
  head := m.head - m.tape.leftmost
  blank := m.tape.blank
  start := m.state
  rules := m.table.rules

/-- Requests to a machine that change it. -/
inductive Command where
  | addRule (rule : Rule)
  | addText (text : String)
  | step
  | run (limit : Nat)
  | reset
  | listen (on : Bool)
  deriving DecidableEq, Repr

/-- Carries out a request. Only steps and runs have an outcome. -/
def perform (m : Machine) : Command → Except Error (Option Outcome) × Machine
  | .addRule r =>
    match m.addRule r with
    | .ok m' => (.ok none, m')
    | .error e => (.error e, m)
  | .addText text =>
    let (result, m') := m.addText text
    (result.map fun _ => none, m')
  | .step => (.ok (some m.step.1), m.step.2)
  | .run limit => (.ok (some (m.run limit).1), (m.run limit).2)
  | .reset => (.ok none, m.reset)
  | .listen on => (.ok none, m.listen on)

end Machine

end TapeCompiler
