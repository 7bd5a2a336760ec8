import TapeCompiler.Error
import TapeCompiler.Json.Record

/-!
# Reading programs from JSON
-/

namespace TapeCompiler

namespace Json

/-- The action of a name that has just been taken. -/
def toAction (name : String) (rest : List Char) : Except Stop (Action × List Char) :=
  match Action.ofName? name with
  | some action => .ok (action, rest)
  | none => .error (stopBefore (.unknownAction name (Action.all.map Action.name)) rest)

/-- Takes the null that stands behind the name of an action in an object. -/
def scanNull (cs : List Char) : Except Stop (List Char) :=
  match skipSpace cs with
  | [] => .error (stopAtEnd .value)
  | 'n' :: rest => scanWord ['u', 'l', 'l'] rest
  | rest => .error (refuse .null rest)

/-- Takes an action: its name, or an object with its name as the only key and no value. -/
def scanAction : Scanner Action := fun cs => do
  match skipSpace cs with
  | [] => .error (stopAtEnd .value)
  | '"' :: rest =>
    let (name, rest) ← scanString rest
    toAction (String.ofList name) rest
  | '\x7b' :: rest =>
    let (name, rest) ← scanText .actionName rest
    let (action, rest) ← toAction name rest
    let rest ← scanColon rest
    let rest ← scanNull rest
    match skipSpace rest with
    | [] => .error (stopAtEnd .object)
    | '\x7d' :: rest => pure (action, rest)
    | rest => .error (stopBefore .expectedValue rest)
  | rest => .error (stopWithin .expectedValue rest)

/-- A rule of which some fields have been read. -/
structure RuleDraft where
  value : Option Symbol := none
  state : Option Symbol := none
  write : Option Symbol := none
  next : Option Symbol := none
  action : Option Action := none

/-- A program of which some fields have been read. -/
structure ProgramDraft where
  cells : Option (List Symbol) := none
  head : Option Int := none
  blank : Option Symbol := none
  start : Option Symbol := none
  rules : Option (List Rule) := none

/-- A value that has been read, or the name of its field. -/
def require {α : Type} (name : String) (value : Option α) : Except String α :=
  match value with
  | some a => .ok a
  | none => .error name

/-- Takes a value and stores it in a draft. -/
def store {σ α : Type} (scan : Scanner α) (put : α → σ) : Scanner σ := fun cs => do
  let (a, rest) ← scan cs
  pure (put a, rest)

/-- The fields of a rule. -/
def ruleSchema : Schema RuleDraft Rule where
  wanted := .rule
  fields := [
    ⟨"value", fun d => d.value.isSome,
      fun d => store (scanText .string) fun s => { d with value := some s }⟩,
    ⟨"state", fun d => d.state.isSome,
      fun d => store (scanText .string) fun s => { d with state := some s }⟩,
    ⟨"next_value", fun d => d.write.isSome,
      fun d => store (scanText .string) fun s => { d with write := some s }⟩,
    ⟨"next_state", fun d => d.next.isSome,
      fun d => store (scanText .string) fun s => { d with next := some s }⟩,
    ⟨"action", fun d => d.action.isSome,
      fun d => store scanAction fun a => { d with action := some a }⟩]
  blank := {}
  finish d := do
    let value ← require "value" d.value
    let state ← require "state" d.state
    let write ← require "next_value" d.write
    let next ← require "next_state" d.next
    let action ← require "action" d.action
    pure ⟨value, state, write, next, action⟩

/-- The fields of a program. -/
def programSchema : Schema ProgramDraft Program where
  wanted := .program
  fields := [
    ⟨"tape", fun d => d.cells.isSome,
      fun d => store (scanList (scanText .string)) fun cs => { d with cells := some cs }⟩,
    ⟨"index", fun d => d.head.isSome,
      fun d => store scanInteger fun i => { d with head := some i }⟩,
    ⟨"default", fun d => d.blank.isSome,
      fun d => store (scanText .string) fun s => { d with blank := some s }⟩,
    ⟨"initial_state", fun d => d.start.isSome,
      fun d => store (scanText .string) fun s => { d with start := some s }⟩,
    ⟨"rules", fun d => d.rules.isSome,
      fun d => store (scanList (scanRecord ruleSchema)) fun rs => { d with rules := some rs }⟩]
  blank := {}
  finish d := do
    let cells ← require "tape" d.cells
    let head ← require "index" d.head
    let blank ← require "default" d.blank
    let start ← require "initial_state" d.start
    let rules ← require "rules" d.rules
    pure ⟨cells, head, blank, start, rules⟩

/-- Takes a program that fills a whole document. -/
def scanDocument (cs : List Char) : Except Stop Program := do
  let (program, rest) ← scanRecord programSchema cs
  match skipSpace rest with
  | [] => pure program
  | rest => .error (stopWithin .trailingCharacters rest)

end Json

/-- The program of a JSON document. -/
def Program.ofJson (text : String) : Except Error Program :=
  match Json.scanDocument text.toList with
  | .ok program => .ok program
  | .error stop => .error (.misuse (.json (Json.Fault.ofPlace text.toList stop.cause stop.left)))

end TapeCompiler
