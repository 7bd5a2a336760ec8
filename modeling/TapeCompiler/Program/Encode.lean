import TapeCompiler.Error
import TapeCompiler.Program
import TapeCompiler.Text.Space

/-!
# Writing programs

A program is written on one line (`encode`), or with each rule on a line of its own (`encodeLines`).
A program with a symbol that would not read back as itself is refused.
-/

namespace TapeCompiler

/-- Whether a symbol can be written as it is: it is not empty and holds no white space, colon or
comma. -/
def Symbol.isToken (s : Symbol) : Bool :=
  s.toList ≠ [] && s.toList.all fun c => !(Text.isSpace c || c == ':' || c == ',')

/-- Whether a symbol can be written where nothing stands for the empty symbol. -/
def Symbol.isTokenOrEmpty (s : Symbol) : Bool := s.toList = [] || Symbol.isToken s

namespace Rule

/-- A value as written: the blank by its sign, which no other value may look like. -/
def encodeValue (blank value : Symbol) : Except Error String :=
  if value = blank then .ok blankSign
  else if value ≠ blankSign ∧ Symbol.isToken value then .ok value
  else .error (.misuse (.unwritable .value value))

/-- A state as written. -/
def encodeState (state : Symbol) : Except Error String :=
  if Symbol.isToken state then .ok state else .error (.misuse (.unwritable .state state))

/-- The rule as written. -/
def encode (blank : Symbol) (r : Rule) : Except Error String := do
  let value ← encodeValue blank r.value
  let state ← encodeState r.state
  let write ← encodeValue blank r.write
  let next ← encodeState r.next
  pure (value ++ " " ++ state ++ " -> " ++ write ++ " " ++ next ++ " " ++ r.action.code)

end Rule

namespace Program

/-- Why the first line of a program can not be written: the first of its symbols that would not read
back. -/
def headerFault? (p : Program) : Option Misuse :=
  if p.cells = [] then some .noCells
  else
    match p.cells.find? fun c => !Symbol.isTokenOrEmpty c with
    | some cell => some (.unwritable .cell cell)
    | none =>
      if !Symbol.isTokenOrEmpty p.blank then some (.unwritable .filler p.blank)
      else if !Symbol.isToken p.start then some (.unwritable .state p.start)
      else none

/-- The first line of a program as written. -/
def encodeHeader (p : Program) : Except Error String :=
  match p.headerFault? with
  | some fault => .error (.misuse fault)
  | none =>
    .ok (",".intercalate p.cells ++ ":" ++ toString p.head ++ ":" ++ p.blank ++ ":" ++ p.start)

/-- The rules of a program as written. -/
def encodeRules (p : Program) : Except Error (List String) := p.rules.mapM (Rule.encode p.blank)

/-- The program on one line. -/
def encode (p : Program) : Except Error String := do
  let rules ← p.encodeRules
  let header ← p.encodeHeader
  pure (header ++ ":" ++ ",".intercalate rules)

/-- The program with its rules on lines of their own. -/
def encodeLines (p : Program) : Except Error String := do
  let header ← p.encodeHeader
  let rules ← p.encodeRules
  pure ("\n".intercalate (header :: rules) ++ "\n")

end Program

end TapeCompiler
