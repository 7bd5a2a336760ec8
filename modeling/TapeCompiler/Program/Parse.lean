import TapeCompiler.Error
import TapeCompiler.Program
import TapeCompiler.Program.Grammar

/-!
# Reading programs

A text is read without the white space at its ends. The grammar decides first whether the text is a
program at all; then the index has to be representable, and last every entry has to name an action.
-/

namespace TapeCompiler

open Text

/-- Words as the alternatives of a sentence. -/
def alternatives : List String → String
  | [] => ""
  | [a] => a
  | [a, b] => a ++ " or " ++ b
  | a :: rest => a ++ alternativesTail rest
where
  /-- The alternatives behind the first of three or more. -/
  alternativesTail : List String → String
    | [] => ""
    | [z] => ", or " ++ z
    | a :: rest => ", " ++ a ++ alternativesTail rest

/-- The report on a text that does not follow the grammar. -/
def Text.Expectation.report (e : Expectation Term) (text : List Char) : Report :=
  let words := (Term.all.filter fun t => e.terms.contains t).map Term.word
  Report.ofPlace text e.left .point ("expected " ++ alternatives words)

namespace Entry

/-- A value as meant: the sign for the blank is replaced by the blank. -/
def resolve (blank value : Symbol) : Symbol := if value = blankSign then blank else value

/-- The rule that an entry writes. -/
def toRule (blank : Symbol) (e : Entry) : Except Error Rule :=
  let (next, code) :=
    match e.fifth with
    | some code => (e.fourth, code)
    | none => (e.state, e.fourth)
  match Action.ofCode? code with
  | some action => .ok ⟨resolve blank e.value, e.state, resolve blank e.write, next, action⟩
  | none => .error (.misuse (.action code))

end Entry

namespace WrittenIndex

/-- The number that an index writes. -/
def value (i : WrittenIndex) : Int :=
  match i.text with
  | '-' :: digits => -(Nat.ofDigitChars 10 digits 0 : Int)
  | digits => (Nat.ofDigitChars 10 digits 0 : Int)

/-- The representable number that an index of `text` writes. -/
def resolve (text : List Char) (i : WrittenIndex) : Except Error Int :=
  if Program.Representable i.value then .ok i.value
  else
    .error (.unreadable (Report.ofPlace text i.left (.stretch i.text.length)
      ("Invalid index: " ++ String.ofList i.text)))

end WrittenIndex

namespace Program

/-- Reads all of a text by a reader of the grammar. -/
def readText {α : Type} (p : Reader Term α) (text : List Char) : Except Error α :=
  match p.parse text with
  | .ok a => .ok a
  | .error e => .error (.unreadable (e.report text))

/-- The program that a text writes. -/
def parse (input : String) : Except Error Program := do
  let text := trim input.toList
  let source ← readText Grammar.program text
  let head ← match source.index with
    | some i => i.resolve text
    | none => pure 0
  let rules ← source.entries.mapM (Entry.toRule source.blank)
  pure ⟨source.cells, head, source.blank, source.start, rules⟩

/-- The rules that a text writes, where `blank` is the blank. -/
def parseRules (input : String) (blank : Symbol) : Except Error (List Rule) := do
  let entries ← readText Grammar.table (trim input.toList)
  entries.mapM (Entry.toRule blank)

end Program

end TapeCompiler
