import TapeCompiler.Rule
import TapeCompiler.Text.Reader

/-!
# The grammar of written programs

A written program has a first line of four sections divided by colons: the cells of the tape divided
by commas, the index of the head, the blank and the start state. Entries follow, behind another
colon or on lines of their own. An entry is `value state -> write next action`; the next state may
be left out if it is the state itself. Spaces and tabs may stand between any two parts.
-/

namespace TapeCompiler

/-- The parts of a written program, as they are named in error messages. -/
inductive Term where
  | ending
  | symbol
  | cell
  | tape
  | index
  | blank
  | state
  | entry
  | entries
  | program
  | table
  deriving DecidableEq, Repr

namespace Term

/-- The name of a part. -/
def word : Term → String
  | ending => "EOI"
  | symbol => "symbol"
  | cell => "cell"
  | tape => "tape"
  | index => "index"
  | blank => "blank"
  | state => "state"
  | entry => "entry"
  | entries => "entries"
  | program => "program"
  | table => "table"

/-- All parts, in the order in which they are listed to a reader. -/
def all : List Term :=
  [ending, symbol, cell, tape, index, blank, state, entry, entries, program, table]

end Term

/-- An entry as written. The last of four or five symbols names the action. -/
structure Entry where
  value : Symbol
  state : Symbol
  write : Symbol
  fourth : Symbol
  fifth : Option Symbol
  deriving DecidableEq, Repr

/-- An index as written, with the place where it stands. -/
structure WrittenIndex where
  text : List Char
  left : Nat
  deriving DecidableEq, Repr

/-- A program as written. -/
structure Source where
  cells : List Symbol
  index : Option WrittenIndex
  blank : Symbol
  start : Symbol
  entries : List Entry
  deriving DecidableEq, Repr

namespace Grammar

open Text

/-- The characters of a symbol. -/
def isSymbolChar (c : Char) : Bool :=
  !(c == ' ' || c == '\t' || c == '\n' || c == '\r' || c == ',' || c == ':')

/-- A symbol: one or more of its characters, as many as there are. -/
def symbol : Reader Term Symbol := ((Reader.run isSymbolChar).map String.ofList).named .symbol

/-- A symbol that may be empty. -/
def symbolOrEmpty : Reader Term Symbol := symbol.optional.map fun s => s.getD ""

/-- A comma. -/
def comma : Reader Term Unit := Reader.literal [',']

/-- A colon. -/
def colon : Reader Term Unit := Reader.literal [':']

/-- The end of a line. -/
def lineBreak : Reader Term Unit :=
  (Reader.literal ['\n']).orElse ((Reader.literal ['\r', '\n']).orElse (Reader.literal ['\r']))

/-- The ends of one or more lines. -/
def lineBreaks : Reader Term Unit := (lineBreak.seq lineBreak.many).map fun _ => ()

/-- The arrow of an entry. -/
def arrow : Reader Term Unit :=
  (Reader.literal ['-', '-', '>']).orElse (Reader.literal ['-', '>'])

/-- The end of the text. -/
def ending : Reader Term Unit := Reader.ending.named .ending

/-- The cells of the tape. -/
def tape : Reader Term (List Symbol) :=
  let cell := symbolOrEmpty.named .cell
  ((cell.seq (comma.seqRight cell).many).map fun r => r.1 :: r.2).named .tape

/-- Digits, with a minus sign in front if there is one. -/
def readNumeral : List Char → Option (List Char × List Char)
  | '-' :: cs =>
    if cs.takeWhile Char.isDigit = [] then none
    else some ('-' :: cs.takeWhile Char.isDigit, cs.dropWhile Char.isDigit)
  | cs =>
    if cs.takeWhile Char.isDigit = [] then none
    else some (cs.takeWhile Char.isDigit, cs.dropWhile Char.isDigit)

/-- The index of the head. -/
def index : Reader Term WrittenIndex :=
  let numeral : Reader Term (List Char) := ⟨readNumeral, fun _ e => e⟩
  (numeral.named .index).located.map fun r => ⟨r.1, r.2⟩

/-- The blank. -/
def blank : Reader Term Symbol := symbolOrEmpty.named .blank

/-- The start state. -/
def state : Reader Term Symbol := symbol.named .state

/-- One entry. -/
def entry : Reader Term Entry :=
  ((symbol.seq ((symbol.seqLeft arrow).seq (symbol.seq (symbol.seq symbol.optional)))).map
    fun (value, state, write, fourth, fifth) => ⟨value, state, write, fourth, fifth⟩).named .entry

/-- One or more entries, divided by commas or line breaks. -/
def entries : Reader Term (List Entry) :=
  let more := ((comma.orElse lineBreaks).seqRight entry).many
  ((entry.seq more).map fun r => r.1 :: r.2).named .entries

/-- What may follow the first line: a colon and entries, or entries on lines of their own. -/
def body : Reader Term (List Entry) :=
  ((colon.seqRight entries.optional).map fun es => es.getD []).orElse (lineBreaks.seqRight entries)

/-- Line breaks up to the end of the text. -/
def finish : Reader Term Unit := lineBreak.many.seqRight ending

/-- A whole program. -/
def program : Reader Term Source :=
  (((tape.seqLeft colon).seq ((index.optional.seqLeft colon).seq ((blank.seqLeft colon).seq
    (state.seq (body.optional.seqLeft finish))))).map
      fun (cells, index, blank, start, entries) =>
        ⟨cells, index, blank, start, entries.getD []⟩).named .program

/-- A list of entries, which may be empty. -/
def table : Reader Term (List Entry) :=
  ((entries.optional.seqLeft finish).map fun es => es.getD []).named .table

end Grammar

end TapeCompiler
