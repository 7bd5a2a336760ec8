import TapeCompiler.Text.Quoted

/-!
# Why a JSON document is refused

A fault is a cause together with a place: the line, and the bytes of that line that were taken
before the reader gave up.
-/

namespace TapeCompiler.Json

/-- What a document holds where something else was wanted. -/
inductive Found where
  | null
  | boolean (value : Bool)
  | integer (value : Int)
  | float (text : String)
  | string (value : String)
  | list
  | object
  deriving DecidableEq, Repr

namespace Found

/-- The words for what was found. -/
def describe : Found → String
  | null => "null"
  | boolean true => "boolean `true`"
  | boolean false => "boolean `false`"
  | integer n => "integer `" ++ toString n ++ "`"
  | float text => "floating point `" ++ text ++ "`"
  | string s => "string " ++ Text.quote s
  | list => "sequence"
  | object => "map"

end Found

/-- What was wanted. -/
inductive Wanted where
  | string
  | integer
  | list
  | null
  | actionName
  | program
  | rule
  deriving DecidableEq, Repr

namespace Wanted

/-- The words for what was wanted. -/
def describe : Wanted → String
  | string => "a string"
  | integer => "i64"
  | list => "a sequence"
  | null => "unit"
  | actionName => "variant identifier"
  | program => "struct Program"
  | rule => "struct Rule"

end Wanted

/-- What a document ended in the middle of. -/
inductive Unfinished where
  | value
  | list
  | string
  | object
  deriving DecidableEq, Repr

namespace Unfinished

/-- The words for what was left unfinished. -/
def describe : Unfinished → String
  | value => "a value"
  | list => "a list"
  | string => "a string"
  | object => "an object"

end Unfinished

/-- The reasons for which a document is refused. -/
inductive Cause where
  | wrongType (found : Found) (wanted : Wanted)
  | integerRange (value : Int)
  | missingField (name : String)
  | duplicateField (name : String)
  | unknownAction (name : String) (known : List String)
  | tooShort (length : Nat) (wanted : Wanted) (size : Nat)
  | trailingCharacters
  | trailingComma
  | expectedValue
  | expectedColon
  | expectedCommaOrBrace
  | expectedCommaOrBracket
  | expectedWord
  | keyNotString
  | ended (inside : Unfinished)
  | badNumber
  | numberRange
  | badEscape
  | loneSurrogate
  | unfinishedSurrogate
  | controlCharacter
  deriving DecidableEq, Repr

namespace Cause

/-- The words for a cause. -/
def describe : Cause → String
  | wrongType found wanted => "invalid type: " ++ found.describe ++ ", expected " ++ wanted.describe
  | integerRange n => "invalid value: integer `" ++ toString n ++ "`, expected i64"
  | missingField name => "missing field `" ++ name ++ "`"
  | duplicateField name => "duplicate field `" ++ name ++ "`"
  | unknownAction name known =>
    "unknown variant `" ++ name ++ "`, expected one of " ++
      ", ".intercalate (known.map fun k => "`" ++ k ++ "`")
  | tooShort n wanted size =>
    "invalid length " ++ toString n ++ ", expected " ++ wanted.describe ++ " with " ++
      toString size ++ " elements"
  | trailingCharacters => "trailing characters"
  | trailingComma => "trailing comma"
  | expectedValue => "expected value"
  | expectedColon => "expected `:`"
  | expectedCommaOrBrace => "expected `,` or `\x7d`"
  | expectedCommaOrBracket => "expected `,` or `]`"
  | expectedWord => "expected ident"
  | keyNotString => "key must be a string"
  | ended inside => "EOF while parsing " ++ inside.describe
  | badNumber => "invalid number"
  | numberRange => "number out of range"
  | badEscape => "invalid escape"
  | loneSurrogate => "lone leading surrogate in hex escape"
  | unfinishedSurrogate => "unexpected end of hex escape"
  | controlCharacter => "control character (\\u0000-\\u001F) found while parsing a string"

end Cause

/-- The number of bytes of a text. -/
def byteCount (cs : List Char) : Nat := cs.foldr (fun c n => c.utf8Size + n) 0

/-- A cause with its place. -/
structure Fault where
  cause : Cause
  line : Nat
  column : Nat
  deriving DecidableEq, Repr

namespace Fault

/-- The words for a fault. -/
def describe (f : Fault) : String :=
  f.cause.describe ++ " at line " ++ toString f.line ++ " column " ++ toString f.column

/-- The fault at the place before the last `left` bytes of a text. -/
def ofPlace (text : List Char) (cause : Cause) (left : Nat) : Fault :=
  go cause text (byteCount text - left) 1 0
where
  /-- Counts lines, and bytes of the last line, over the next `bytes` bytes. -/
  go (cause : Cause) : List Char → Nat → Nat → Nat → Fault
    | [], _, line, column => ⟨cause, line, column⟩
    | c :: rest, bytes, line, column =>
      if bytes = 0 then ⟨cause, line, column⟩
      else if c = '\n' then go cause rest (bytes - 1) (line + 1) 0
      else if bytes < c.utf8Size then ⟨cause, line, column + bytes⟩
      else go cause rest (bytes - c.utf8Size) line (column + c.utf8Size)

end Fault

end TapeCompiler.Json
