import TapeCompiler.Json.Fault

/-!
# Scanners of JSON text

A scanner takes a value off the front of a text, or stops with a cause. The place of a stop is given
by the number of bytes behind it.
-/

namespace TapeCompiler.Json

/-- Where and why a scanner stops. -/
structure Stop where
  cause : Cause
  left : Nat
  deriving DecidableEq, Repr

/-- Takes a value off the front of a text. -/
abbrev Scanner (α : Type) := List Char → Except Stop (α × List Char)

/-- Stops in front of the given text. -/
def stopBefore (cause : Cause) (rest : List Char) : Stop := ⟨cause, byteCount rest⟩

/-- Stops behind the first byte of the given text. -/
def stopWithin (cause : Cause) (rest : List Char) : Stop := ⟨cause, byteCount rest - 1⟩

/-- Stops at the end of the text. -/
def stopAtEnd (inside : Unfinished) : Stop := ⟨.ended inside, 0⟩

/-- The characters that may stand between the parts of a document. -/
def isSpace (c : Char) : Bool := c == ' ' || c == '\n' || c == '\t' || c == '\r'

/-- The text behind leading space. -/
def skipSpace (cs : List Char) : List Char := cs.dropWhile isSpace

/-- Takes the rest of a word whose first character has been taken. -/
def scanWord : List Char → List Char → Except Stop (List Char)
  | [], cs => .ok cs
  | _ :: _, [] => .error (stopAtEnd .value)
  | w :: ws, c :: cs =>
    if w = c then scanWord ws cs else .error (stopWithin .expectedWord (c :: cs))

/-- Takes the colon between a key and its value. -/
def scanColon (cs : List Char) : Except Stop (List Char) :=
  match skipSpace cs with
  | [] => .error (stopAtEnd .object)
  | ':' :: rest => .ok rest
  | rest => .error (stopWithin .expectedColon rest)

end TapeCompiler.Json
