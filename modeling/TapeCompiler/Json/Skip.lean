import TapeCompiler.Json.Number
import TapeCompiler.Json.Text

/-!
# Passing over JSON values

A value that is not needed only has to be well formed. It is passed over with a list of the brackets
that are open, so that values may be nested to any depth.
-/

namespace TapeCompiler.Json

/-- An open bracket. -/
inductive Bracket where
  | list
  | object
  deriving DecidableEq, Repr

namespace Bracket

/-- The character that closes a bracket. -/
def closing : Bracket → Char
  | list => ']'
  | object => '\x7d'

/-- What is left unfinished if the text ends inside a bracket. -/
def unfinished : Bracket → Unfinished
  | list => .list
  | object => .object

/-- What is missing behind a value inside a bracket. -/
def divider : Bracket → Cause
  | list => .expectedCommaOrBracket
  | object => .expectedCommaOrBrace

end Bracket

/-- Passes over the key of an object, with its colon. -/
def skipKey (cs : List Char) : Except Stop (List Char) := do
  match skipSpace cs with
  | [] => .error (stopAtEnd .object)
  | '"' :: rest => scanColon (← skipString rest)
  | rest => .error (stopWithin .keyNotString rest)

/-- Passes over whatever comes before the next value inside a bracket. -/
def enter (bracket : Bracket) (cs : List Char) : Except Stop (List Char) :=
  match bracket with
  | .list => .ok cs
  | .object => skipKey cs

/-- Passes over a value that is no list or object, if there is one. -/
def skipScalar? (cs : List Char) : Option (Except Stop (List Char)) :=
  match cs with
  | 'n' :: rest => some (scanWord ['u', 'l', 'l'] rest)
  | 't' :: rest => some (scanWord ['r', 'u', 'e'] rest)
  | 'f' :: rest => some (scanWord ['a', 'l', 's', 'e'] rest)
  | '-' :: rest => some (skipNumber rest)
  | '"' :: rest => some (skipString rest)
  | c :: rest => if c.isDigit then some (skipNumber (c :: rest)) else none
  | [] => none

/-- The opening bracket in front of a text. -/
def openingBracket? : List Char → Option (Bracket × List Char)
  | '[' :: rest => some (.list, rest)
  | '\x7b' :: rest => some (.object, rest)
  | _ => none

mutual

/-- Passes over a value inside the given brackets, and over all that follows up to the last of them.
The first argument bounds the number of rounds. -/
def skipValue : Nat → List Bracket → List Char → Except Stop (List Char)
  | 0, _, _ => .error (stopAtEnd .value)
  | rounds + 1, brackets, cs =>
    match skipSpace cs with
    | [] => .error (stopAtEnd .value)
    | c :: rest =>
      match openingBracket? (c :: rest) with
      | some (bracket, inside) => skipOpened rounds bracket brackets inside
      | none =>
        match skipScalar? (c :: rest) with
        | some (.ok rest) => skipClosed rounds brackets rest
        | some (.error e) => .error e
        | none => .error (stopWithin .expectedValue (c :: rest))

/-- Goes on behind an opening bracket. -/
def skipOpened : Nat → Bracket → List Bracket → List Char → Except Stop (List Char)
  | 0, _, _, _ => .error (stopAtEnd .value)
  | rounds + 1, bracket, brackets, cs =>
    match skipSpace cs with
    | [] => .error (stopAtEnd bracket.unfinished)
    | c :: rest =>
      if c = bracket.closing then skipClosed rounds brackets rest
      else
        match enter bracket (c :: rest) with
        | .ok rest => skipValue rounds (bracket :: brackets) rest
        | .error e => .error e

/-- Goes on behind a value. -/
def skipClosed : Nat → List Bracket → List Char → Except Stop (List Char)
  | 0, _, _ => .error (stopAtEnd .value)
  | _ + 1, [], cs => .ok cs
  | rounds + 1, bracket :: brackets, cs =>
    match skipSpace cs with
    | [] => .error (stopAtEnd bracket.unfinished)
    | c :: rest =>
      if c = ',' then
        match enter bracket rest with
        | .ok rest => skipValue rounds (bracket :: brackets) rest
        | .error e => .error e
      else if c = bracket.closing then skipClosed rounds brackets rest
      else .error (stopWithin bracket.divider (c :: rest))

end

/-- Passes over a value. Every second round takes at least one character. -/
def skip (cs : List Char) : Except Stop (List Char) := skipValue (2 * cs.length + 2) [] cs

end TapeCompiler.Json
