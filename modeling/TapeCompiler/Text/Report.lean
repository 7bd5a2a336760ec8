/-!
# Reports on a text

A report points at a place of a text: its line and column, the line itself with the place marked
below, and a reason. Lines and columns count from one and columns count characters.
-/

namespace TapeCompiler.Text

/-- How a place is marked: as a point, or as a stretch of some characters. -/
inductive Mark where
  | point
  | stretch (length : Nat)
  deriving DecidableEq, Repr

namespace Mark

/-- The mark as drawn below a line. -/
def draw : Mark → List Char
  | point => ['^', '-', '-', '-']
  | stretch n => if n ≤ 1 then ['^'] else '^' :: List.replicate (n - 2) '-' ++ ['^']

end Mark

/-- A place of a text with the reason why the text is refused there. -/
structure Report where
  line : Nat
  column : Nat
  excerpt : List Char
  underline : List Char
  reason : String
  deriving DecidableEq, Repr

namespace Report

/-- Line and column of the place behind the given characters, counting on from `line` and `column`.
A carriage return ends a line only together with a line feed. -/
def advance (line column : Nat) : List Char → Nat × Nat
  | [] => (line, column)
  | '\r' :: '\n' :: rest => advance (line + 1) 1 rest
  | '\n' :: rest => advance (line + 1) 1 rest
  | _ :: rest => advance line (column + 1) rest

/-- The characters up to the first line feed, with it. -/
def throughLineFeed : List Char → List Char
  | [] => []
  | c :: rest => if c = '\n' then [c] else c :: throughLineFeed rest

/-- Line ends drawn as visible characters. -/
def visible (c : Char) : Char :=
  if c = '\r' then '␍' else if c = '\n' then '␊' else c

/-- The line that holds the place between `before` and `after`. Its line ends are left out, unless
the place is on one: then they are drawn. -/
def lineAround (before after : List Char) : List Char :=
  let line := (before.reverse.takeWhile (· ≠ '\n')).reverse ++ throughLineFeed after
  match after with
  | '\r' :: _ | '\n' :: _ => line.map visible
  | _ => line.filter fun c => c ≠ '\r' && c ≠ '\n'

/-- A report on the place of `text` with `left` characters behind it. -/
def ofPlace (text : List Char) (left : Nat) (mark : Mark) (reason : String) : Report :=
  let before := text.take (text.length - left)
  let place := advance 1 1 before
  let excerpt := lineAround before (text.drop (text.length - left))
  let indent := (excerpt.take (place.2 - 1)).map fun c => if c = '\t' then '\t' else ' '
  { line := place.1, column := place.2, excerpt, underline := indent ++ mark.draw, reason }

/-- The report as a drawing of six lines. -/
def render (r : Report) : String :=
  let number := toString r.line
  let margin := String.ofList (List.replicate number.length ' ')
  margin ++ "--> " ++ number ++ ":" ++ toString r.column ++ "\n" ++
  margin ++ " |\n" ++
  number ++ " | " ++ String.ofList r.excerpt ++ "\n" ++
  margin ++ " | " ++ String.ofList r.underline ++ "\n" ++
  margin ++ " |\n" ++
  margin ++ " = " ++ r.reason

end Report

end TapeCompiler.Text
