import TapeCompiler.Text.Space

/-!
# Readers

A reader takes a value off the front of a text, or refuses the text. Readers are built from smaller
ones by sequence, choice and repetition, with padding allowed between the parts of a sequence, and
choices are never taken back.

A reader has two halves. `read` is what it takes; `note` is its account of what it expected at the
furthest place that it came to, for the reader of an error message. `read` does not depend on
`note`. Places of a text are given by the number of characters behind them.
-/

namespace TapeCompiler.Text

/-- What was expected at the furthest place. -/
structure Expectation (τ : Type) where
  left : Nat
  terms : List τ
  deriving DecidableEq, Repr

namespace Expectation

variable {τ : Type}

/-- How many terms are noted for a place. -/
def count (e : Expectation τ) (left : Nat) : Nat := if e.left = left then e.terms.length else 0

/-- Notes that `term` was expected at a place, instead of what was noted there after the first
`kept` terms. A place before the furthest one is not noted. -/
def record (e : Expectation τ) (term : τ) (left kept : Nat) : Expectation τ :=
  if left < e.left then ⟨left, [term]⟩
  else if left = e.left then ⟨left, e.terms.take kept ++ [term]⟩
  else e

end Expectation

/-- The text behind its leading padding. -/
def skipPadding (cs : List Char) : List Char := cs.dropWhile isPadding

/-- A reader of values of type `α` that explains itself in terms of type `τ`. -/
structure Reader (τ α : Type) where
  read : List Char → Option (α × List Char)
  note : List Char → Expectation τ → Expectation τ

namespace Reader

variable {τ α β : Type}

/-- Reads as `p` does and changes the value. -/
def map (f : α → β) (p : Reader τ α) : Reader τ β where
  read cs := (p.read cs).map fun r => (f r.1, r.2)
  note := p.note

/-- What remains behind the given characters. -/
def after? : List Char → List Char → Option (List Char)
  | [], cs => some cs
  | _ :: _, [] => none
  | w :: ws, c :: cs => if w = c then after? ws cs else none

/-- Reads exactly the given characters. -/
def literal (word : List Char) : Reader τ Unit where
  read cs := (after? word cs).map fun rest => ((), rest)
  note _ e := e

/-- Reads the longest run of characters of a class, which must not be empty. -/
def run (p : Char → Bool) : Reader τ (List Char) where
  read cs := if cs.takeWhile p = [] then none else some (cs.takeWhile p, cs.dropWhile p)
  note _ e := e

/-- Reads the end of the text. -/
def ending : Reader τ Unit where
  read cs := if cs = [] then some ((), []) else none
  note _ e := e

/-- Reads `p`, padding, and `q`. -/
def seq (p : Reader τ α) (q : Reader τ β) : Reader τ (α × β) where
  read cs :=
    match p.read cs with
    | none => none
    | some (a, rest) => (q.read (skipPadding rest)).map fun r => ((a, r.1), r.2)
  note cs e :=
    match p.read cs with
    | none => p.note cs e
    | some (_, rest) => q.note (skipPadding rest) (p.note cs e)

/-- Reads `p`, padding, and `q`, and keeps the value of `p`. -/
def seqLeft (p : Reader τ α) (q : Reader τ β) : Reader τ α := (p.seq q).map Prod.fst

/-- Reads `p`, padding, and `q`, and keeps the value of `q`. -/
def seqRight (p : Reader τ α) (q : Reader τ β) : Reader τ β := (p.seq q).map Prod.snd

/-- Reads `p` if it can. -/
def optional (p : Reader τ α) : Reader τ (Option α) where
  read cs :=
    match p.read cs with
    | none => some (none, cs)
    | some (a, rest) => some (some a, rest)
  note := p.note

/-- Reads `p`, or else `q`. -/
def orElse (p q : Reader τ α) : Reader τ α where
  read cs :=
    match p.read cs with
    | none => q.read cs
    | some r => some r
  note cs e :=
    match p.read cs with
    | none => q.note cs (p.note cs e)
    | some _ => p.note cs e

/-- Reads padding and `p` as often as it can, as long as each round takes something. -/
def readMore (p : Reader τ α) (cs : List Char) : List α × List Char :=
  match p.read (skipPadding cs) with
  | none => ([], cs)
  | some (a, rest) =>
    if rest.length < cs.length then
      let more := readMore p rest
      (a :: more.1, more.2)
    else ([a], rest)
termination_by cs.length

/-- The account of `readMore`. -/
def noteMore (p : Reader τ α) (cs : List Char) (e : Expectation τ) : Expectation τ :=
  match p.read (skipPadding cs) with
  | none => p.note (skipPadding cs) e
  | some (_, rest) =>
    if rest.length < cs.length then noteMore p rest (p.note (skipPadding cs) e)
    else p.note (skipPadding cs) e
termination_by cs.length

/-- Reads `p` as often as it can, with padding in between. -/
def many (p : Reader τ α) : Reader τ (List α) where
  read cs :=
    match p.read cs with
    | none => some ([], cs)
    | some (a, rest) =>
      let more := readMore p rest
      some (a :: more.1, more.2)
  note cs e :=
    match p.read cs with
    | none => p.note cs e
    | some (_, rest) => noteMore p rest (p.note cs e)

/-- Reads `p`, and keeps the place where it starts with its value. -/
def located (p : Reader τ α) : Reader τ (α × Nat) where
  read cs := (p.read cs).map fun r => ((r.1, cs.length), r.2)
  note := p.note

/-- Reads `p` under a name. If `p` refuses, the name takes the place of what `p` has noted at its
own start, unless that is just one term. -/
def named (term : τ) (p : Reader τ α) : Reader τ α where
  read := p.read
  note cs e :=
    let noted := p.note cs e
    match p.read cs with
    | some _ => noted
    | none =>
      if noted.count cs.length = e.count cs.length + 1 then noted
      else noted.record term cs.length (e.count cs.length)

/-- Reads from the start of a text, or says what was expected. -/
def parse (p : Reader τ α) (text : List Char) : Except (Expectation τ) α :=
  match p.read text with
  | some (a, _) => .ok a
  | none => .error (p.note text ⟨text.length, []⟩)

end Reader

end TapeCompiler.Text
