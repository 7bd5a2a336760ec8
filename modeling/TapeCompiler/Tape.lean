import TapeCompiler.Rule

/-!
# Unbounded tapes

A tape has a cell for every integer. Only finitely many are stored, in two arms that grow away from
the border between `-1` and `0`; all others hold the blank. `read` is the meaning of a tape as a map
from integers to symbols, and the lemmas `read_reach` and `read_write` say what the two operations
that grow the storage do to it.
-/

namespace TapeCompiler

/-- A tape: the cells `0, 1, …` in `right` and the cells `-1, -2, …` in `left`. Cell `0` is always
stored. -/
structure Tape where
  blank : Symbol
  right : List Symbol
  left : List Symbol
  stored : right ≠ []
  deriving DecidableEq, Repr

namespace Tape

/-- The tape with the given cells from index `0` on; without any, one blank cell is stored. -/
def ofCells (cells : List Symbol) (blank : Symbol) : Tape :=
  match cells with
  | [] => ⟨blank, [blank], [], by simp⟩
  | c :: cs => ⟨blank, c :: cs, [], by simp⟩

/-- The symbol in a cell. -/
def read (t : Tape) : Int → Symbol
  | .ofNat n => t.right.getD n t.blank
  | .negSucc n => t.left.getD n t.blank

/-- An arm that stores its cell `n` and all before it. -/
def extend (blank : Symbol) (arm : List Symbol) (n : Nat) : List Symbol :=
  arm ++ List.replicate (n + 1 - arm.length) blank

theorem extend_ne_nil (blank : Symbol) (arm : List Symbol) (n : Nat) : extend blank arm n ≠ [] := by
  intro h
  have hl : (extend blank arm n).length = 0 := by rw [h]; rfl
  simp only [extend, List.length_append, List.length_replicate] at hl
  omega

/-- The tape with the cell stored, and with it all cells between it and the border. -/
def reach (t : Tape) : Int → Tape
  | .ofNat n => { t with right := extend t.blank t.right n, stored := extend_ne_nil _ _ _ }
  | .negSucc n => { t with left := extend t.blank t.left n }

/-- The tape with a symbol put into a cell. -/
def write (t : Tape) (i : Int) (v : Symbol) : Tape :=
  match i with
  | .ofNat n =>
    { t with
      right := (extend t.blank t.right n).set n v
      stored := by
        rw [ne_eq, List.set_eq_nil_iff]
        exact extend_ne_nil _ _ _ }
  | .negSucc n => { t with left := (extend t.blank t.left n).set n v }

/-- How many cells are stored left of index `0`. -/
def origin (t : Tape) : Nat := t.left.length

/-- How many cells are stored. -/
def size (t : Tape) : Nat := t.left.length + t.right.length

/-- The index of the first stored cell. -/
def leftmost (t : Tape) : Int := -t.left.length

/-- The index of the last stored cell. -/
def rightmost (t : Tape) : Int := t.right.length - 1

/-- The stored cells from left to right. -/
def cells (t : Tape) : List Symbol := t.left.reverse ++ t.right

/-- The symbols in the cells from `lo` to `hi`. -/
def window (t : Tape) (lo hi : Int) : List Symbol :=
  (List.range (hi + 1 - lo).toNat).map fun (k : Nat) => t.read (lo + k)

/-- The stored cells without the blanks at the two ends. -/
def trimmed (t : Tape) : List Symbol :=
  ((t.cells.dropWhile (· = t.blank)).reverse.dropWhile (· = t.blank)).reverse

/-- The stored cells as shown to a reader. -/
def render (t : Tape) : String := "[" ++ ", ".intercalate t.cells ++ "]"

/-- Requests to a tape. -/
inductive Request where
  | get (i : Int)
  | peek (i : Int)
  | set (i : Int) (v : Symbol)
  | window (lo hi : Int)
  deriving DecidableEq, Repr

/-- Carries out a request and answers the symbols that it asks for. Getting a cell stores it first;
peeking at it does not. -/
def perform (t : Tape) : Request → List Symbol × Tape
  | .get i => ([(t.reach i).read i], t.reach i)
  | .peek i => ([t.read i], t)
  | .set i v => ([], t.write i v)
  | .window lo hi => (t.window lo hi, t)

/-- Carries out requests one after the other. -/
def performAll (t : Tape) : List Request → List (List Symbol) × Tape
  | [] => ([], t)
  | r :: rs =>
    let (answer, t') := t.perform r
    let (answers, t'') := t'.performAll rs
    (answer :: answers, t'')

/-- Growing an arm stores blanks, which is what the new cells held already. -/
theorem getD_extend (blank : Symbol) (arm : List Symbol) (n k : Nat) :
    (extend blank arm n).getD k blank = arm.getD k blank := by
  simp only [extend, List.getD_eq_getElem?_getD, List.getElem?_append]
  by_cases hk : k < arm.length
  · simp only [hk, if_true]
  · rw [if_neg hk, List.getElem?_eq_none (Nat.le_of_not_lt hk), List.getElem?_replicate]
    split <;> rfl

theorem getD_set_extend (blank : Symbol) (arm : List Symbol) (n k : Nat) (v : Symbol) :
    ((extend blank arm n).set n v).getD k blank = if k = n then v else arm.getD k blank := by
  have hn : n < (extend blank arm n).length := by
    simp only [extend, List.length_append, List.length_replicate]
    omega
  by_cases hk : k = n
  · subst hk
    rw [if_pos rfl, List.getD_eq_getElem?_getD, List.getElem?_set_self hn, Option.getD_some]
  · rw [if_neg hk, List.getD_eq_getElem?_getD, List.getElem?_set_ne (Ne.symm hk),
      ← List.getD_eq_getElem?_getD, getD_extend]

@[simp] theorem blank_reach (t : Tape) (i : Int) : (t.reach i).blank = t.blank := by
  cases i <;> rfl

@[simp] theorem blank_write (t : Tape) (i : Int) (v : Symbol) : (t.write i v).blank = t.blank := by
  cases i <;> rfl

/-- Storing more cells does not change any. -/
@[simp] theorem read_reach (t : Tape) (i j : Int) : (t.reach i).read j = t.read j := by
  cases i with
  | ofNat n => cases j <;> simp only [reach, read, getD_extend]
  | negSucc n => cases j <;> simp only [reach, read, getD_extend]

/-- Writing changes one cell. -/
theorem read_write (t : Tape) (i j : Int) (v : Symbol) :
    (t.write i v).read j = if j = i then v else t.read j := by
  cases i with
  | ofNat n =>
    cases j with
    | ofNat k => simp only [write, read, getD_set_extend, Int.ofNat.injEq]
    | negSucc k => simp only [write, read, reduceCtorEq, if_false]
  | negSucc n =>
    cases j with
    | ofNat k => simp only [write, read, reduceCtorEq, if_false]
    | negSucc k => simp only [write, read, getD_set_extend, Int.negSucc.injEq]

@[simp] theorem read_write_self (t : Tape) (i : Int) (v : Symbol) : (t.write i v).read i = v := by
  rw [read_write, if_pos rfl]

end Tape

end TapeCompiler
