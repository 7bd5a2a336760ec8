import TapeCompiler.Distinct
import TapeCompiler.Rule

/-!
# Alphabets and the names over them

An alphabet is a list of distinct characters, one of which is no digit. The names over it are the
words that do not start with a digit. `name` lists them by length and, within a length, in the order
of the alphabet: the names of one character come first, and the name `w` is followed later by
`w` with each character of the alphabet appended.
-/

namespace TapeCompiler

/-- The characters of `chars` with which a name may start: those that are no digits. -/
def leadingChars (chars : List Char) : List Char := chars.filter fun c => !c.isDigit

/-- Distinct characters with which names can be spelled. -/
structure Alphabet where
  chars : List Char
  nodup : chars.Nodup
  startable : leadingChars chars ≠ []
  deriving DecidableEq, Repr

namespace Alphabet

/-- The alphabet of a text, each character at its first occurrence. -/
def ofString? (text : String) : Option Alphabet :=
  if h : leadingChars text.toList.eraseDups ≠ [] then
    some ⟨text.toList.eraseDups, nodup_eraseDups _, h⟩
  else none

/-- The characters with which a name may start. -/
def leading (a : Alphabet) : List Char := leadingChars a.chars

/-- The small letters and the digits. -/
def standard : Alphabet where
  chars := "abcdefghijklmnopqrstuvwxyz0123456789".toList
  nodup := by decide
  startable := by decide

variable (a : Alphabet)

theorem leading_ne_nil : a.leading ≠ [] := a.startable

theorem leading_pos : 0 < a.leading.length := List.length_pos_iff.mpr a.leading_ne_nil

theorem mem_chars_of_mem_leading {c : Char} (h : c ∈ a.leading) : c ∈ a.chars :=
  (List.mem_filter.mp h).1

theorem chars_pos : 0 < a.chars.length := by
  obtain ⟨c, hc⟩ := List.exists_mem_of_length_pos a.leading_pos
  exact List.length_pos_of_mem (a.mem_chars_of_mem_leading hc)

/-- The spelling of the `n`-th name, last character first. -/
def spell (n : Nat) : List Char :=
  if h : n < a.leading.length then [a.leading[n]]
  else
    let rest := n - a.leading.length
    have : rest % a.chars.length < a.chars.length := Nat.mod_lt _ a.chars_pos
    a.chars[rest % a.chars.length] :: spell (rest / a.chars.length)
termination_by n
decreasing_by
  have := a.leading_pos
  have := Nat.div_le_self (n - a.leading.length) a.chars.length
  omega

/-- The `n`-th name. -/
def name (n : Nat) : Symbol := String.ofList (a.spell n).reverse

theorem spell_of_lt {n : Nat} (h : n < a.leading.length) : a.spell n = [a.leading[n]] := by
  rw [spell, dif_pos h]

/-- Appending the `i`-th character of the alphabet to the `n`-th name. -/
theorem spell_append (n : Nat) {i : Nat} (h : i < a.chars.length) :
    a.spell (a.leading.length + (a.chars.length * n + i)) = a.chars[i] :: a.spell n := by
  have hmod : (a.chars.length * n + i) % a.chars.length = i := by
    rw [Nat.mul_add_mod, Nat.mod_eq_of_lt h]
  have hdiv : (a.chars.length * n + i) / a.chars.length = n := by
    rw [Nat.mul_add_div a.chars_pos, Nat.div_eq_of_lt h, Nat.add_zero]
  rw [spell, dif_neg (Nat.not_lt.mpr (Nat.le_add_right _ _))]
  simp only [Nat.add_sub_cancel_left, hmod, hdiv]

/-- The first character with which a name may start. -/
def first : Char := a.leading.head a.leading_ne_nil

/-- The place of the name that is the first character `k + 1` times. -/
def runPlace : Nat → Nat
  | 0 => 0
  | k + 1 => a.leading.length + (a.chars.length * runPlace k + a.chars.idxOf a.first)

theorem spell_runPlace (k : Nat) : a.spell (a.runPlace k) = List.replicate (k + 1) a.first := by
  have hfirst : a.first ∈ a.chars := a.mem_chars_of_mem_leading (List.head_mem a.leading_ne_nil)
  induction k with
  | zero =>
    rw [runPlace, a.spell_of_lt a.leading_pos, first, List.head_eq_getElem]
    rfl
  | succ k ih =>
    have hi := List.idxOf_lt_length_of_mem hfirst
    rw [runPlace, a.spell_append _ hi, List.getElem_idxOf hi, ih]
    rfl

/-- Long names stand late in the list. -/
theorem le_runPlace (k : Nat) : k ≤ a.runPlace k := by
  induction k with
  | zero => exact Nat.zero_le _
  | succ k ih =>
    have hleading := a.leading_pos
    have hchars := Nat.le_mul_of_pos_left (a.runPlace k) a.chars_pos
    rw [runPlace]
    omega

end Alphabet

end TapeCompiler
