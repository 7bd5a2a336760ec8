import TapeCompiler.Rule

/-!
# Labels

A label is a name of letters with a number behind them. Labels with the same letters form a series.
-/

namespace TapeCompiler

/-- Letters with a number. -/
structure Label where
  letters : String
  number : Nat
  deriving DecidableEq, Repr

namespace Label

/-- The largest number of a label: that of an unsigned 64-bit word. -/
def maxNumber : Nat := 0xFFFFFFFFFFFFFFFF

/-- The label that a symbol spells: one or more letters of the basic alphabet and then only digits.
Without digits the number is `0`. -/
def ofSymbol? (s : Symbol) : Option Label :=
  let letters := s.toList.takeWhile Char.isAlpha
  let digits := s.toList.dropWhile Char.isAlpha
  let number := Nat.ofDigitChars 10 digits 0
  if letters ≠ [] ∧ digits.all Char.isDigit ∧ number ≤ maxNumber then
    some ⟨String.ofList letters, number⟩
  else none

/-- The symbol of a label. -/
def symbol (l : Label) : Symbol := l.letters ++ toString l.number

/-- A symbol whose characters are all alike spells no label with a positive number. -/
theorem number_eq_zero_of_replicate {c : Char} {n : Nat} {l : Label}
    (h : ofSymbol? (String.ofList (List.replicate (n + 1) c)) = some l) : l.number = 0 := by
  simp only [ofSymbol?, String.toList_ofList] at h
  split at h
  · rename_i hd
    cases h
    by_cases ha : c.isAlpha = true
    · simp [ha]
    · have : (List.replicate (n + 1) c).takeWhile Char.isAlpha = [] := by
        rw [List.replicate_succ, List.takeWhile_cons_of_neg ha]
      exact absurd this hd.1
  · cases h

end Label

end TapeCompiler
