/-!
# Tallies

A tally keeps a number for every text, zero at first. Numbers are only ever raised.
-/

namespace TapeCompiler

/-- Numbers by text. -/
structure Tally where
  entries : List (String × Nat)
  deriving DecidableEq, Repr

namespace Tally

/-- The tally that is zero everywhere. -/
def zero : Tally := ⟨[]⟩

/-- The number of a text. -/
def get (t : Tally) (key : String) : Nat := (t.entries.lookup key).getD 0

/-- The entries with the number of a text raised to `n`, or left where it is greater. -/
def raiseEntry (key : String) (n : Nat) : List (String × Nat) → List (String × Nat)
  | [] => [(key, n)]
  | (k, m) :: rest => if key = k then (k, max m n) :: rest else (k, m) :: raiseEntry key n rest

/-- The tally with the number of a text raised to `n`, or left where it is greater. -/
def raise (t : Tally) (key : String) (n : Nat) : Tally := ⟨raiseEntry key n t.entries⟩

@[simp] theorem get_zero (key : String) : zero.get key = 0 := rfl

theorem get_raise (t : Tally) (key other : String) (n : Nat) :
    (t.raise key n).get other = if other = key then max (t.get key) n else t.get other := by
  obtain ⟨entries⟩ := t
  simp only [raise, get]
  induction entries with
  | nil =>
    by_cases h : other = key
    · simp [raiseEntry, h]
    · simp [raiseEntry, List.lookup_cons, beq_eq_false_iff_ne.mpr h, h]
  | cons e rest ih =>
    obtain ⟨k, m⟩ := e
    by_cases hk : key = k
    · subst hk
      by_cases h : other = key
      · simp [raiseEntry, h]
      · simp [raiseEntry, List.lookup_cons, beq_eq_false_iff_ne.mpr h, h]
    · by_cases ho : other = k
      · subst ho
        simp [raiseEntry, hk, Ne.symm hk]
      · simp only [raiseEntry, if_neg hk, List.lookup_cons, beq_eq_false_iff_ne.mpr ho,
          beq_eq_false_iff_ne.mpr hk]
        exact ih

theorem le_get_raise (t : Tally) (key other : String) (n : Nat) :
    t.get other ≤ (t.raise key n).get other := by
  rw [get_raise]
  split
  · rename_i h
    rw [h]
    exact Nat.le_max_left _ _
  · exact Nat.le_refl _

end Tally

end TapeCompiler
