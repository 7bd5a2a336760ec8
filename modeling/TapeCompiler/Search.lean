/-!
# Searching the natural numbers

`firstSuch p bound h` is the least number with the property `p`, found by trying `0, 1, 2, …`. The
search ends because `h` says that some number up to `bound` has the property; it never looks at the
bound, which can be far above what is found.
-/

namespace TapeCompiler

/-- The least number from `n` on with the property `p`, if none below `n` has it. -/
def searchFrom (p : Nat → Bool) (bound : Nat) (h : ∃ k ≤ bound, p k = true) (n : Nat)
    (below : ∀ j, j < n → p j = false) : Nat :=
  if hn : p n = true then n
  else
    searchFrom p bound h (n + 1) fun j hj => by
      rcases Nat.lt_succ_iff_lt_or_eq.mp hj with hlt | rfl
      · exact below j hlt
      · simpa using hn
termination_by bound - n
decreasing_by
  obtain ⟨k, hk, found⟩ := h
  have hne : k ≠ n := fun e => hn (e ▸ found)
  have hge : n ≤ k := by
    apply Nat.le_of_not_lt
    intro hlt
    rw [below _ hlt] at found
    cases found
  omega

/-- The least number with the property `p`. -/
def firstSuch (p : Nat → Bool) (bound : Nat) (h : ∃ k ≤ bound, p k = true) : Nat :=
  searchFrom p bound h 0 fun _ hj => absurd hj (Nat.not_lt_zero _)

variable {p : Nat → Bool} {bound : Nat} {h : ∃ k ≤ bound, p k = true}

theorem searchFrom_spec (n : Nat) (below : ∀ j, j < n → p j = false) :
    p (searchFrom p bound h n below) = true ∧
      ∀ j, j < searchFrom p bound h n below → p j = false := by
  fun_induction searchFrom p bound h n below with
  | case1 n below hn => exact ⟨hn, below⟩
  | case2 n below hn ih => exact ih

theorem firstSuch_spec (h : ∃ k ≤ bound, p k = true) : p (firstSuch p bound h) = true :=
  (searchFrom_spec 0 _).1

theorem eq_false_of_lt_firstSuch {j : Nat} (hj : j < firstSuch p bound h) : p j = false :=
  (searchFrom_spec 0 _).2 j hj

/-- A number with the property, below which none has it, is what the search finds. -/
theorem firstSuch_eq {n : Nat} (hn : p n = true) (below : ∀ j, j < n → p j = false) :
    firstSuch p bound h = n := by
  rcases Nat.lt_trichotomy (firstSuch p bound h) n with hlt | heq | hgt
  · have hfound := firstSuch_spec h
    rw [below _ hlt] at hfound
    cases hfound
  · exact heq
  · rw [eq_false_of_lt_firstSuch hgt] at hn
    cases hn

end TapeCompiler
