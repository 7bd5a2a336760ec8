/-!
# Lists without repetitions

`List.eraseDups` keeps the first occurrence of every entry. Its result has no repetition, and a list
without repetitions is its own result.
-/

namespace TapeCompiler

theorem nodup_eraseDups {α : Type} [BEq α] [LawfulBEq α] (l : List α) : l.eraseDups.Nodup := by
  have bounded : ∀ n (l : List α), l.length ≤ n → l.eraseDups.Nodup := by
    intro n
    induction n with
    | zero =>
      intro l hl
      rw [List.eq_nil_of_length_eq_zero (Nat.le_zero.mp hl)]
      simp
    | succ n ih =>
      intro l hl
      cases l with
      | nil => simp
      | cons a l =>
        rw [List.eraseDups_cons, List.nodup_cons]
        refine ⟨?_, ih _ ?_⟩
        · rw [List.mem_eraseDups]
          simp
        · have hf := List.length_filter_le (fun b => !b == a) l
          rw [List.length_cons] at hl
          omega
  exact bounded l.length l (Nat.le_refl _)

theorem eraseDups_of_nodup {α : Type} [BEq α] [LawfulBEq α] {l : List α} (h : l.Nodup) :
    l.eraseDups = l := by
  induction l with
  | nil => rfl
  | cons a l ih =>
    rw [List.nodup_cons] at h
    have hfilter : l.filter (fun b => !b == a) = l := by
      rw [List.filter_eq_self]
      intro b hb
      rw [Bool.not_eq_true', beq_eq_false_iff_ne]
      rintro rfl
      exact h.1 hb
    rw [List.eraseDups_cons, hfilter, ih h.2]

/-- Repetitions can be taken out of a first part of a list before the rest. -/
theorem eraseDups_append_eraseDups {α : Type} [BEq α] [LawfulBEq α] (l l' : List α) :
    (l.eraseDups ++ l').eraseDups = (l ++ l').eraseDups := by
  have hremove : l'.removeAll l.eraseDups = l'.removeAll l := by
    simp only [List.removeAll, List.elem_eq_mem, List.mem_eraseDups]
  rw [List.eraseDups_append, List.eraseDups_append, eraseDups_of_nodup (nodup_eraseDups l), hremove]

end TapeCompiler
