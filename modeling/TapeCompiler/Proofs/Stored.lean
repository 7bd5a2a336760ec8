import TapeCompiler.Tape

/-!
# Stored cells

The two arms of a tape are one row of stored cells, from `leftmost` to `rightmost`. Seen this way,
`reach` puts blanks at the ends of the row, `write` sets one of its members, and a cell is read at
its distance from the first one.
-/

namespace TapeCompiler.Tape

variable {t : Tape} {i : Int} {v x : Symbol}

theorem leftmost_reach : (t.reach i).leftmost = min t.leftmost i := by
  cases i with
  | ofNat n =>
    simp only [reach, leftmost, Int.ofNat_eq_natCast]
    omega
  | negSucc n =>
    simp only [reach, leftmost, extend, List.length_append, List.length_replicate]
    omega

theorem rightmost_reach : (t.reach i).rightmost = max t.rightmost i := by
  have hstored := List.length_pos_iff.mpr t.stored
  cases i with
  | ofNat n =>
    simp only [reach, rightmost, extend, List.length_append, List.length_replicate,
      Int.ofNat_eq_natCast]
    omega
  | negSucc n =>
    simp only [reach, rightmost]
    omega

/-- Reaching for a cell stores blanks up to it, on the side on which it is. -/
theorem cells_reach :
    (t.reach i).cells = List.replicate (t.leftmost - i).toNat t.blank ++ t.cells ++
      List.replicate (i - t.rightmost).toNat t.blank := by
  cases i with
  | ofNat n =>
    have hleft : (t.leftmost - n).toNat = 0 := by
      simp only [leftmost]
      omega
    have hright : ((n : Int) - t.rightmost).toNat = n + 1 - t.right.length := by
      simp only [rightmost]
      omega
    rw [Int.ofNat_eq_natCast, hleft, hright]
    simp [reach, cells, extend]
  | negSucc n =>
    have hleft : (t.leftmost - Int.negSucc n).toNat = n + 1 - t.left.length := by
      simp only [leftmost]
      omega
    have hright : (Int.negSucc n - t.rightmost).toNat = 0 := by
      simp only [rightmost]
      omega
    rw [hleft, hright]
    simp [reach, cells, extend]

theorem leftmost_write : (t.write i v).leftmost = (t.reach i).leftmost := by
  cases i <;> simp [write, reach, leftmost]

theorem rightmost_write : (t.write i v).rightmost = (t.reach i).rightmost := by
  cases i <;> simp [write, reach, rightmost]

theorem reverse_set {l : List Symbol} {n : Nat} (h : n < l.length) :
    (l.set n v).reverse = l.reverse.set (l.length - 1 - n) v := by
  apply List.ext_getElem?
  intro k
  by_cases hk : k < l.length
  · rw [List.getElem?_reverse (by simpa using hk), List.length_set]
    by_cases hkn : l.length - 1 - n = k
    · subst hkn
      have hn : l.length - 1 - (l.length - 1 - n) = n := by omega
      rw [List.getElem?_set_self (by simp; omega), hn, List.getElem?_set_self h]
    · rw [List.getElem?_set_ne hkn, List.getElem?_set_ne (by omega), List.getElem?_reverse hk]
  · rw [List.getElem?_eq_none (by simpa using hk), List.getElem?_eq_none (by simpa using hk)]

/-- Writing stores the cell and sets it. -/
theorem cells_write :
    (t.write i v).cells = (t.reach i).cells.set (i - (t.reach i).leftmost).toNat v := by
  cases i with
  | ofNat n =>
    have hindex : (Int.ofNat n - (t.reach (Int.ofNat n)).leftmost).toNat =
        t.left.reverse.length + n := by
      simp only [reach, leftmost, List.length_reverse, Int.ofNat_eq_natCast]
      omega
    rw [hindex]
    simp [write, reach, cells]
  | negSucc n =>
    have hn : n < (extend t.blank t.left n).length := by
      simp only [extend, List.length_append, List.length_replicate]
      omega
    have hindex : (Int.negSucc n - (t.reach (Int.negSucc n)).leftmost).toNat =
        (extend t.blank t.left n).length - 1 - n := by
      simp only [reach, leftmost]
      omega
    rw [hindex]
    simp only [write, reach, cells]
    rw [reverse_set hn, List.set_append_left _ _ (by simp; omega)]

/-- A cell is read at its distance from the first stored one, if it is not before it. -/
theorem read_eq_getD (h : t.leftmost ≤ i) :
    t.read i = t.cells.getD (i - t.leftmost).toNat t.blank := by
  simp only [leftmost] at h ⊢
  cases i with
  | ofNat n =>
    have hindex : (Int.ofNat n - -(t.left.length : Int)).toNat = t.left.reverse.length + n := by
      simp only [List.length_reverse, Int.ofNat_eq_natCast]
      omega
    rw [hindex, read, cells, List.getD_eq_getElem?_getD, List.getD_eq_getElem?_getD,
      List.getElem?_append_right (Nat.le_add_right _ _), Nat.add_sub_cancel_left]
  | negSucc n =>
    have hindex : (Int.negSucc n - -(t.left.length : Int)).toNat = t.left.length - 1 - n := by
      omega
    rw [hindex, read, cells, List.getD_eq_getElem?_getD, List.getD_eq_getElem?_getD,
      List.getElem?_append_left (by simp; omega), List.getElem?_reverse (by omega)]
    congr 2
    omega

theorem read_of_lt (h : i < t.leftmost) : t.read i = t.blank := by
  simp only [leftmost] at h
  cases i with
  | ofNat n =>
    rw [Int.ofNat_eq_natCast] at h
    omega
  | negSucc n =>
    rw [read, List.getD_eq_getElem?_getD, List.getElem?_eq_none (by omega), Option.getD_none]

theorem rightmost_eq : t.rightmost = t.leftmost + t.cells.length - 1 := by
  simp only [rightmost, leftmost, cells, List.length_append, List.length_reverse]
  omega

theorem length_cells (t : Tape) : t.cells.length = t.size := by
  simp [cells, size]

theorem cells_ne_nil : t.cells ≠ [] := List.append_ne_nil_of_right_ne_nil _ t.stored

/-- A cell that is reached for first is not stored a second time. -/
@[simp] theorem write_reach : (t.reach i).write i v = t.write i v := by
  have extend_extend (arm : List Symbol) (n : Nat) :
      extend t.blank (extend t.blank arm n) n = extend t.blank arm n := by
    have hlength : n + 1 - (extend t.blank arm n).length = 0 := by
      simp only [extend, List.length_append, List.length_replicate]
      omega
    rw [extend, hlength, List.replicate_zero, List.append_nil]
  cases i <;> simp only [reach, write, extend_extend]

/-! ## Reaching for stored cells -/

/-- The cell is one of those stored. -/
def Stores (t : Tape) (i : Int) : Prop := t.leftmost ≤ i ∧ i ≤ t.rightmost

theorem stores_reach (t : Tape) (i : Int) : (t.reach i).Stores i := by
  rw [Stores, leftmost_reach, rightmost_reach]
  omega

theorem extend_of_lt {blank : Symbol} {arm : List Symbol} {n : Nat} (h : n < arm.length) :
    extend blank arm n = arm := by
  have hgap : n + 1 - arm.length = 0 := by omega
  rw [extend, hgap, List.replicate_zero, List.append_nil]

theorem reach_of_stores (h : t.Stores i) : t.reach i = t := by
  obtain ⟨hleft, hright⟩ := h
  simp only [leftmost, rightmost] at hleft hright
  cases i with
  | ofNat n =>
    rw [Int.ofNat_eq_natCast] at hright
    simp only [reach, extend_of_lt (show n < t.right.length by omega)]
  | negSucc n => simp only [reach, extend_of_lt (show n < t.left.length by omega)]

/-- Reaching for a cell that is not stored puts at least one more into the row. -/
theorem cells_reach_eq_iff : (t.reach i).cells = t.cells ↔ t.Stores i := by
  refine ⟨fun hcells => ?_, fun hstored => by rw [reach_of_stores hstored]⟩
  have hlength := congrArg List.length hcells
  simp only [cells_reach, List.length_append, List.length_replicate] at hlength
  rw [Stores]
  omega

theorem rightmost_le_reach : t.rightmost ≤ (t.reach i).rightmost := by
  rw [rightmost_reach]
  exact Int.le_max_left _ _

/-! ## The symbols of a tape -/

theorem mem_cells_reach (h : x ∈ (t.reach i).cells) : x ∈ t.cells ∨ x = t.blank := by
  simp only [cells_reach, List.mem_append, List.mem_replicate] at h
  rcases h with (h | h) | h
  · exact .inr h.2
  · exact .inl h
  · exact .inr h.2

theorem mem_cells_write (h : x ∈ (t.write i v).cells) : x = v ∨ x ∈ t.cells ∨ x = t.blank := by
  rw [cells_write] at h
  exact (List.mem_or_eq_of_mem_set h).symm.imp_right mem_cells_reach

/-- A cell holds a stored symbol or the blank. -/
theorem read_mem (t : Tape) (i : Int) : t.read i ∈ t.cells ∨ t.read i = t.blank := by
  by_cases h : t.leftmost ≤ i
  · rw [read_eq_getD h, List.getD_eq_getElem?_getD]
    cases hx : t.cells[(i - t.leftmost).toNat]? with
    | none => exact .inr rfl
    | some x => exact .inl (List.mem_of_getElem? hx)
  · exact .inr (read_of_lt (Int.not_le.mp h))

/-! ## Tapes that start with given cells -/

section Start

variable {cells : List Symbol} {blank : Symbol}

theorem blank_ofCells : (ofCells cells blank).blank = blank := by
  cases cells <;> rfl

theorem cells_ofCells (h : cells ≠ []) : (ofCells cells blank).cells = cells := by
  cases cells with
  | nil => exact absurd rfl h
  | cons c cs => rfl

/-- The given cells are at `0`, `1` and so on, and all others are blank. -/
theorem read_ofCells :
    (ofCells cells blank).read i = if 0 ≤ i then cells.getD i.toNat blank else blank := by
  cases cells with
  | nil =>
    cases i with
    | ofNat n => cases n <;> simp [ofCells, read]
    | negSucc n => simp [ofCells, read]
  | cons c cs => cases i <;> simp [ofCells, read]

end Start

end TapeCompiler.Tape
