import TapeCompiler.Proofs.UnboundedArray
import TapeCompiler.Tape.Row

/-!
# The row of a tape

A tape and its row go through the same requests side by side. The loops that grow a row add as many
blanks as are missing, which is how far `Tape.reach` extends an arm. So every operation on the row of
a tape has a result, and this is the row of the tape after the same operation (`perform_row`). Over
many requests a row is therefore an unbounded array just as a tape is (`row_sees_array`).
-/

namespace TapeCompiler.Tape

namespace Row

variable {r : Row} {i : Int}

/-! ## Growing -/

theorem growLeft_eq (r : Row) (i : Int) :
    r.growLeft i =
      { r with
        cells := List.replicate (r.leftmost - i).toNat r.blank ++ r.cells
        origin := r.origin + (r.leftmost - i).toNat } := by
  fun_induction growLeft r i with
  | case1 r hlt ih =>
    have hcount : (r.leftmost - i).toNat = (r.pushLeft.leftmost - i).toNat + 1 := by
      rw [leftmost_pushLeft]
      omega
    rw [ih, hcount, List.replicate_succ']
    simp only [pushLeft, List.append_assoc, List.singleton_append, mk.injEq, true_and]
    omega
  | case2 r hle =>
    have hcount : (r.leftmost - i).toNat = 0 := by omega
    simp [hcount]

theorem growRight_eq (r : Row) (i : Int) :
    r.growRight i =
      { r with cells := r.cells ++ List.replicate (i - r.rightmost).toNat r.blank } := by
  fun_induction growRight r i with
  | case1 r hlt ih =>
    have hcount : (i - r.rightmost).toNat = (i - r.pushRight.rightmost).toNat + 1 := by
      rw [rightmost_pushRight]
      omega
    rw [ih, hcount, List.replicate_succ]
    simp [pushRight]
  | case2 r hle =>
    have hcount : (i - r.rightmost).toNat = 0 := by omega
    simp [hcount]

/-- Growing on the left does not move the right end. -/
theorem rightmost_growLeft (r : Row) (i : Int) : (r.growLeft i).rightmost = r.rightmost := by
  fun_induction growLeft r i with
  | case1 r _ ih => rw [ih, rightmost_pushLeft]
  | case2 r _ => rfl

/-! ## Trimming -/

/-- If there is a first symbol that is not blank, there is a last one. Seen from the right it is as
far away as it is in the cells from the first one on. -/
theorem last?_of_first? {first : Nat} (h : r.first? = some first) :
    ∃ last, r.last? = some last ∧
      last + 1 - first = (r.cells.drop first).length -
        (r.cells.drop first).reverse.findIdx (· ≠ r.blank) := by
  obtain ⟨hfirst, hsymbol, -⟩ := List.findIdx?_eq_some_iff_getElem.mp h
  have hmem : r.cells[first] ∈ (r.cells.drop first).reverse := by
    rw [List.mem_reverse, List.drop_eq_getElem_cons hfirst]
    exact List.mem_cons_self
  have hsplit : r.cells.reverse = (r.cells.drop first).reverse ++ (r.cells.take first).reverse := by
    rw [← List.reverse_append, List.take_append_drop]
  obtain ⟨k, hk⟩ : ∃ k, (r.cells.drop first).reverse.findIdx (· ≠ r.blank) = k := ⟨_, rfl⟩
  have hlt : k < (r.cells.drop first).reverse.length := by
    rw [← hk]
    exact List.findIdx_lt_length_of_exists ⟨_, hmem, hsymbol⟩
  have hlast : r.cells.reverse.findIdx? (· ≠ r.blank) = some k := by
    rw [List.findIdx?_eq_some_iff_findIdx_eq, hsplit, List.findIdx_append, hk, if_pos hlt,
      List.length_append]
    exact ⟨by omega, rfl⟩
  rw [List.length_reverse, List.length_drop] at hlt
  refine ⟨r.cells.length - 1 - k, ?_, ?_⟩
  · rw [last?, hlast, Option.map_some]
  · rw [hk, List.length_drop]
    omega

/-- Cutting between two places leaves what dropping the blanks at both ends does. -/
theorem trimmed_eq (r : Row) :
    r.trimmed =
      ((r.cells.dropWhile (· = r.blank)).reverse.dropWhile (· = r.blank)).reverse := by
  have hdrop (l : List Symbol) :
      l.dropWhile (· = r.blank) = l.drop (l.findIdx (· ≠ r.blank)) := by
    rw [List.dropWhile_eq_drop_findIdx_not]
    simp
  rw [hdrop, hdrop, List.drop_reverse, List.reverse_reverse, trimmed]
  cases hfirst : r.first? with
  | none =>
    have hall : r.cells.findIdx (· ≠ r.blank) = r.cells.length :=
      List.findIdx?_eq_none_iff_findIdx_eq.mp hfirst
    simp only [hall, List.drop_length, List.take_nil]
  | some first =>
    obtain ⟨last, hlast, hcount⟩ := last?_of_first? hfirst
    have hplace : r.cells.findIdx (· ≠ r.blank) = first :=
      (List.findIdx?_eq_some_iff_findIdx_eq.mp hfirst).2
    simp only [hlast, hplace, hcount]

end Row

variable {t : Tape} {i : Int} {blank : Symbol}

theorem row_ofCells (cells : List Symbol) (blank : Symbol) :
    (ofCells cells blank).row = Row.ofCells cells blank := by
  cases cells <;> rfl

theorem rightmost_row (t : Tape) : t.row.rightmost = t.rightmost := by
  simp only [row, Row.rightmost, cells, origin, rightmost, List.length_append, List.length_reverse]
  omega

/-- A row grows as the arms of its tape do. -/
theorem grow_row (t : Tape) (i : Int) : t.row.grow i = (t.reach i).row := by
  have horigin : t.origin + (t.leftmost - i).toNat = (t.reach i).origin := by
    have hleft := leftmost_reach (t := t) (i := i)
    simp only [leftmost, origin] at hleft ⊢
    omega
  rw [Row.grow, Row.growRight_eq, Row.rightmost_growLeft, Row.growLeft_eq, rightmost_row]
  simp only [row, cells_reach, blank_reach, ← horigin]
  rfl

/-! ## Cells by their places -/

/-- A stored cell has a place, at its index behind that of index `0`. -/
theorem slot?_row (h : t.Stores i) : t.row.slot? i = some (t.origin + i).toNat := by
  have hplace := (getElem?_origin_add h).1
  rw [← length_cells] at hplace
  exact if_pos hplace

theorem at?_row (h : t.Stores i) : t.row.at? i = some (t.read i) := by
  rw [Row.at?, slot?_row h]
  exact (getElem?_origin_add h).2

theorem get?_row (t : Tape) (i : Int) : t.row.get? i = some ((t.reach i).read i, (t.reach i).row) := by
  rw [Row.get?, grow_row]
  simp [at?_row (t.stores_reach i)]

theorem peek?_row (t : Tape) (i : Int) : t.row.peek? i = some (t.read i) := by
  by_cases h : t.Stores i
  · have hin : ¬(i < t.row.leftmost ∨ t.row.rightmost < i) := by
      rw [rightmost_row, not_or]
      exact ⟨Int.not_lt.mpr h.1, Int.not_lt.mpr h.2⟩
    rw [Row.peek?, if_neg hin, at?_row h]
  · have hout : i < t.row.leftmost ∨ t.row.rightmost < i := by
      rw [Stores, not_and_or, Int.not_le, Int.not_le] at h
      rwa [rightmost_row]
    have hblank : t.read i = t.blank := not_imp_comm.mp stores_of_read_ne h
    rw [Row.peek?, if_pos hout, hblank]
    rfl

theorem set?_row (t : Tape) (i : Int) (v : Symbol) : t.row.set? i v = some (t.write i v).row := by
  have hplace : (i - (t.reach i).leftmost).toNat = ((t.reach i).origin + i).toNat := by
    simp only [leftmost, origin]
    omega
  have horigin : (t.write i v).origin = (t.reach i).origin := by
    have hleft := leftmost_write (t := t) (i := i) (v := v)
    simp only [leftmost, origin] at hleft ⊢
    omega
  have hrow : (t.write i v).row =
      { (t.reach i).row with
        cells := (t.reach i).row.cells.set ((t.reach i).origin + i).toNat v } := by
    simp only [row, cells_write, hplace, horigin, blank_write, blank_reach]
  rw [Row.set?, grow_row, hrow]
  simp [slot?_row (t.stores_reach i)]

theorem window?_row (t : Tape) (lo hi : Int) : t.row.window? lo hi = some (t.window lo hi) := by
  simp only [Row.window?, peek?_row, window]
  exact List.mapM_pure

/-! ## Requests -/

/-- A row answers as its tape does, and goes on to be the row of that tape. -/
theorem perform_row (t : Tape) (request : Request) :
    t.row.perform request = some ((t.perform request).1, (t.perform request).2.row) := by
  cases request with
  | get i => simp [Row.perform, get?_row, perform]
  | peek i => simp [Row.perform, peek?_row, perform]
  | set i v => simp [Row.perform, set?_row, perform]
  | window lo hi => simp [Row.perform, window?_row, perform]

theorem performAll_row (t : Tape) (requests : List Request) :
    t.row.performAll requests = some ((t.performAll requests).1, (t.performAll requests).2.row) := by
  induction requests generalizing t with
  | nil => rfl
  | cons request requests ih => simp [Row.performAll, performAll, perform_row, ih]

theorem trimmed_row (t : Tape) : t.row.trimmed = t.trimmed := t.row.trimmed_eq

/-- **A row is an unbounded array.** Whatever is asked of a row, it has an answer, and this is that
of a map from integers to symbols that holds the given cells and blanks at first, and that only
setting changes. The row stores the smallest interval around the given cells, or the index `0`, and
all indices that have been got or set; index `0` has a place in it, and each cell is found at its
index behind that place. Between its outermost symbols other than the blank the row holds what the
map does, and no request but to set a cell changes that. -/
theorem row_sees_array (cells : List Symbol) (blank : Symbol) (requests : List Request) :
    let f := (Content.ofCells cells blank).after requests
    ∃ r, (Row.ofCells cells blank).performAll requests =
        some ((Content.ofCells cells blank).answers requests, r) ∧
      IsLeast {I : Set Int | I.OrdConnected ∧
        Set.Ico 0 (max 1 cells.length : Int) ∪ {i | ∃ r ∈ requests, i ∈ r.touched} ⊆ I}
        (Set.Icc r.leftmost r.rightmost) ∧
      r.origin < r.cells.length ∧
      (∀ i ∈ Set.Icc r.leftmost r.rightmost, r.at? i = some (f i)) ∧
      f.Trims blank r.trimmed ∧
      ∀ more : List Request, (∀ r ∈ more, ∀ i v, r ≠ .set i v) →
        ∃ answers r', r.performAll more = some (answers, r') ∧ r'.trimmed = r.trimmed := by
  intro f
  obtain ⟨hanswers, ht⟩ := (Realizes.ofCells cells blank).performAll requests
  have hrun := performAll_row (ofCells cells blank) requests
  rw [row_ofCells, hanswers] at hrun
  generalize ((ofCells cells blank).performAll requests).2 = t at ht hrun
  have hstores : Set.Icc t.row.leftmost t.row.rightmost = {i | t.Stores i} := by
    rw [rightmost_row]
    rfl
  refine ⟨t.row, hrun, ?_, ?_, ?_, ?_, ?_⟩
  · rw [hstores]
    exact ht.isLeast_stores
  · rw [row, length_cells]
    exact t.origin_lt_size
  · intro i hi
    rw [hstores] at hi
    rw [at?_row hi, ht.read]
  · rw [trimmed_row]
    exact ht.trims
  · intro more hmore
    refine ⟨_, _, performAll_row t more, ?_⟩
    rw [trimmed_row, trimmed_row, ht.trimmed_performAll hmore]

end TapeCompiler.Tape
