import Mathlib.Data.Int.ConditionallyCompleteOrder
import Mathlib.Data.Int.Range
import Mathlib.Data.List.GetD
import Mathlib.Data.List.TakeWhile
import Mathlib.Order.ConditionallyCompleteLattice.Basic
import Mathlib.Order.Interval.Set.OrdConnected
import TapeCompiler.Proofs.Stored

/-!
# A tape is an unbounded array

An unbounded array is a map from integers to symbols (`Tape.Content`), of which a request can change
one value, by setting it. `Tape.Realizes` says that a tape holds what such a map does, and that it
stores the cells between the outermost of some indices. Every request keeps this: the tape answers as
the map does, and where the index of the request is not stored, the storage grows up to it.

Since the stored cells are what the map holds there, and all other cells are blank, the cells without
the blanks at their ends are what the map holds between its outermost symbols other than the blank.
They depend on the map alone.
-/

namespace TapeCompiler.Tape

/-! ## Maps from integers to symbols -/

/-- What an unbounded array holds. -/
abbrev Content := Int → Symbol

namespace Content

variable {f : Content} {lo hi : Int} {blank : Symbol}

/-- The given cells from `0` on, and blanks everywhere else. -/
def ofCells (cells : List Symbol) (blank : Symbol) : Content :=
  fun i => if 0 ≤ i then cells.getD i.toNat blank else blank

/-- The symbols from `lo` to `hi`. -/
def between (f : Content) (lo hi : Int) : List Symbol := (Int.range lo (hi + 1)).map f

/-- What is held after a request. Only setting a symbol changes anything. -/
def update (f : Content) : Request → Content
  | .set i v => Function.update f i v
  | .get _ | .peek _ | .window .. => f

/-- What is held after several requests. -/
def after (f : Content) (requests : List Request) : Content := requests.foldl update f

/-- The symbols that a request asks for. -/
def answer (f : Content) : Request → List Symbol
  | .get i | .peek i => [f i]
  | .set .. => []
  | .window lo hi => f.between lo hi

/-- The symbols that each of several requests asks for. -/
def answers (f : Content) : List Request → List (List Symbol)
  | [] => []
  | r :: rs => f.answer r :: (f.update r).answers rs

/-- `xs` is what is held from the first symbol that is not blank to the last one. -/
def Trims (f : Content) (blank : Symbol) (xs : List Symbol) : Prop :=
  ((∀ i, f i = blank) ∧ xs = []) ∨
    ∃ lo hi, IsLeast {i | f i ≠ blank} lo ∧ IsGreatest {i | f i ≠ blank} hi ∧ xs = f.between lo hi

@[simp] theorem length_between : (f.between lo hi).length = (hi + 1 - lo).toNat := by
  simp [between, Int.range]

theorem mem_between {x : Symbol} : x ∈ f.between lo hi ↔ ∃ i, (lo ≤ i ∧ i ≤ hi) ∧ f i = x := by
  simp only [between, List.mem_map, Int.mem_range_iff, Int.lt_add_one_iff]

theorem between_self : f.between lo lo = [f lo] := by
  simp [between, Int.range]

/-- An interval is cut in front of one of its indices. -/
theorem between_split (mid : Int) (hlo : lo ≤ mid) (hhi : mid ≤ hi + 1) :
    f.between lo hi = f.between lo (mid - 1) ++ f.between mid hi := by
  have hlength : (hi + 1 - lo).toNat = (mid - lo).toNat + (hi + 1 - mid).toNat := by omega
  simp only [between, Int.range, sub_add_cancel, hlength, List.range_add, List.map_append,
    List.map_map]
  congr 1
  apply List.map_congr_left
  intro k _
  simp only [Function.comp_apply]
  congr 1
  omega

theorem between_cons (h : lo ≤ hi) : f.between lo hi = f lo :: f.between (lo + 1) hi := by
  rw [between_split (lo + 1) (by omega) (by omega), add_sub_cancel_right, between_self]
  rfl

theorem between_concat (h : lo ≤ hi) : f.between lo hi = f.between lo (hi - 1) ++ [f hi] := by
  rw [between_split hi h (by omega), between_self]

/-- Two lists that trim the same map are the same. -/
theorem Trims.eq {xs ys : List Symbol} (hx : f.Trims blank xs) (hy : f.Trims blank ys) :
    xs = ys := by
  rcases hx with ⟨hblank, rfl⟩ | ⟨lo, hi, hlo, hhi, rfl⟩
  · rcases hy with ⟨-, rfl⟩ | ⟨lo, hi, hlo, -, -⟩
    · rfl
    · exact absurd (hblank lo) hlo.1
  · rcases hy with ⟨hblank, -⟩ | ⟨lo', hi', hlo', hhi', rfl⟩
    · exact absurd (hblank lo) hlo.1
    · rw [hlo.unique hlo', hhi.unique hhi']

end Content

/-- The indices for which a request makes the tape store a cell. -/
def Request.touched : Request → Set Int
  | .get i | .set i _ => {i}
  | .peek _ | .window .. => ∅

variable {t : Tape} {i : Int} {blank : Symbol}

/-! ## The row of stored cells -/

theorem window_eq_between (t : Tape) (lo hi : Int) :
    t.window lo hi = Content.between t.read lo hi := by
  simp [window, Content.between, Int.range, Function.comp_def]

/-- The stored cells are what the tape holds from the first of them to the last. -/
theorem cells_eq_between (t : Tape) : t.cells = Content.between t.read t.leftmost t.rightmost := by
  have hright := t.rightmost_eq
  apply List.ext_getElem
  · rw [Content.length_between]
    omega
  · intro k hk _
    have hread := read_eq_getD (t := t) (i := t.leftmost + k) (by omega)
    rw [add_sub_cancel_left, Int.toNat_natCast, List.getD_eq_getElem _ _ hk] at hread
    simp [Content.between, Int.range, hread]

theorem origin_lt_size (t : Tape) : t.origin < t.size := by
  have hstored := List.length_pos_iff.mpr t.stored
  simp only [origin, size]
  omega

/-- A stored cell is found in the row at its index, counted from the place of index `0`. -/
theorem getElem?_origin_add (h : t.Stores i) :
    (0 ≤ t.origin + i ∧ t.origin + i < t.size) ∧
      t.cells[(t.origin + i).toNat]? = some (t.read i) := by
  obtain ⟨hleft, hright⟩ := h
  have hread := read_eq_getD hleft
  simp only [leftmost, rightmost] at hleft hright hread
  have hslot : (i - -(t.left.length : Int)).toNat = (t.origin + i).toNat := by
    simp only [origin]
    omega
  have hlength : (t.origin + i).toNat < t.cells.length := by
    simp only [origin, cells, List.length_append, List.length_reverse]
    omega
  refine ⟨?_, ?_⟩
  · simp only [origin, size]
    omega
  · rw [hread, hslot, List.getD_eq_getElem _ _ hlength, List.getElem?_eq_getElem hlength]

theorem stores_of_read_ne (h : t.read i ≠ t.blank) : t.Stores i := by
  constructor
  · by_contra hleft
    exact h (read_of_lt (by omega))
  · by_contra hright
    have hread := read_eq_getD (t := t) (i := i) (by have := t.rightmost_eq; omega)
    rw [List.getD_eq_default _ _ (by have := t.rightmost_eq; omega)] at hread
    exact h hread

/-! ## Trimming -/

/-- Stripping a list of blanks from both ends leaves what stands between the outermost symbols that
are not blank. -/
theorem strip_append {a b c : List Symbol} (ha : ∀ x ∈ a, x = blank) (hc : ∀ x ∈ c, x = blank)
    (hhead : ∀ x ∈ b.head?, x ≠ blank) (hlast : ∀ x ∈ b.getLast?, x ≠ blank) (hb : b ≠ []) :
    (((a ++ b ++ c).dropWhile (· = blank)).reverse.dropWhile (· = blank)).reverse = b := by
  have keeps : ∀ (l rest : List Symbol), l ≠ [] → (∀ x ∈ l.head?, x ≠ blank) →
      (l ++ rest).dropWhile (· = blank) = l ++ rest := by
    intro l rest hne hx
    cases l with
    | nil => exact absurd rfl hne
    | cons x l => simp [hx x rfl]
  have hleft : (a ++ b ++ c).dropWhile (· = blank) = b ++ c := by
    rw [List.append_assoc, List.dropWhile_append_of_pos (by simpa using ha), keeps b c hb hhead]
  have hright : (b ++ c).reverse.dropWhile (· = blank) = b.reverse := by
    rw [List.reverse_append, List.dropWhile_append_of_pos (by simpa using hc)]
    simpa using keeps b.reverse [] (by simpa using hb) (by simpa using hlast)
  rw [hleft, hright, List.reverse_reverse]

/-- What is left of the stored cells is what the tape holds between its outermost symbols. -/
theorem trims_trimmed (t : Tape) : Content.Trims t.read t.blank t.trimmed := by
  by_cases hblank : ∀ i, t.read i = t.blank
  · left
    refine ⟨hblank, ?_⟩
    have hcells : ∀ x ∈ t.cells, x = t.blank := by
      intro x hx
      rw [cells_eq_between, Content.mem_between] at hx
      obtain ⟨i, -, rfl⟩ := hx
      exact hblank i
    have hdrop : t.cells.dropWhile (· = t.blank) = [] := by
      rw [List.dropWhile_eq_nil_iff]
      simpa using hcells
    simp [trimmed, hdrop]
  · right
    push Not at hblank
    obtain ⟨lo, hlo, hleast⟩ := Int.exists_least_of_bdd (P := fun i => t.read i ≠ t.blank)
      ⟨t.leftmost, fun i hi => (stores_of_read_ne hi).1⟩ hblank
    obtain ⟨hi, hhi, hgreatest⟩ := Int.exists_greatest_of_bdd (P := fun i => t.read i ≠ t.blank)
      ⟨t.rightmost, fun i hi => (stores_of_read_ne hi).2⟩ hblank
    refine ⟨lo, hi, ⟨hlo, hleast⟩, ⟨hhi, hgreatest⟩, ?_⟩
    have hle : lo ≤ hi := hleast hi hhi
    have hlo' := (stores_of_read_ne hlo).1
    have hhi' := (stores_of_read_ne hhi).2
    have hcells : t.cells = Content.between t.read t.leftmost (lo - 1) ++
        Content.between t.read lo hi ++ Content.between t.read (hi + 1) t.rightmost := by
      rw [cells_eq_between, Content.between_split lo hlo' (by omega), List.append_assoc]
      congr 1
      rw [Content.between_split (hi + 1) (by omega) (by omega), add_sub_cancel_right]
    rw [trimmed, hcells]
    apply strip_append
    · intro x hx
      obtain ⟨i, hi, rfl⟩ := Content.mem_between.mp hx
      by_contra hne
      have := hleast i hne
      omega
    · intro x hx
      obtain ⟨i, hi, rfl⟩ := Content.mem_between.mp hx
      by_contra hne
      have := hgreatest i hne
      omega
    · simpa [Content.between_cons hle] using hlo
    · simpa [Content.between_concat hle] using hhi
    · simp [Content.between_cons hle]

/-! ## Requests -/

theorem Content.after_of_forall_ne_set {f : Content} {requests : List Request}
    (h : ∀ r ∈ requests, ∀ i v, r ≠ .set i v) : f.after requests = f := by
  induction requests generalizing f with
  | nil => rfl
  | cons r requests ih =>
    have hupdate : f.update r = f := by
      cases r with
      | set i v => exact absurd rfl (h _ List.mem_cons_self i v)
      | get _ | peek _ | window _ _ => rfl
    rw [after, List.foldl_cons, hupdate]
    exact ih fun r' hr' => h r' (List.mem_cons_of_mem r hr')

/-- A tape holds what a map does, and stores the cells between the outermost of some indices. -/
structure Realizes (t : Tape) (blank : Symbol) (f : Content) (indices : Set Int) : Prop where
  blank : t.blank = blank
  read : t.read = f
  least : IsLeast indices t.leftmost
  greatest : IsGreatest indices t.rightmost

namespace Realizes

variable {f : Content} {indices : Set Int}

theorem ofCells (cells : List Symbol) (blank : Symbol) :
    (ofCells cells blank).Realizes blank (.ofCells cells blank)
      (Set.Ico 0 (max 1 cells.length : Int)) where
  blank := blank_ofCells
  read := funext fun _ => read_ofCells
  least := by
    have hleft : (Tape.ofCells cells blank).leftmost = 0 := by
      cases cells <;> simp [Tape.ofCells, leftmost]
    rw [hleft]
    exact ⟨⟨le_rfl, by omega⟩, fun i hi => hi.1⟩
  greatest := by
    have hright : (Tape.ofCells cells blank).rightmost = max 1 cells.length - 1 := by
      cases cells <;> simp [Tape.ofCells, rightmost]
    rw [hright]
    exact ⟨⟨by omega, by omega⟩, fun i hi => by have := hi.2; omega⟩

/-- Storing a cell moves one end of the row to it, if it is beyond this end. -/
theorem reach (h : t.Realizes blank f indices) (i : Int) :
    (t.reach i).Realizes blank f (indices ∪ {i}) where
  blank := by rw [blank_reach, h.blank]
  read := by
    rw [← h.read]
    exact funext fun j => read_reach t i j
  least := by
    rw [leftmost_reach, Set.union_comm, min_comm]
    exact h.least.insert i
  greatest := by
    rw [rightmost_reach, Set.union_comm, max_comm]
    exact h.greatest.insert i

theorem write (h : t.Realizes blank f indices) (i : Int) (v : Symbol) :
    (t.write i v).Realizes blank (Function.update f i v) (indices ∪ {i}) where
  blank := by rw [blank_write, h.blank]
  read := by
    funext j
    rw [read_write, h.read, Function.update_apply]
  least := by
    rw [leftmost_write]
    exact (h.reach i).least
  greatest := by
    rw [rightmost_write]
    exact (h.reach i).greatest

/-- A request is answered as by the map, and the tape goes on to hold what the map does. -/
theorem perform (h : t.Realizes blank f indices) (r : Request) :
    (t.perform r).1 = f.answer r ∧
      (t.perform r).2.Realizes blank (f.update r) (indices ∪ r.touched) := by
  cases r with
  | get i => exact ⟨by simp [Tape.perform, Content.answer, h.read], h.reach i⟩
  | peek i =>
    rw [Request.touched, Set.union_empty]
    exact ⟨by simp [Tape.perform, Content.answer, h.read], h⟩
  | set i v => exact ⟨rfl, h.write i v⟩
  | window lo hi =>
    rw [Request.touched, Set.union_empty]
    exact ⟨by simp [Tape.perform, Content.answer, window_eq_between, h.read], h⟩

theorem performAll (h : t.Realizes blank f indices) (requests : List Request) :
    (t.performAll requests).1 = f.answers requests ∧
      (t.performAll requests).2.Realizes blank (f.after requests)
        (indices ∪ {i | ∃ r ∈ requests, i ∈ r.touched}) := by
  induction requests generalizing t f indices with
  | nil => simpa [Tape.performAll, Content.answers, Content.after] using h
  | cons r requests ih =>
    obtain ⟨hanswer, hnext⟩ := h.perform r
    obtain ⟨hanswers, hlast⟩ := ih hnext
    have hindices : indices ∪ {i | ∃ r' ∈ r :: requests, i ∈ r'.touched} =
        indices ∪ r.touched ∪ {i | ∃ r' ∈ requests, i ∈ r'.touched} := by
      ext i
      simp [or_assoc]
    rw [hindices]
    exact ⟨by simp [Tape.performAll, Content.answers, hanswer, hanswers], hlast⟩

/-- The stored cells are the smallest interval around the indices. -/
theorem isLeast_stores (h : t.Realizes blank f indices) :
    IsLeast {I : Set Int | I.OrdConnected ∧ indices ⊆ I} {i | t.Stores i} := by
  refine ⟨⟨Set.ordConnected_Icc, fun i hi => ⟨h.least.2 hi, h.greatest.2 hi⟩⟩, ?_⟩
  rintro I ⟨hI, hindices⟩ i hi
  exact hI.out (hindices h.least.1) (hindices h.greatest.1) hi

theorem trims (h : t.Realizes blank f indices) : f.Trims blank t.trimmed := by
  rw [← h.read, ← h.blank]
  exact t.trims_trimmed

/-- Only setting a cell changes what is left of the stored cells. -/
theorem trimmed_performAll (h : t.Realizes blank f indices) {requests : List Request}
    (hkeep : ∀ r ∈ requests, ∀ i v, r ≠ .set i v) :
    (t.performAll requests).2.trimmed = t.trimmed := by
  have htrims := (h.performAll requests).2.trims
  rw [Content.after_of_forall_ne_set hkeep] at htrims
  exact htrims.eq h.trims

end Realizes

/-- **A tape is an unbounded array.** Whatever is asked of a tape, it answers as a map from integers
to symbols that holds the given cells and blanks at first, and that only setting changes. It stores
the smallest interval around the given cells, or the index `0`, and all indices that have been got or
set; each cell of it is found at its index behind the place of index `0`. Without the blanks at the
ends the stored cells are what the map holds between its outermost symbols, and no request but to set
a cell changes that. -/
theorem requests_see_array (cells : List Symbol) (blank : Symbol) (requests : List Request) :
    let t := ((ofCells cells blank).performAll requests).2
    let f := (Content.ofCells cells blank).after requests
    ((ofCells cells blank).performAll requests).1 =
      (Content.ofCells cells blank).answers requests ∧
    IsLeast {I : Set Int | I.OrdConnected ∧
      Set.Ico 0 (max 1 cells.length : Int) ∪ {i | ∃ r ∈ requests, i ∈ r.touched} ⊆ I}
      {i | t.Stores i} ∧
    t.leftmost = -t.origin ∧ t.origin < t.size ∧
    (∀ i, t.Stores i → (0 ≤ t.origin + i ∧ t.origin + i < t.size) ∧
      t.cells[(t.origin + i).toNat]? = some (f i)) ∧
    f.Trims blank t.trimmed ∧
    ∀ more : List Request, (∀ r ∈ more, ∀ i v, r ≠ .set i v) →
      (t.performAll more).2.trimmed = t.trimmed := by
  intro t f
  obtain ⟨hanswers, ht⟩ := (Realizes.ofCells cells blank).performAll requests
  refine ⟨hanswers, ht.isLeast_stores, rfl, t.origin_lt_size, fun i hi => ?_, ht.trims,
    fun _ hmore => ht.trimmed_performAll hmore⟩
  rw [show f i = t.read i from (congrFun ht.read i).symm]
  exact getElem?_origin_add hi

end TapeCompiler.Tape
