import TapeCompiler.Proofs.Growth
import TapeCompiler.Proofs.RoundTrip
import TapeCompiler.Proofs.Steps

/-!
# Captured machines resume

The program captured from a machine stores its first cell at index `0`, wherever the machine has it.
A machine started from it is therefore the same machine with all indices shifted. `Machine.Shifted`
says so of two machines; every step keeps it, with the same outcome on both sides, so that the two
go on alike for ever.
-/

namespace TapeCompiler

/-! ## Tapes with shifted indices -/

/-- Two tapes that store the same cells, the second one `k` further to the right. -/
structure Tape.Shifted (k : Int) (t t' : Tape) : Prop where
  blank : t'.blank = t.blank
  cells : t'.cells = t.cells
  leftmost : t'.leftmost = t.leftmost + k

namespace Tape.Shifted

variable {k : Int} {t t' : Tape}

theorem rightmost (h : t.Shifted k t') : t'.rightmost = t.rightmost + k := by
  rw [rightmost_eq, rightmost_eq, h.cells, h.leftmost]
  omega

theorem read (h : t.Shifted k t') (i : Int) : t'.read (i + k) = t.read i := by
  have hleft := h.leftmost
  by_cases hi : t.leftmost ≤ i
  · have hdistance : i + k - t'.leftmost = i - t.leftmost := by omega
    rw [read_eq_getD hi, read_eq_getD (by omega), h.cells, h.blank, hdistance]
  · rw [read_of_lt (by omega), read_of_lt (by omega), h.blank]

theorem reach (h : t.Shifted k t') (i : Int) : (t.reach i).Shifted k (t'.reach (i + k)) where
  blank := by rw [blank_reach, blank_reach, h.blank]
  cells := by
    have hleft : t'.leftmost - (i + k) = t.leftmost - i := by rw [h.leftmost]; omega
    have hright : i + k - t'.rightmost = i - t.rightmost := by rw [h.rightmost]; omega
    rw [cells_reach, cells_reach, h.cells, h.blank, hleft, hright]
  leftmost := by
    rw [leftmost_reach, leftmost_reach, h.leftmost]
    omega

theorem write (h : t.Shifted k t') (i : Int) (v : Symbol) :
    (t.write i v).Shifted k (t'.write (i + k) v) where
  blank := by rw [blank_write, blank_write, h.blank]
  cells := by
    have hreach := h.reach i
    have hindex : i + k - (t'.reach (i + k)).leftmost = i - (t.reach i).leftmost := by
      rw [hreach.leftmost]
      omega
    rw [cells_write, cells_write, hreach.cells, hindex]
  leftmost := by rw [leftmost_write, leftmost_write, (h.reach i).leftmost]

end Tape.Shifted

/-! ## Machines with shifted indices -/

namespace Machine

/-- Two machines in the same situation, the second one `k` further to the right. -/
structure Shifted (k : Int) (m m' : Machine) : Prop where
  table : m'.table = m.table
  tape : m.tape.Shifted k m'.tape
  head : m'.head = m.head + k
  state : m'.state = m.state
  halted : m'.halted = m.halted

namespace Shifted

variable {k : Int} {m m' : Machine}

theorem symbol (h : m.Shifted k m') : m'.symbol = m.symbol := by
  rw [Machine.symbol, h.head]
  exact h.tape.read m.head

theorem reach (h : m.Shifted k m') :
    Shifted k { m with tape := m.tape.reach m.head } { m' with tape := m'.tape.reach m'.head } :=
  { h with tape := by rw [h.head]; exact h.tape.reach m.head }

theorem apply (h : m.Shifted k m') (r : Rule) : (m.apply r).Shifted k (m'.apply r) where
  table := h.table
  tape := by
    have hwrite := h.tape.write m.head r.write
    have hhead : m.head + k + r.action.offset = m.head + r.action.offset + k := by omega
    simp only [Machine.apply, h.head, hhead]
    split
    · exact hwrite.reach _
    · exact hwrite
  head := by
    simp only [Machine.apply, h.head]
    omega
  state := rfl
  halted := rfl

/-- A step has the same outcome on both sides and keeps the shift. -/
theorem step (h : m.Shifted k m') :
    m'.step.1 = m.step.1 ∧ m.step.2.Shifted k m'.step.2 := by
  have hfind : m'.table.find? m'.symbol m'.state = m.table.find? m.symbol m.state := by
    rw [h.table, h.symbol, h.state]
  rcases m.step_cases with ⟨hm, hs⟩ | ⟨hm, hnone, hs⟩ | ⟨r, hm, hsome, hs⟩
  · rw [hs, step_of_halted (h.halted.trans hm)]
    exact ⟨rfl, h⟩
  · rw [hs, step_of_find?_eq_none (h.halted.trans hm) (hfind.trans hnone)]
    exact ⟨by rw [h.symbol, h.state, h.table], h.reach⟩
  · rw [hs, step_of_find?_eq_some (h.halted.trans hm) (hfind.trans hsome)]
    exact ⟨rfl, h.apply r⟩

theorem steps (h : m.Shifted k m') (n : Nat) :
    (m'.steps true n).1 = (m.steps true n).1 ∧
      (m.steps true n).2.Shifted k (m'.steps true n).2 := by
  induction n generalizing m m' with
  | zero => exact ⟨rfl, h⟩
  | succ n ih =>
    obtain ⟨houtcome, hnext⟩ := h.step
    obtain ⟨houtcomes, hlast⟩ := ih hnext
    rw [steps_succ, steps_succ, houtcome, houtcomes]
    exact ⟨rfl, hlast⟩

end Shifted

end Machine

/-! ## Starting from a captured program -/

theorem Tape.shifted_ofCells (t : Tape) :
    t.Shifted (-t.leftmost) (.ofCells t.cells t.blank) := by
  cases hcells : t.cells with
  | nil => exact absurd hcells cells_ne_nil
  | cons c cs =>
    refine ⟨rfl, hcells.symm, ?_⟩
    simp only [ofCells, leftmost, List.length_nil]
    omega

namespace Machine

variable {m : Machine}

theorem ofProgram_capture (m : Machine) :
    ofProgram m.capture = .ok (.start m.capture m.table) := by
  have htable : Table.ofRules m.capture.rules = .ok m.table := m.table.ofRules_rules
  rw [ofProgram, htable]
  rfl

theorem shifted_capture (hm : m.halted = false) :
    m.Shifted (-m.tape.leftmost) (.start m.capture m.table) where
  table := rfl
  tape := m.tape.shifted_ofCells
  head := Int.sub_eq_add_neg
  state := rfl
  halted := hm.symm

/-- `m'` goes on as `m` does: after any number of steps their outcomes have been the same, and they
are in the same situation but for the indices, which are shifted by the first one that `m` has
stored. -/
def ResumedBy (m m' : Machine) : Prop :=
  ∀ n : Nat, (m'.steps true n).1 = (m.steps true n).1 ∧
    (m.steps true n).2.Shifted (-m.tape.leftmost) (m'.steps true n).2 ∧
    (m'.steps true n).2.symbol = (m.steps true n).2.symbol

theorem Shifted.resumedBy {m' : Machine} (h : m.Shifted (-m.tape.leftmost) m') :
    m.ResumedBy m' :=
  fun n => ⟨(h.steps n).1, (h.steps n).2, (h.steps n).2.symbol⟩

/-- **A captured machine resumes.** A program captured from a machine that has not halted starts a
machine that goes on as the captured one does; so does the text of that program, if it has one. -/
theorem capture_resumes (hm : m.halted = false) :
    (∃ m', ofProgram m.capture = .ok m' ∧ m.ResumedBy m') ∧
      ∀ t, Program.Representable m.capture.head → m.capture.encode = .ok t →
        ∃ m', ofText t = .ok m' ∧ m.ResumedBy m' := by
  have hstart := m.ofProgram_capture
  have hresumed := (shifted_capture hm).resumedBy
  refine ⟨⟨_, hstart, hresumed⟩, fun t hhead ht => ⟨_, ?_, hresumed⟩⟩
  rw [ofText, Program.parse_encode hhead ht]
  exact hstart

/-- Two rules that go left, one of them over a blank. -/
def leftward : Table :=
  ⟨[⟨"1", "q1", "x", "q1", .left⟩, ⟨"_", "q1", "y", "q2", .left⟩], by decide⟩

/-- A machine that stands on a cell to the left of where it was started. -/
def goneLeft : Machine := (start ⟨["1", "0"], 0, "_", "q1", leftward.rules⟩ leftward).step.2

/-- The next step is to the left of all that has been captured. -/
theorem capture_resumes_goneLeft :
    goneLeft.tape.leftmost = -1 ∧ goneLeft.halted = false ∧
      Program.Representable goneLeft.capture.head ∧
      goneLeft.capture.encode = .ok "_,x,0:0:_:q1:1 q1 -> x q1 L,DEF q1 -> y q2 L" ∧
      ∃ m', ofText "_,x,0:0:_:q1:1 q1 -> x q1 L,DEF q1 -> y q2 L" = .ok m' ∧
        goneLeft.ResumedBy m' := by
  have hleftmost : goneLeft.tape.leftmost = -1 := by decide +kernel
  have hrunning : goneLeft.halted = false := by decide +kernel
  have hhead : Program.Representable goneLeft.capture.head := by decide
  have hline : goneLeft.capture.encode =
      .ok "_,x,0:0:_:q1:1 q1 -> x q1 L,DEF q1 -> y q2 L" := by decide +kernel
  exact ⟨hleftmost, hrunning, hhead, hline, (capture_resumes hrunning).2 _ hhead hline⟩

end Machine

end TapeCompiler
