import TapeCompiler.Machine.View
import TapeCompiler.Proofs.Replay

/-!
# Steps that fail

A step that finds no rule leaves the machine as it is, with one exception: the cell under the head
is stored before the rule is looked up. So the machine is unchanged exactly if that cell was stored.
It is from the first applied rule on; and at the start it is not only if the program puts the head
beside its cells.
-/

namespace TapeCompiler

namespace Machine

variable {p : Program} {m : Machine} {e : Error}

/-! ## What a failed step does -/

/-- A step fails if there is no rule for the situation, and has stored the cell under the head. -/
theorem step_of_failed (h : m.step.1 = .failed e) :
    m.halted = false ∧ m.table.find? m.symbol m.state = none ∧
      e = .missingRule m.symbol m.state m.table.rules ∧
      m.step.2 = { m with tape := m.tape.reach m.head } := by
  rcases m.step_cases with ⟨-, hs⟩ | ⟨hm, hnone, hs⟩ | ⟨r, -, -, hs⟩
  · rw [hs] at h
    cases h
  · rw [hs] at h ⊢
    cases h
    exact ⟨hm, hnone, rfl, rfl⟩
  · rw [hs] at h
    simp only at h
    split at h <;> cases h

theorem step_of_stores (hm : m.halted = false) (hnone : m.table.find? m.symbol m.state = none)
    (hstored : m.tape.Stores m.head) :
    m.step = (.failed (.missingRule m.symbol m.state m.table.rules), m) := by
  rw [step_of_find?_eq_none hm hnone, Tape.reach_of_stores hstored]

/-- It fails in the same way again, and then changes nothing. -/
theorem step_again_of_failed (h : m.step.1 = .failed e) :
    m.step.2.step = (.failed e, m.step.2) := by
  obtain ⟨hm, hnone, rfl, hs⟩ := step_of_failed h
  have hsymbol : m.step.2.symbol = m.symbol := by
    rw [hs]
    exact Tape.read_reach _ _ _
  have hstored : m.step.2.tape.Stores m.step.2.head := by
    rw [hs]
    exact m.tape.stores_reach m.head
  have htable : m.step.2.table = m.table := by rw [hs]
  have hstate : m.step.2.state = m.state := by rw [hs]
  have hrunning : m.step.2.halted = false := by rw [hs, hm]
  rw [step_of_stores hrunning (by rw [hsymbol, htable, hstate, hnone]) hstored, hsymbol, htable,
    hstate]

theorem steps_of_step_eq (h : m.step = (.failed e, m)) (n : Nat) :
    m.steps true n = (List.replicate n (.failed e), m) := by
  induction n with
  | zero => rfl
  | succ n ih => rw [steps_succ, h, ih, List.replicate_succ]

/-! ## Where the head can be -/

/-- A machine that has applied no rule is where its program starts. -/
theorem Logged.head_of_idle (h : m.Logged p) (hcount : m.stepCount = 0) : m.head = p.head := by
  have hlog : m.log.toList = [] := by
    rw [← List.length_eq_zero_iff, Array.length_toList, ← h.count, hcount]
  have hreplays := h.replays
  rw [hlog] at hreplays
  exact congrArg Configuration.head (Option.some.inj hreplays).symm

/-- The cells that the program gives are stored. -/
def KeepsCells (p : Program) (m : Machine) : Prop :=
  m.program = p ∧ (Tape.ofCells p.cells p.blank).rightmost ≤ m.tape.rightmost

theorem rightmost_le_apply (m : Machine) (r : Rule) :
    m.tape.rightmost ≤ (m.apply r).tape.rightmost := by
  have hwrite : m.tape.rightmost ≤ (m.tape.write m.head r.write).rightmost := by
    rw [Tape.rightmost_write]
    exact Tape.rightmost_le_reach
  simp only [apply]
  split
  · exact Int.le_trans hwrite Tape.rightmost_le_reach
  · exact hwrite

theorem KeepsCells.step (h : m.KeepsCells p) : m.step.2.KeepsCells p := by
  obtain ⟨hprogram, hright⟩ := h
  rcases m.step_cases with ⟨-, hs⟩ | ⟨-, -, hs⟩ | ⟨r, -, -, hs⟩
  · rw [hs]
    exact ⟨hprogram, hright⟩
  · rw [hs]
    exact ⟨hprogram, Int.le_trans hright Tape.rightmost_le_reach⟩
  · rw [hs]
    exact ⟨hprogram, Int.le_trans hright (m.rightmost_le_apply r)⟩

theorem KeepsCells.undergo (h : m.KeepsCells p) (event : Event) :
    (m.undergo event).KeepsCells p := by
  rcases m.undergo_cases event with ⟨t, hm, -⟩ | ⟨n, hm, -⟩ | ⟨-, hm, -⟩ | ⟨on, hm, -⟩
  · rw [hm]
    exact h
  · rw [hm]
    exact run_induction (fun _ => KeepsCells.step) n h
  · rw [hm, reset, h.1]
    exact ⟨rfl, Int.le_refl _⟩
  · rw [hm]
    exact h

theorem KeepsCells.after (h : m.KeepsCells p) (events : List Event) :
    (m.after events).KeepsCells p := by
  induction events generalizing m with
  | nil => exact h
  | cons event events ih => exact ih (h.undergo event)

theorem exists_table_of_ofProgram (h : ofProgram p = .ok m) : ∃ t, m = start p t := by
  obtain ⟨t, -, hm⟩ := ofProgram_eq_ok.mp h
  exact ⟨t, hm⟩

/-- A head beside the stored cells has not moved since the start, and the program has put it beside
its own cells. -/
theorem idle_of_not_stores (hlogged : m.Logged p) (hkeeps : m.KeepsCells p)
    (h : ¬m.tape.Stores m.head) :
    m.stepCount = 0 ∧ m.head = p.head ∧ ¬(Tape.ofCells p.cells p.blank).Stores p.head := by
  have hidle : m.stepCount = 0 := by
    refine Nat.eq_zero_of_not_pos fun hcount => ?_
    exact h (hlogged.stored hcount)
  have hhead := hlogged.head_of_idle hidle
  refine ⟨hidle, hhead, fun hstored => h ?_⟩
  rw [hhead]
  have hleft : m.tape.leftmost ≤ 0 := by
    rw [Tape.leftmost]
    omega
  have hfirst : (Tape.ofCells p.cells p.blank).leftmost = 0 := by
    cases p.cells <;> rfl
  rw [Tape.Stores, hfirst] at hstored
  exact ⟨Int.le_trans hleft hstored.1, Int.le_trans hstored.2 hkeeps.2⟩

/-- **A failed step stores the cell under the head and changes nothing else.** Whatever has been
done to a machine since the start of its program, a step that fails leaves it exactly as it was if
the cell under the head is stored. If it is not, no rule has been applied yet, the program puts the
head beside its cells, and blanks are stored up to it. In either case every further step fails in
the same way, and changes nothing at all. -/
theorem failed_step_stores_head_only (h : ofProgram p = .ok m) (events : List Event)
    (hfail : (m.after events).step.1 = .failed e) :
    let before := m.after events
    let behind := before.step.2
    e = .missingRule before.symbol before.state before.table.rules ∧
    behind = { before with tape := before.tape.reach before.head } ∧
    (∀ i, behind.tape.read i = before.tape.read i) ∧
    (before.tape.Stores before.head →
      behind = before ∧ behind.capture = before.capture ∧ behind.view = before.view) ∧
    (¬before.tape.Stores before.head →
      before.stepCount = 0 ∧ before.head = p.head ∧
      ¬(Tape.ofCells p.cells p.blank).Stores p.head ∧ behind.capture ≠ before.capture) ∧
    ∀ n, behind.steps true n = (List.replicate n (.failed e), behind) := by
  intro before behind
  obtain ⟨t, rfl⟩ := exists_table_of_ofProgram h
  obtain ⟨-, -, he, hs⟩ := step_of_failed hfail
  have hbehind : behind = { before with tape := before.tape.reach before.head } := hs
  have hlogged : before.Logged p := (Logged.of_start p t).after events
  have hkeeps : before.KeepsCells p := KeepsCells.after ⟨rfl, Int.le_refl _⟩ events
  refine ⟨he, hbehind, fun i => ?_, fun hstored => ?_, fun hbeside => ?_, ?_⟩
  · rw [hbehind]
    exact Tape.read_reach _ _ i
  · have hsame : behind = before := by
      rw [hbehind, Tape.reach_of_stores hstored]
    rw [hsame]
    exact ⟨rfl, rfl, rfl⟩
  · obtain ⟨hidle, hhead, hprogram⟩ := idle_of_not_stores hlogged hkeeps hbeside
    refine ⟨hidle, hhead, hprogram, fun hcapture => hbeside (Tape.cells_reach_eq_iff.mp ?_)⟩
    have hcells : behind.tape.cells = before.tape.cells := congrArg Program.cells hcapture
    rw [hbehind] at hcells
    exact hcells
  · exact steps_of_step_eq (step_again_of_failed hfail)

/-- A program that gets one cell to the right and has no rule there. -/
def oneRight : Program := ⟨["1", "2"], 0, "_", "q1", [⟨"1", "q1", "0", "q1", .right⟩]⟩

/-- After its step the machine fails on the second cell, which is stored. -/
theorem failed_step_stores_head_only_oneRight :
    ∃ m, ofProgram oneRight = .ok m ∧
      (m.after [.direct .step]).step.1 =
        .failed (.missingRule "2" "q1" [⟨"1", "q1", "0", "q1", .right⟩]) ∧
      (m.after [.direct .step]).tape.Stores (m.after [.direct .step]).head ∧
      (m.after [.direct .step]).step.2 = m.after [.direct .step] := by
  obtain ⟨m, hm⟩ : ∃ m, ofProgram oneRight = .ok m := ⟨_, rfl⟩
  have hfail : (m.after [.direct .step]).step.1 =
      .failed (.missingRule "2" "q1" [⟨"1", "q1", "0", "q1", .right⟩]) := by
    cases hm
    decide +kernel
  have hstored : (m.after [.direct .step]).tape.Stores (m.after [.direct .step]).head := by
    cases hm
    exact ⟨by decide, by decide⟩
  obtain ⟨-, -, -, hsame, -⟩ := failed_step_stores_head_only hm _ hfail
  exact ⟨m, hm, hfail, hstored, (hsame hstored).1⟩

/-- A program that puts the head two cells behind its only one, and has no rules. -/
def beside : Program := ⟨["1"], 2, "_", "q1", []⟩

/-- Its first step fails, and stores two cells that were not stored: the machine, the program
captured from it and its view are no longer the same. -/
theorem failed_step_grows_tape :
    ∃ m, ofProgram beside = .ok m ∧ m.step.1 = .failed (.missingRule "_" "q1" []) ∧
      m.tape.cells = ["1"] ∧ m.step.2.tape.cells = ["1", "_", "_"] ∧ m.step.2 ≠ m ∧
      m.step.2.capture ≠ m.capture ∧ m.step.2.view ≠ m.view := by
  obtain ⟨m, hm⟩ : ∃ m, ofProgram beside = .ok m := ⟨_, rfl⟩
  cases hm
  have hgrown : ["1", "_", "_"] ≠ ["1"] := by decide
  refine ⟨_, rfl, rfl, rfl, rfl, fun hsame => hgrown ?_, fun hsame => hgrown ?_, by decide +kernel⟩
  · exact congrArg (fun m => m.tape.cells) hsame
  · exact congrArg Program.cells hsame

end Machine

end TapeCompiler
