import TapeCompiler.Proofs.Stored
import TapeCompiler.Proofs.Stretch

/-!
# What a step can do

A machine is started with the table of its program's rules. A step has three outcomes: nothing
happens to a machine that has halted, a machine without a rule for its situation fails, and else the
rule is applied. What holds of a machine and is kept by every step holds after any number of steps.
-/

namespace TapeCompiler.Machine

variable {m : Machine} {r : Rule}

theorem ofProgram_eq_ok {p : Program} :
    ofProgram p = .ok m ↔ ∃ t, Table.ofRules p.rules = .ok t ∧ m = start p t := by
  rw [ofProgram]
  cases Table.ofRules p.rules with
  | error e => simp [bind, Except.bind]
  | ok t => simp [bind, Except.bind, pure, Except.pure, eq_comm]

theorem step_of_halted (h : m.halted = true) : m.step = (.halted, m) := by
  rw [step, if_pos h]

theorem step_of_find?_eq_some (hm : m.halted = false)
    (h : m.table.find? m.symbol m.state = some r) :
    m.step = (if r.action = .halt then .halted else .continues, m.apply r) := by
  rw [symbol] at h
  simp only [step, hm, Bool.false_eq_true, if_false, symbol, Tape.read_reach, h, apply,
    Tape.write_reach, beq_iff_eq]

/-- The three outcomes of a step. -/
theorem step_cases (m : Machine) :
    (m.halted = true ∧ m.step = (.halted, m)) ∨
    (m.halted = false ∧ m.table.find? m.symbol m.state = none ∧
      m.step = (.failed (.missingRule m.symbol m.state m.table.rules),
        { m with tape := m.tape.reach m.head })) ∨
    ∃ r, m.halted = false ∧ m.table.find? m.symbol m.state = some r ∧
      m.step = (if r.action = .halt then .halted else .continues, m.apply r) := by
  by_cases hm : m.halted = true
  · exact .inl ⟨hm, step_of_halted hm⟩
  · rw [Bool.not_eq_true] at hm
    cases h : m.table.find? m.symbol m.state with
    | none => exact .inr (.inl ⟨hm, rfl, step_of_find?_eq_none hm h⟩)
    | some r => exact .inr (.inr ⟨r, hm, rfl, step_of_find?_eq_some hm h⟩)

/-- What every step keeps, a run keeps. -/
theorem run_induction {P : Machine → Prop} (hstep : ∀ m : Machine, P m → P m.step.2) (n : Nat)
    (h : P m) : P (m.run n).2 := by
  induction n generalizing m with
  | zero => exact h
  | succ n ih =>
    have hnext := hstep m h
    rw [run]
    cases hs : m.step with
    | mk outcome m' =>
      rw [hs] at hnext
      cases outcome with
      | continues => exact ih hnext
      | halted => exact hnext
      | failed e => exact hnext

/-- Steps that go on whatever happens: the first, and the others from where it leads. -/
theorem steps_succ (m : Machine) (n : Nat) :
    m.steps true (n + 1) =
      (m.step.1 :: (m.step.2.steps true n).1, (m.step.2.steps true n).2) := by
  rw [steps]
  cases hs : m.step with
  | mk outcome m' => cases outcome <;> rfl

end TapeCompiler.Machine
