import TapeCompiler.Proofs.Growth

/-!
# Reachable compilers

A machine is reachable if requests lead to it from the start of a program, and a compiler if
commands lead to it from a reachable machine. The main result is that a reachable compiler has
reserved every symbol of its table, so that a state that it makes up occurs in no rule.
-/

namespace TapeCompiler

/-- The machines that a program and requests can lead to. -/
inductive Machine.Reachable : Machine → Prop where
  | start {p : Program} {m : Machine} (h : Machine.ofProgram p = .ok m) : Reachable m
  | perform {m : Machine} (h : Reachable m) (command : Machine.Command) :
    Reachable (m.perform command).2

namespace Compiler

/-- The compilers that a reachable machine and commands can lead to. -/
inductive Reachable : Compiler → Prop where
  | start {m : Machine} (h : m.Reachable) : Reachable (ofMachine m)
  | perform {c : Compiler} (h : Reachable c) (command : Command) :
    Reachable (c.perform command).2

/-- Every rule of the table is known. -/
def KnowsTable (c : Compiler) : Prop := ∀ r ∈ c.machine.table.rules, c.Knows r

variable {c c' : Compiler}

theorem KnowsTable.extends (hc : c.KnowsTable) (h : c.Extends c') : c'.KnowsTable := by
  intro r hr
  rcases h.added r hr with hr | hr
  · exact h.knows (hc r hr)
  · exact hr

theorem isReserved_stateSupply {m : Machine} {x : Symbol} (hx : x ∈ statesOf m) :
    (stateSupply m).isReserved x = true := by
  rw [stateSupply]
  split <;> exact NameSupply.isReserved_reserveAll.mpr (.inl hx)

theorem isReserved_state_stateSupply (m : Machine) :
    (stateSupply m).isReserved m.state = true := by
  rw [stateSupply]
  split
  · rename_i supply hsupply
    exact NameSupply.isReserved_reserveAll.mpr
      (.inr (NameSupply.isReserved_of_startSeries hsupply))
  · exact NameSupply.isReserved_reserveAll.mpr
      (.inr (NameSupply.isReserved_reserve.mpr (.inl rfl)))

theorem knowsTable_ofMachine (m : Machine) : (ofMachine m).KnowsTable := by
  intro r hr
  have hvalues : r.value ∈ valuesOf m ∧ r.write ∈ valuesOf m := by
    constructor <;> refine List.mem_append_right _ (List.mem_flatMap.mpr ⟨r, hr, ?_⟩) <;> simp
  have hstates : r.state ∈ statesOf m ∧ r.next ∈ statesOf m := by
    constructor <;> refine List.mem_flatMap.mpr ⟨r, hr, ?_⟩ <;> simp
  exact ⟨NameSupply.isReserved_reserveAll.mpr (.inl hvalues.1),
    NameSupply.isReserved_reserveAll.mpr (.inl hvalues.2),
    isReserved_stateSupply hstates.1, isReserved_stateSupply hstates.2⟩

/-- An instruction only adds, whether it succeeds or not. -/
theorem extends_compile (c : Compiler) (i : Instruction) : c.Extends (c.compile i).2 := by
  rw [compile]
  cases h : i.build c with
  | ok _ c' => exact i.atomic_build.ok h
  | error e c' => exact i.atomic_build.error h ▸ .refl c

end Compiler

@[simp] theorem Machine.table_step (m : Machine) : m.step.2.table = m.table := by
  rw [step]
  split
  · rfl
  · dsimp only
    split <;> rfl

@[simp] theorem Machine.table_run (m : Machine) (n : Nat) : (m.run n).2.table = m.table := by
  induction n generalizing m with
  | zero => rfl
  | succ n ih =>
    have hstep := m.table_step
    rw [run]
    cases h : m.step with
    | mk outcome m' =>
      rw [h] at hstep
      cases outcome with
      | continues =>
        dsimp only at hstep ⊢
        rw [ih, hstep]
      | halted => exact hstep
      | failed e => exact hstep

namespace Compiler

/-- Every command keeps the table known: a run does not change it, all others only add. -/
theorem KnowsTable.perform {c : Compiler} (hc : c.KnowsTable) (command : Command) :
    (c.perform command).2.KnowsTable := by
  cases command with
  | compile i => exact hc.extends (c.extends_compile i)
  | setCursor condition => exact hc.extends (c.extends_setCursor condition)
  | reserve values states => exact hc.extends (c.extends_reserve values states)
  | newState =>
    refine hc.extends (Build.growing_newState.ok (a := c.states.pop.1) ?_)
    rfl
  | newValue =>
    refine hc.extends (Build.growing_newValue.ok (a := c.values.pop.1) ?_)
    rfl
  | run limit =>
    intro r hr
    have hr' : r ∈ c.machine.table.rules := by
      rw [← c.machine.table_run limit]
      exact hr
    exact ⟨(hc r hr').value, (hc r hr').write, (hc r hr').state, (hc r hr').next⟩

/-- A reachable compiler knows its table. -/
theorem Reachable.knowsTable {c : Compiler} (h : c.Reachable) : c.KnowsTable := by
  induction h with
  | start _ => exact knowsTable_ofMachine _
  | perform _ command ih => exact ih.perform command

/-- A state that is made up occurs in no rule. -/
theorem KnowsTable.pop_ne_state {c : Compiler} (h : c.KnowsTable) {r : Rule}
    (hr : r ∈ c.machine.table.rules) : r.state ≠ c.states.pop.1 := by
  intro heq
  have hfree := c.states.isReserved_pop
  rw [← heq, (h r hr).state] at hfree
  cases hfree

end Compiler

end TapeCompiler
