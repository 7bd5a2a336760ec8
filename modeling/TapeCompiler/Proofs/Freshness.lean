import TapeCompiler.Proofs.Reachable
import TapeCompiler.Proofs.Steps

/-!
# Made-up symbols are fresh

All symbols of a machine are those of its table, its stored cells, its blank and its state. A step
brings in no others: what it writes and the state it enters are named by a rule, and the cells that
it stores hold the blank. A compiler has therefore reserved all symbols of its machine at any time,
whether rules have been added or the machine has run, and what it makes up occurs nowhere.
-/

namespace TapeCompiler

/-! ## The symbols of a machine -/

/-- All values of a machine have the property `V`, and all its states the property `S`. -/
structure Machine.Confined (V S : Symbol → Prop) (m : Machine) : Prop where
  rules : ∀ r ∈ m.table.rules, V r.value ∧ V r.write ∧ S r.state ∧ S r.next
  cells : ∀ x ∈ m.tape.cells, V x
  blank : V m.tape.blank
  state : S m.state

namespace Machine.Confined

variable {V S : Symbol → Prop} {m : Machine}

theorem mono {V' S' : Symbol → Prop} (h : m.Confined V S) (hV : ∀ x, V x → V' x)
    (hS : ∀ x, S x → S' x) : m.Confined V' S' where
  rules r hr := by
    obtain ⟨hvalue, hwrite, hstate, hnext⟩ := h.rules r hr
    exact ⟨hV _ hvalue, hV _ hwrite, hS _ hstate, hS _ hnext⟩
  cells x hx := hV x (h.cells x hx)
  blank := hV _ h.blank
  state := hS _ h.state

/-- Every cell of the tape holds a value of the machine, stored or not. -/
theorem read (h : m.Confined V S) (i : Int) : V (m.tape.read i) := by
  rcases m.tape.read_mem i with hstored | hblank
  · exact h.cells _ hstored
  · exact hblank ▸ h.blank

theorem reach (h : m.Confined V S) (i : Int) :
    Confined V S { m with tape := m.tape.reach i } where
  rules := h.rules
  cells x hx := by
    rcases Tape.mem_cells_reach hx with hx | rfl
    · exact h.cells x hx
    · exact h.blank
  blank := by
    rw [Tape.blank_reach]
    exact h.blank
  state := h.state

theorem write (h : m.Confined V S) (i : Int) {v : Symbol} (hv : V v) :
    Confined V S { m with tape := m.tape.write i v } where
  rules := h.rules
  cells x hx := by
    rcases Tape.mem_cells_write hx with rfl | hx | rfl
    · exact hv
    · exact h.cells x hx
    · exact h.blank
  blank := by
    rw [Tape.blank_write]
    exact h.blank
  state := h.state

theorem apply (h : m.Confined V S) {r : Rule} (hr : r ∈ m.table.rules) :
    (m.apply r).Confined V S := by
  obtain ⟨-, hwrite, -, hnext⟩ := h.rules r hr
  have hwritten := h.write m.head hwrite
  have hreached := hwritten.reach (m.head + r.action.offset)
  rw [Machine.apply]
  split
  · exact ⟨h.rules, hreached.cells, hreached.blank, hnext⟩
  · exact ⟨h.rules, hwritten.cells, hwritten.blank, hnext⟩

/-- A step brings in no new symbol. -/
theorem step (h : m.Confined V S) : m.step.2.Confined V S := by
  rcases m.step_cases with ⟨-, hs⟩ | ⟨-, -, hs⟩ | ⟨r, -, hfind, hs⟩
  · rw [hs]
    exact h
  · rw [hs]
    exact h.reach m.head
  · rw [hs]
    exact h.apply (Table.find?_eq_some_iff.mp hfind).1

theorem run (h : m.Confined V S) (n : Nat) : (m.run n).2.Confined V S :=
  run_induction (fun _ => step) n h

end Machine.Confined

/-! ## What a compiler knows -/

namespace Compiler

variable {c c' : Compiler}

/-- Every symbol of the machine is reserved, and so is the sign for the blank. -/
structure KnowsMachine (c : Compiler) : Prop where
  machine : c.machine.Confined (c.values.isReserved · = true) (c.states.isReserved · = true)
  sign : c.values.isReserved blankSign = true

theorem knowsMachine_ofMachine (m : Machine) : (ofMachine m).KnowsMachine := by
  have hvalues : ∀ x ∈ valuesOf m, (ofMachine m).values.isReserved x = true := fun x hx =>
    NameSupply.isReserved_reserveAll.mpr (.inl hx)
  refine ⟨⟨fun r hr => ?_, fun x hx => ?_, ?_, isReserved_state_stateSupply m⟩, ?_⟩
  · have hknows := knowsTable_ofMachine m r hr
    exact ⟨hknows.value, hknows.write, hknows.state, hknows.next⟩
  · exact hvalues x (by simp only [valuesOf, List.mem_append]; exact .inl (.inl hx))
  · exact hvalues _ (by simp [valuesOf, ofMachine])
  · exact hvalues _ (by simp [valuesOf])

theorem KnowsMachine.knowsTable (hc : c.KnowsMachine) : c.KnowsTable := by
  intro r hr
  obtain ⟨hvalue, hwrite, hstate, hnext⟩ := hc.machine.rules r hr
  exact ⟨hvalue, hwrite, hstate, hnext⟩

theorem KnowsMachine.extends (hc : c.KnowsMachine) (h : c.Extends c') : c'.KnowsMachine := by
  have hold := hc.machine.mono h.values h.states
  have hmachine : c'.machine = { c.machine with table := c'.machine.table } := h.machine
  refine ⟨⟨fun r hr => ?_, ?_, ?_, ?_⟩, h.values _ hc.sign⟩
  · have hknows := hc.knowsTable.extends h r hr
    exact ⟨hknows.value, hknows.write, hknows.state, hknows.next⟩
  · rw [hmachine]
    exact hold.cells
  · rw [hmachine]
    exact hold.blank
  · rw [hmachine]
    exact hold.state

/-- What a command can do: it adds to the compiler, or runs the machine. -/
theorem perform_cases (c : Compiler) (command : Command) :
    c.Extends (c.perform command).2 ∨
      ∃ limit, (c.perform command).2 = { c with machine := (c.machine.run limit).2 } := by
  cases command with
  | compile i => exact .inl (c.extends_compile i)
  | setCursor condition => exact .inl (c.extends_setCursor condition)
  | reserve values states => exact .inl (c.extends_reserve values states)
  | newState => exact .inl (Build.growing_newState.ok (a := c.states.pop.1) rfl)
  | newValue => exact .inl (Build.growing_newValue.ok (a := c.values.pop.1) rfl)
  | run limit => exact .inr ⟨limit, rfl⟩

theorem KnowsMachine.perform (hc : c.KnowsMachine) (command : Command) :
    (c.perform command).2.KnowsMachine := by
  rcases c.perform_cases command with hextends | ⟨limit, hrun⟩
  · exact hc.extends hextends
  · rw [hrun]
    exact ⟨hc.machine.run limit, hc.sign⟩

theorem Reachable.knowsMachine (h : c.Reachable) : c.KnowsMachine := by
  induction h with
  | start _ => exact knowsMachine_ofMachine _
  | perform _ command ih => exact ih.perform command

end Compiler

/-! ## Going on with the machine of a compiler -/

/-- Rules can be added to a reachable machine one by one. -/
theorem Machine.Reachable.withTable {m : Machine} (h : m.Reachable) {t : Table}
    (ht : m.table.rules <+: t.rules) : Reachable { m with table := t } := by
  obtain ⟨rs, hrs⟩ := ht
  induction rs generalizing m with
  | nil =>
    rw [List.append_nil] at hrs
    rw [← Table.ext_rules hrs]
    exact h
  | cons r rs ih =>
    obtain ⟨t₁, hinsert, hrest⟩ := Table.exists_insert_of_append hrs.symm
    have hadded : (m.perform (.addRule r)).2 = { m with table := t₁ } := by
      rw [Machine.perform, addRule, hinsert]
      rfl
    have hnext : Reachable { m with table := t₁ } := hadded ▸ h.perform (.addRule r)
    exact ih (m := { m with table := t₁ }) hnext hrest.symm

namespace Compiler

/-- The machine of a reachable compiler is itself reachable, so that another compiler can go on from
it. -/
theorem Reachable.machine {c : Compiler} (h : c.Reachable) : c.machine.Reachable := by
  induction h with
  | start h => exact h
  | @perform c _ command ih =>
    rcases c.perform_cases command with hextends | ⟨limit, hrun⟩
    · rw [hextends.machine]
      exact ih.withTable hextends.rules
    · rw [hrun]
      exact ih.perform (.run limit)

/-- A compiler for a program is reachable. -/
theorem reachable_of_ofProgram {p : Program} {c : Compiler} (h : ofProgram p = .ok c) :
    c.Reachable := by
  rw [ofProgram] at h
  cases hm : Machine.ofProgram p with
  | error e =>
    rw [hm] at h
    cases h
  | ok m =>
    rw [hm] at h
    cases h
    exact .start (.start hm)

/-! ## What is made up -/

/-- **Made-up symbols are fresh.** At any time in the history of a compiler, all symbols of its
machine and the sign for the blank are reserved; so a state that it makes up is neither in the table
nor the state of the machine, and a value that it makes up is neither in the table nor in any cell
of the tape. -/
theorem reachable_makes_up_fresh {c : Compiler} (h : c.Reachable) :
    c.KnowsMachine ∧
      (∃ q c', c.perform .newState = (.ok (.symbol q), c') ∧ q ≠ c.machine.state ∧
        ∀ r ∈ c.machine.table.rules, q ≠ r.state ∧ q ≠ r.next) ∧
      ∃ v c', c.perform .newValue = (.ok (.symbol v), c') ∧ (∀ i, v ≠ c.machine.tape.read i) ∧
        ∀ r ∈ c.machine.table.rules, v ≠ r.value ∧ v ≠ r.write := by
  have hknows := h.knowsMachine
  have ne_of_reserved : ∀ {s : NameSupply} {x : Symbol}, s.isReserved x = true → s.pop.1 ≠ x :=
    fun hx => (NameSupply.ne_pop_of_isReserved hx).symm
  refine ⟨hknows, ⟨c.states.pop.1, _, rfl, ?_, fun r hr => ?_⟩,
    c.values.pop.1, _, rfl, fun i => ?_, fun r hr => ?_⟩
  · exact ne_of_reserved hknows.machine.state
  · obtain ⟨-, -, hstate, hnext⟩ := hknows.machine.rules r hr
    exact ⟨ne_of_reserved hstate, ne_of_reserved hnext⟩
  · exact ne_of_reserved (hknows.machine.read i)
  · obtain ⟨hvalue, hwrite, -, -⟩ := hknows.machine.rules r hr
    exact ⟨ne_of_reserved hvalue, ne_of_reserved hwrite⟩

/-- A program that writes the first two names over the alphabet, and enters a state far ahead in the
series of its start state. -/
def namesakes : Program :=
  ⟨["1"], 0, "_", "q1", [⟨"1", "q1", "a", "q2", .left⟩, ⟨"_", "q2", "b", "q7", .stay⟩]⟩

/-- The symbols that the machine has put on its tape, and its state, are not made up again. -/
theorem reachable_makes_up_fresh_namesakes :
    ∃ c c' : Compiler, ofProgram namesakes = .ok c ∧ c' = (c.perform (.run 2)).2 ∧
      c'.machine.tape.read (-1) = "b" ∧ c'.machine.tape.read 0 = "a" ∧
      c'.machine.state = "q7" ∧ c'.KnowsMachine ∧
      (∃ q c'', c'.perform .newState = (.ok (.symbol q), c'') ∧ q ≠ "q7") ∧
      ∃ v c'', c'.perform .newValue = (.ok (.symbol v), c'') ∧ v ≠ "b" ∧ v ≠ "a" := by
  obtain ⟨c, hc⟩ : ∃ c, ofProgram namesakes = .ok c := ⟨_, rfl⟩
  have hreachable := (reachable_of_ofProgram hc).perform (.run 2)
  have hb : (c.perform (.run 2)).2.machine.tape.read (-1) = "b" := by
    cases hc
    decide +kernel
  have ha : (c.perform (.run 2)).2.machine.tape.read 0 = "a" := by
    cases hc
    decide +kernel
  have hstate : (c.perform (.run 2)).2.machine.state = "q7" := by
    cases hc
    decide +kernel
  obtain ⟨hknows, ⟨q, c₁, hq, hqstate, -⟩, v, c₂, hv, hvcell, -⟩ :=
    reachable_makes_up_fresh hreachable
  exact ⟨c, _, hc, rfl, hb, ha, hstate, hknows, ⟨q, c₁, hq, hstate ▸ hqstate⟩, v, c₂, hv,
    hb ▸ hvcell (-1), ha ▸ hvcell 0⟩

end Compiler

end TapeCompiler
