import TapeCompiler.Proofs.Confined
import TapeCompiler.Proofs.RoundTrip

/-!
# Compiled programs can be written

Made-up symbols can be written, so that a compiler that is given only such symbols has no others.
Whatever is asked of it, the program of its machine then has a text, and the text reads back.
-/

namespace TapeCompiler

/-! ## The blank stays the same -/

theorem Machine.blank_step (m : Machine) : m.step.2.tape.blank = m.tape.blank := by
  rcases m.step_cases with ⟨-, hs⟩ | ⟨-, -, hs⟩ | ⟨r, -, -, hs⟩
  · rw [hs]
  · rw [hs, Tape.blank_reach]
  · rw [hs, Machine.apply]
    by_cases hmoves : r.action.moves = true <;> simp [hmoves]

theorem Machine.blank_run (m : Machine) (n : Nat) : (m.run n).2.tape.blank = m.tape.blank :=
  run_induction (P := fun m' => m'.tape.blank = m.tape.blank)
    (fun m' h => m'.blank_step.trans h) n rfl

namespace Compiler

theorem blank_perform (c : Compiler) (command : Command) :
    (c.perform command).2.machine.tape.blank = c.machine.tape.blank := by
  rcases c.perform_cases command with hextends | ⟨limit, hrun⟩
  · rw [hextends.machine]
  · rw [hrun]
    exact c.machine.blank_run limit

theorem blank_after (c : Compiler) (history : List Command) :
    (c.after history).machine.tape.blank = c.machine.tape.blank := by
  induction history generalizing c with
  | nil => rfl
  | cons command history ih => exact (ih _).trans (c.blank_perform command)

end Compiler

/-! ## The program at the start -/

instance : DecidablePred Symbol.Token := fun _ => decidable_of_iff _ Symbol.isToken_iff

instance (blank : Symbol) : DecidablePred (Rule.ValueEncodable blank) := fun _ =>
  inferInstanceAs (Decidable (_ ∨ _))

namespace Compiler

variable {c : Compiler} {p : Program}

/-- A compiler for a program that can be written, with cells that a rule could write, has only
symbols that can be written. -/
theorem confined_ofProgram (h : ofProgram p = .ok c) (hp : p.Encodable)
    (hcells : ∀ x ∈ p.cells, Rule.ValueEncodable p.blank x) :
    c.Confined (Rule.ValueEncodable p.blank) Symbol.Token ∧ c.machine.tape.blank = p.blank := by
  obtain ⟨m, hm, hc⟩ := bind_eq_ok.mp h
  cases hc
  obtain ⟨table, htable, hm⟩ := bind_eq_ok.mp hm
  cases hm
  have hmachine : (Machine.start p table).Confined (Rule.ValueEncodable p.blank) Symbol.Token := by
    refine ⟨fun r hr => ?_, fun x hx => hcells x ?_, .inl Tape.blank_ofCells, hp.start⟩
    · have hr := hp.rules r (Table.mem_of_ofRules htable hr)
      exact ⟨hr.value, hr.write, hr.state, hr.next⟩
    · rwa [Machine.start, Tape.cells_ofCells hp.cells_ne_nil] at hx
  refine ⟨⟨hmachine, ?_, offers_values _ _, offers_stateSupply _⟩, Tape.blank_ofCells⟩
  exact Condition.confined_single (hmachine.read p.head) hmachine.state

/-- The program of a machine with symbols that can be written can be written. -/
theorem Confined.encodable_capture {b : Symbol} (hb : b = "" ∨ Symbol.Token b)
    (hc : c.Confined (Rule.ValueEncodable b) Symbol.Token) (hblank : c.machine.tape.blank = b) :
    c.machine.capture.Encodable where
  cells_ne_nil := Tape.cells_ne_nil
  cells x hx := by
    rcases hc.machine.cells x hx with rfl | ⟨htoken, -⟩
    · exact hb
    · exact .inr htoken
  blank := by
    rw [Machine.capture, hblank]
    exact hb
  start := hc.machine.state
  rules r hr := by
    obtain ⟨hvalue, hwrite, hstate, hnext⟩ := hc.machine.rules r hr
    rw [Machine.capture, hblank]
    exact ⟨hvalue, hstate, hwrite, hnext⟩

/-- **Compiled programs can be written.** Let a compiler start from a program that can be written,
with cells that its rules could write. As long as its history brings in only values that can be
written in a rule, and states that can be written, the program of its machine can be written in both
forms, and reads back if its head is at an index that can be read. -/
theorem history_reads_back {text : String} (hp : p.encode = .ok text)
    (hcells : ∀ x ∈ p.cells, Rule.ValueEncodable p.blank x) (hc : ofProgram p = .ok c)
    {history : List Command} (h : c.Fed (Rule.ValueEncodable p.blank) Symbol.Token history) :
    let q := (c.after history).machine.capture
    (∃ t, q.encode = .ok t ∧ (Program.Representable q.head → Program.parse t = .ok q)) ∧
      ∃ t, q.encodeLines = .ok t ∧ (Program.Representable q.head → Program.parse t = .ok q) := by
  obtain ⟨hencodable, -⟩ := Program.encode_eq_ok.mp hp
  obtain ⟨hconfined, hblank⟩ := confined_ofProgram hc hencodable hcells
  intro q
  have hq : q.Encodable :=
    (hconfined.after h).encodable_capture hencodable.blank ((c.blank_after history).trans hblank)
  have hline := Program.encode_eq_ok.mpr ⟨hq, rfl⟩
  have hlines := Program.encodeLines_eq_ok.mpr ⟨hq, rfl⟩
  exact ⟨⟨_, hline, fun hhead => Program.parse_encode hhead hline⟩,
    _, hlines, fun hhead => Program.parse_encodeLines hhead hlines⟩

/-- A scan that tags the cells it meets is compiled and run, which stores a blank cell, before the
cursor is set to a situation of which nothing is known. -/
def tagging : List Command :=
  [.compile (.scan { interior := [], terminals := ["2"], direction := .left, editEnd := true }
      ⟨(· ++ "a"), id, (· ++ "b")⟩),
    .run 3, .newValue, .setCursor (.single "1" "go")]

/-- The move of a block that is compiled thereafter. -/
def movedBlock : Layout :=
  { values := ["0"], stop := "#", between := [], start := "$", after := [], direction := .right }

theorem history_reads_back_tagging :
    ∃ p c text, p = (⟨["1", "2"], 0, "", "q1", []⟩ : Program) ∧ p.encode = .ok text ∧
      (∀ x ∈ p.cells, Rule.ValueEncodable p.blank x) ∧ ofProgram p = .ok c ∧
      c.Fed (Rule.ValueEncodable p.blank) Symbol.Token
        (tagging ++ [.compile (.moveBlock movedBlock)]) ∧
      ∃ q t t', q = (c.after (tagging ++ [.compile (.moveBlock movedBlock)])).machine.capture ∧
        q.cells = ["", "1a", "2"] ∧ q.encode = .ok t ∧ Program.parse t = .ok q ∧
        q.encodeLines = .ok t' ∧ Program.parse t' = .ok q := by
  obtain ⟨c, hc⟩ : ∃ c, ofProgram ⟨["1", "2"], 0, "", "q1", []⟩ = .ok c := ⟨_, rfl⟩
  obtain ⟨text, ht⟩ : ∃ text, Program.encode ⟨["1", "2"], 0, "", "q1", []⟩ = .ok text :=
    ⟨_, rfl⟩
  have hstart : ∀ x ∈ ["1", "2"], Rule.ValueEncodable "" x := by decide
  have hfed : c.Fed (Rule.ValueEncodable "") Symbol.Token
      (tagging ++ [.compile (.moveBlock movedBlock)]) := by
    cases hc
    refine ⟨fun _ => ⟨?_, by simp [Instruction.states]⟩, trivial, trivial,
      Condition.confined_single (by decide) (by decide),
      fun _ => ⟨?_, by simp [Instruction.states]⟩, trivial⟩
    · exact (by decide : ∀ v ∈ ["2", "1a", "2b"], Rule.ValueEncodable "" v)
    · exact (by decide : ∀ v ∈ ["0", "#", "$"], Rule.ValueEncodable "" v)
  obtain ⟨⟨t, hline, hread⟩, t', hlines, hread'⟩ := history_reads_back ht hstart hc hfed
  obtain ⟨htape, hhead⟩ : (c.after tagging).machine.tape = ⟨"", ["1a", "2"], [""], by simp⟩ ∧
      (c.after tagging).machine.head = -1 := by
    cases hc
    decide +kernel
  -- The block adds rules, but leaves the tape and the head as they are.
  obtain ⟨c', hc'⟩ : ∃ c', c.after (tagging ++ [.compile (.moveBlock movedBlock)]) = c' := ⟨_, rfl⟩
  have hmachine : c'.machine = { (c.after tagging).machine with table := c'.machine.table } :=
    (hc' ▸ (c.after tagging).extends_compile (.moveBlock movedBlock) :
      (c.after tagging).Extends c').machine
  rw [hc'] at hline hread hlines hread'
  have hcells : c'.machine.capture.cells = ["", "1a", "2"] := by
    rw [hmachine, Machine.capture, htape]
    rfl
  have hrep : Program.Representable c'.machine.capture.head := by
    rw [hmachine, Machine.capture, htape, hhead]
    exact (by decide : Program.Representable 0)
  exact ⟨_, c, text, rfl, ht, hstart, hc, hfed, _, t, t', hc' ▸ rfl, hcells, hline, hread hrep,
    hlines, hread' hrep⟩

end Compiler

end TapeCompiler
