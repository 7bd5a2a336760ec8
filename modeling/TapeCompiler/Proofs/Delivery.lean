import TapeCompiler.Proofs.Paths

/-!
# Deliveries at work

A delivery is a scan that writes a value into the cell on which it stops, whichever of its terminal
values that cell holds. A carry puts a replacement into its first cell and delivers what that cell
held before. Both are scans with a write before or behind them, in states that they make up, so that
it does not matter whether one of the values written is also a value that the scan meets.
-/

namespace TapeCompiler

/-- A running machine in the situation `(v, q)`, with the cells of `word` ahead, over which a scan
goes on, and behind them a cell with `t`, on which it stops. -/
structure Machine.Faces (m : Machine) (s : Scan) (v q : Symbol) (word : List Symbol) (t : Symbol) :
    Prop where
  running : m.halted = false
  state : m.state = q
  crossed : ∀ x ∈ word, x ∈ s.interior ∧ x ∉ s.terminals
  stop : t ∈ s.terminals
  tape : m.tape.Along s.direction m.head (v :: (word ++ [t]))

/-- With the given rules in its table a machine comes from the situation `(v, q)` to the cell on
which a scan stops, in `n` steps more than there are cells between. It is in the state `target`
there, the first and the last cell hold `first` and `last`, and all others what they did. -/
def Scan.Brings (s : Scan) (rules : List Rule) (v q : Symbol) (n : Nat)
    (first last target : Symbol) : Prop :=
  ∀ (m : Machine) (word : List Symbol) (t : Symbol), rules ⊆ m.table.rules →
    m.Faces s v q word t →
      ∃ m', m.run (word.length + n) = (.continues, m') ∧ m'.state = target ∧ m'.symbol = last ∧
        m.Rewrites m' s.direction (word.length + 1) (first :: (word ++ [last]))

/-- What a table does on every stretch, it does from where a machine stands. -/
theorem Scan.brings_of_leads {s : Scan} {rules : List Rule} {v q first last target : Symbol}
    {n : Nat}
    (h : ∀ S : Stretch, rules ⊆ S.table.rules → s.direction = S.direction →
      ∀ word : List Symbol, (∀ x ∈ word, x ∈ s.interior ∧ x ∉ s.terminals) → ∀ t ∈ s.terminals,
        S.Leads (word.length + n) ⟨[], v :: (word ++ [t]), q⟩
          ⟨word.reverse ++ [first], [last], target⟩) :
    s.Brings rules v q n first last target := by
  intro m word t hrules hm
  obtain ⟨m', hrun, hm'⟩ := h (m.stretch s.direction) hrules rfl word hm.crossed t hm.stop m
    (.of_along hm.running hm.state hm.tape)
  exact ⟨m', hrun, hm'.state, hm'.symbol_eq, by simpa using hm'.rewrites⟩

namespace Build

variable {c c' : Compiler} {s : Scan} {v q x : Symbol}

theorem deliver_brings (hcursor : c.cursor = .ofCondition (.single v q))
    (h : deliver s (some x) c = .ok () c') :
    ∃ target, c'.cursor = .ofCondition (.single x target) ∧
      s.Brings c'.machine.table.rules v q 3 v x target := by
  obtain ⟨target, hcursor', hleads⟩ := deliver_leads hcursor h
  refine ⟨target, hcursor', Scan.brings_of_leads fun S hS hs word hword t ht => ?_⟩
  exact hleads S hS hs word [] [] hword t ht

/-- A carry is a rule that writes the replacement, and a delivery from there. -/
theorem carry_ok (hcursor : c.cursor = .ofCondition (.single v q))
    (h : carry s (some x) c = .ok () c') :
    ∃ next c₁, c₁.cursor = .ofCondition (.single x next) ∧
      ⟨v, q, x, next, .stay⟩ ∈ c'.machine.table.rules ∧ deliver s (some v) c₁ = .ok () c' := by
  rw [carry] at h
  obtain ⟨p, c₁, hs, h⟩ := bind_eq_ok.mp (atomic_eq_ok.mp h)
  obtain ⟨rfl, rfl⟩ := single_ok hcursor hs
  obtain ⟨next, c₂, hmove, hdeliver⟩ := bind_eq_ok.mp h
  obtain ⟨-, hcursor₂, hrules⟩ := move_ok hcursor rfl hmove
  have hgrown := (atomic_deliver s (some v)).ok hdeliver
  exact ⟨next, c₂, hcursor₂, hgrown.rules.subset ((hrules _).mpr (.inr rfl)), hdeliver⟩

theorem carry_brings (hcursor : c.cursor = .ofCondition (.single v q))
    (h : carry s (some x) c = .ok () c') :
    ∃ target, c'.cursor = .ofCondition (.single v target) ∧
      s.Brings c'.machine.table.rules v q 4 x v target := by
  obtain ⟨next, c₁, hcursor₁, hreplace, hdeliver⟩ := carry_ok hcursor h
  obtain ⟨target, hcursor', hleads⟩ := deliver_leads hcursor₁ hdeliver
  refine ⟨target, hcursor', Scan.brings_of_leads fun S hS hs word hword t ht => ?_⟩
  have hd : S.direction.moves = true := hs ▸ (deliver_ok hcursor₁ hdeliver).1
  have hfirst : S.Leads 1 ⟨[], v :: (word ++ [t]), q⟩ ⟨[], x :: (word ++ [t]), next⟩ :=
    Stretch.leads_stay hd (hS hreplace)
  have hboth := hfirst.trans (hleads S hS hs word [] [] hword t ht)
  rwa [show 1 + (word.length + 3) = word.length + 4 by omega] at hboth

end Build

namespace Compiler

variable {c : Compiler} {s : Scan} {v q x : Symbol}

/-- **Values arrive where they are sent.** A compiled delivery brings its value to the cell on which
the scan stops, and a compiled carry brings the value of its first cell there and leaves the
replacement behind. The new cursor is the situation in which every such run arrives, and no other
cell is changed. -/
theorem values_arrive (hcursor : c.cursor = .ofCondition (.single v q)) :
    (∀ condition c', c.compile (.deliver s (some x)) = (.ok condition, c') →
      ∃ target, condition = .single x target ∧
        s.Brings c'.machine.table.rules v q 3 v x target) ∧
    (∀ condition c', c.compile (.carry s (some x)) = (.ok condition, c') →
      ∃ target, condition = .single v target ∧
        s.Brings c'.machine.table.rules v q 4 x v target) := by
  constructor
  · intro condition c' h
    obtain ⟨hbuild, rfl⟩ := compile_eq_ok.mp h
    obtain ⟨target, hcursor', hbrings⟩ := Build.deliver_brings hcursor hbuild
    exact ⟨target, by rw [hcursor']; rfl, hbrings⟩
  · intro condition c' h
    obtain ⟨hbuild, rfl⟩ := compile_eq_ok.mp h
    obtain ⟨target, hcursor', hbrings⟩ := Build.carry_brings hcursor hbuild
    exact ⟨target, by rw [hcursor']; rfl, hbrings⟩

/-- Goes right over `0` and `1` up to `b` or `c`. -/
def toBOrC : Scan := { interior := ["0", "1"], terminals := ["c", "b"], direction := .right }

/-- A `b` is left in place of a `1`, and the `1` is put in place of a `b`, although the scan stops on
the one and goes on over the other. -/
theorem values_arrive_atStart :
    ∃ c₁ c₂ m₁ m₂,
      atStart.compile (.deliver toBOrC (some "x")) = (.ok (.single "x" "q4"), c₁) ∧
      c₁.machine.run 5 = (.continues, m₁) ∧ m₁.state = "q4" ∧
      c₁.machine.Rewrites m₁ .right 3 ["1", "0", "1", "x"] ∧
      atStart.compile (.carry toBOrC (some "b")) = (.ok (.single "1" "q5"), c₂) ∧
      c₂.machine.run 6 = (.continues, m₂) ∧ m₂.state = "q5" ∧
      c₂.machine.Rewrites m₂ .right 3 ["b", "0", "1", "1"] := by
  have hfaces (i : Instruction) :
      (atStart.compile i).2.machine.Faces toBOrC "1" "q1" ["0", "1"] "b" := by
    rw [(atStart.extends_compile i).machine]
    refine ⟨rfl, rfl, by decide, by decide, ?_⟩
    simp only [List.cons_append, List.nil_append, Tape.along_cons]
    exact ⟨rfl, rfl, rfl, rfl, fun k x hx => by cases hx⟩
  have hdeliver : (atStart.compile (.deliver toBOrC (some "x"))).1 = .ok (.single "x" "q4") := by
    decide +kernel
  have hcarry : (atStart.compile (.carry toBOrC (some "b"))).1 = .ok (.single "1" "q5") := by
    decide +kernel
  obtain ⟨target₁, htarget₁, hbrings₁⟩ :=
    (values_arrive (c := atStart) (v := "1") (q := "q1") rfl).1 _ _ (Prod.ext hdeliver rfl)
  obtain ⟨target₂, htarget₂, hbrings₂⟩ :=
    (values_arrive (c := atStart) (v := "1") (q := "q1") rfl).2 _ _ (Prod.ext hcarry rfl)
  cases htarget₁
  cases htarget₂
  obtain ⟨m₁, hrun₁, hstate₁, -, hcells₁⟩ := hbrings₁ _ _ _ (List.Subset.refl _) (hfaces _)
  obtain ⟨m₂, hrun₂, hstate₂, -, hcells₂⟩ := hbrings₂ _ _ _ (List.Subset.refl _) (hfaces _)
  exact ⟨_, _, m₁, m₂, Prod.ext hdeliver rfl, hrun₁, hstate₁, hcells₁, Prod.ext hcarry rfl, hrun₂,
    hstate₂, hcells₂⟩

end Compiler

end TapeCompiler
