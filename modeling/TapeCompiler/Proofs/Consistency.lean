import Mathlib.Data.List.Nodup
import TapeCompiler.Proofs.Replay

/-!
# The partial function of a table

Rules are consistent if no two of them say different things about a situation. A program is accepted
exactly if its rules are consistent. Its table is then the partial function that they define, and
holds every rule once. Whatever is done to the machine later, its table lists the situations it
resolves, takes a rule that is present as it is, refuses one that contradicts it, and of a text takes
the rules before the first that is refused.

Since a table resolves situations by the rules it holds and not by their places, machines whose tables
hold the same rules (`Machine.Alike`) do the same steps. So neither whether rules are accepted, nor
what is looked up, nor a run depends on the order in which rules are given or added. Only a failure
lists the rules of the table, in their order.
-/

namespace TapeCompiler

variable {rs rs' : List Rule}

/-- No two rules are for the same situation with different outcomes. -/
def Consistent (rs : List Rule) : Prop :=
  ∀ r ∈ rs, ∀ r' ∈ rs, r.key = r'.key → r.transition = r'.transition

instance (rs : List Rule) : Decidable (Consistent rs) := inferInstanceAs (Decidable (∀ r ∈ rs, _))

theorem Consistent.eq (h : Consistent rs) {r r' : Rule} (hr : r ∈ rs) (hr' : r' ∈ rs)
    (hkey : r.key = r'.key) : r = r' :=
  Rule.ext_parts hkey (h r hr r' hr' hkey)

theorem Consistent.congr (hmem : ∀ r, r ∈ rs ↔ r ∈ rs') : Consistent rs ↔ Consistent rs' := by
  simp only [Consistent, hmem]

/-- Consistent rules have a table. -/
theorem Consistent.exists_table (h : Consistent rs) : ∃ t : Table, t.rules = rs.eraseDups := by
  refine ⟨⟨rs.eraseDups, ?_⟩, rfl⟩
  apply (nodup_eraseDups rs).map_on
  intro r hr r' hr' hkey
  exact h.eq (List.mem_eraseDups.mp hr) (List.mem_eraseDups.mp hr') hkey

namespace Table

variable {t t' : Table} {v s : Symbol}

/-! ## The table of consistent rules -/

theorem consistent_of_rules_eq (h : t.rules = rs.eraseDups) : Consistent rs := by
  intro r hr r' hr' hkey
  rw [← List.mem_eraseDups, ← h] at hr hr'
  rw [eq_of_key_eq hr hr' hkey]

/-- Rules are accepted one by one if they are consistent with each other and with the table, which
then holds each of them once. -/
theorem insertAll_eq_ok :
    t.insertAll rs = (.ok (), t') ↔
      Consistent (t.rules ++ rs) ∧ t'.rules = (t.rules ++ rs).eraseDups := by
  obtain ⟨taken, rest, rfl, hrules, hresult⟩ := t.insertAll_cases rs
  constructor
  · intro h
    rw [h] at hrules hresult
    rcases hresult with ⟨rfl, -⟩ | ⟨r, -, existing, -, -, -, hconflict⟩
    · rw [List.append_nil]
      exact ⟨consistent_of_rules_eq hrules, hrules⟩
    · cases hconflict
  · rintro ⟨hconsistent, hrules'⟩
    rcases hresult with ⟨rfl, hok⟩ | ⟨r, hr, existing, hmem, hkey, hne, -⟩
    · rw [List.append_nil] at hrules' hrules hok ⊢
      exact Prod.ext hok (ext_rules (hrules.trans hrules'.symm))
    · refine absurd (hconsistent.eq ?_ ?_ hkey) hne
      · rw [← List.append_assoc]
        exact List.mem_append_left rest hmem
      · simp [List.mem_of_mem_head? hr]

theorem ofRules_eq_ok_iff : ofRules rs = .ok t ↔ Consistent rs ∧ t.rules = rs.eraseDups :=
  ofRules_eq_ok.trans insertAll_eq_ok

/-- Tables that hold the same rules find the same rules. -/
theorem find?_congr (h : ∀ r, r ∈ t.rules ↔ r ∈ t'.rules) : t'.find? v s = t.find? v s := by
  ext r
  simp only [find?_eq_some_iff, h]

end Table

/-- The outcome with the rules that a failure lists replaced. -/
def Outcome.relist (rules : List Rule) : Outcome → Outcome
  | .failed (.missingRule value state _) => .failed (.missingRule value state rules)
  | outcome => outcome

namespace Machine

variable {m : Machine} {p : Program}

/-! ## Adding rules to a machine -/

/-- A machine keeps a partial function as its table. It lists what it resolves, and a rule or a text
that is added changes the listed rules and nothing else. -/
structure Tabulates (m : Machine) : Prop where
  keys : (m.table.rules.map Rule.key).Nodup
  listed : ∀ r, r ∈ m.table.rules ↔ m.table.lookup r.value r.state = some r.transition
  present : ∀ r ∈ m.table.rules, m.perform (.addRule r) = (.ok none, m)
  contradicted : ∀ r, ∀ existing ∈ m.table.rules, existing.key = r.key →
    existing.transition ≠ r.transition → m.perform (.addRule r) = (.error (.conflict existing r), m)
  added : ∀ r, m.table.lookup r.value r.state = none →
    ∃ t : Table, t.rules = m.table.rules ++ [r] ∧
      m.perform (.addRule r) = (.ok none, { m with table := t })
  unreadable : ∀ text e, Program.parseRules text m.tape.blank = .error e →
    m.perform (.addText text) = (.error e, m)
  readable : ∀ text rules, Program.parseRules text m.tape.blank = .ok rules →
    ∃ taken rest, ∃ t : Table, rules = taken ++ rest ∧ Consistent (m.table.rules ++ taken) ∧
      t.rules = (m.table.rules ++ taken).eraseDups ∧
      ((rest = [] ∧ m.perform (.addText text) = (.ok none, { m with table := t })) ∨
        ∃ r ∈ rest.head?, ∃ existing ∈ m.table.rules ++ taken, existing.key = r.key ∧
          existing.transition ≠ r.transition ∧
          m.perform (.addText text) = (.error (.conflict existing r), { m with table := t }))

theorem perform_addRule_of_ok {r : Rule} {t : Table} (h : m.table.insert r = .ok t) :
    m.perform (.addRule r) = (.ok none, { m with table := t }) := by
  simp [perform, addRule, h, bind, Except.bind, pure, Except.pure]

theorem addText_of_error {text : String} {e : Error}
    (h : Program.parseRules text m.tape.blank = .error e) : m.addText text = (.error e, m) := by
  unfold addText
  rw [h]

theorem addText_of_ok {text : String} {rules : List Rule}
    (h : Program.parseRules text m.tape.blank = .ok rules) :
    m.addText text =
      ((m.table.insertAll rules).1, { m with table := (m.table.insertAll rules).2 }) := by
  unfold addText
  rw [h]

theorem tabulates (m : Machine) : m.Tabulates where
  keys := m.table.distinct
  listed _ := Table.mem_rules_iff_lookup
  present r hr := perform_addRule_of_ok (Table.insert_of_mem hr)
  contradicted r existing hmem hkey hne := by
    have hinsert := Table.insert_eq_conflict hmem hkey fun heq => hne (heq ▸ rfl)
    simp [perform, addRule, hinsert, bind, Except.bind]
  added r hr := by
    obtain ⟨t, hinsert, hrules⟩ := (Table.lookup_eq_none_iff.mp hr).insert
    exact ⟨t, hrules, perform_addRule_of_ok hinsert⟩
  unreadable text e h := by
    simp only [perform, addText_of_error h]
    rfl
  readable text rules h := by
    obtain ⟨taken, rest, hsplit, hrules, hresult⟩ := m.table.insertAll_cases rules
    refine ⟨taken, rest, (m.table.insertAll rules).2, hsplit, Table.consistent_of_rules_eq hrules,
      hrules, ?_⟩
    simp only [perform, addText_of_ok h]
    rcases hresult with ⟨hrest, hok⟩ | ⟨r, hr, existing, hmem, hkey, hne, hconflict⟩
    · left
      rw [hok]
      exact ⟨hrest, rfl⟩
    · right
      rw [hconflict]
      exact ⟨r, hr, existing, hmem, hkey, fun heq => hne (Rule.ext_parts hkey heq), rfl⟩

/-! ## Machines with rearranged rules -/

/-- The machine with another table, and other rules in the program it was started from. -/
def rearranged (m : Machine) (t : Table) (rules : List Rule) : Machine :=
  { m with table := t, program := { m.program with rules } }

/-- The machines differ at most in the order of their rules, and in the rules of the programs they
were started from. -/
def Alike (m m' : Machine) : Prop :=
  ∃ t rules, m' = m.rearranged t rules ∧ ∀ r, r ∈ m.table.rules ↔ r ∈ t.rules

section Rearranged

variable {t : Table} {rules : List Rule} (h : ∀ r, r ∈ m.table.rules ↔ r ∈ t.rules)

include h

theorem step_rearranged :
    (m.rearranged t rules).step = (m.step.1.relist t.rules, m.step.2.rearranged t rules) := by
  have hfind : (m.rearranged t rules).table.find? m.symbol m.state =
      m.table.find? m.symbol m.state := Table.find?_congr h
  rcases m.step_cases with ⟨hm, hs⟩ | ⟨hm, hnone, hs⟩ | ⟨r, hm, hsome, hs⟩
  · rw [hs]
    exact step_of_halted hm
  · rw [hs]
    exact step_of_find?_eq_none (m := m.rearranged t rules) hm (hfind.trans hnone)
  · rw [hs]
    refine (step_of_find?_eq_some (m := m.rearranged t rules) hm (hfind.trans hsome)).trans ?_
    by_cases hhalt : r.action = .halt <;> simp only [hhalt, if_true, if_false] <;> rfl

/-- A run does not notice how the rules are arranged. -/
theorem run_rearranged (n : Nat) :
    (m.rearranged t rules).run n = ((m.run n).1.relist t.rules, (m.run n).2.rearranged t rules) := by
  induction n generalizing m with
  | zero => rfl
  | succ n ih =>
    have htable := m.table_step
    rw [run, run, step_rearranged h]
    cases hs : m.step with
    | mk outcome m' =>
      rw [hs] at htable
      cases outcome with
      | continues =>
        apply ih
        intro r
        rw [show m'.table = m.table from htable, h]
      | halted => rfl
      | failed e => cases e <;> rfl

end Rearranged

/-! ## The order of rules -/

/-- Two attempts at a machine have the same result up to the order of the rules. -/
structure Agree (x x' : Except Error Machine) : Prop where
  accepted : (∃ m, x = .ok m) ↔ ∃ m', x' = .ok m'
  lookup : ∀ m m', x = .ok m → x' = .ok m' → ∀ v s, m'.table.lookup v s = m.table.lookup v s
  runs : ∀ m m', x = .ok m → x' = .ok m' → ∀ n,
    (m'.run n).1 = (m.run n).1.relist m'.table.rules ∧ (m.run n).2.Alike (m'.run n).2

/-- An attempt at the machine `m` with the given rules in its table. It succeeds if these are
consistent. -/
def Attempts (x : Except Error Machine) (m : Machine) (rs : List Rule) : Prop :=
  ∀ m', x = .ok m' ↔ Consistent rs ∧ ∃ t : Table, t.rules = rs.eraseDups ∧ m' = { m with table := t }

theorem Attempts.exists_ok_iff {x : Except Error Machine} (hx : Attempts x m rs) :
    (∃ m', x = .ok m') ↔ Consistent rs := by
  constructor
  · rintro ⟨m', hm'⟩
    exact ((hx m').mp hm').1
  · intro hrs
    obtain ⟨t, ht⟩ := hrs.exists_table
    exact ⟨_, (hx _).mpr ⟨hrs, t, ht, rfl⟩⟩

/-- Attempts with the same rules agree, in whatever order these are, and however often they are
repeated. -/
theorem Attempts.agree {x x' : Except Error Machine} {rules : List Rule} (hx : Attempts x m rs)
    (hx' : Attempts x' (m.rearranged m.table rules) rs') (hmem : ∀ r, r ∈ rs ↔ r ∈ rs') :
    Agree x x' := by
  have halike : ∀ m₁ m₂, x = .ok m₁ → x' = .ok m₂ →
      m₂ = m₁.rearranged m₂.table rules ∧ ∀ r, r ∈ m₁.table.rules ↔ r ∈ m₂.table.rules := by
    intro m₁ m₂ h₁ h₂
    obtain ⟨-, t₁, ht₁, rfl⟩ := (hx m₁).mp h₁
    obtain ⟨-, t₂, ht₂, rfl⟩ := (hx' m₂).mp h₂
    refine ⟨rfl, fun r => ?_⟩
    simp only [ht₁, ht₂, List.mem_eraseDups, hmem]
  constructor
  · rw [hx.exists_ok_iff, hx'.exists_ok_iff, Consistent.congr hmem]
  · intro m₁ m₂ h₁ h₂ v s
    simp only [Table.lookup, Table.find?_congr (halike m₁ m₂ h₁ h₂).2]
  · intro m₁ m₂ h₁ h₂ n
    obtain ⟨hm₂, hrules⟩ := halike m₁ m₂ h₁ h₂
    have hrun : (m₁.rearranged m₂.table rules).run n = _ := run_rearranged hrules n
    rw [← hm₂] at hrun
    rw [hrun]
    exact ⟨rfl, m₂.table, rules, rfl, by rw [table_run]; exact hrules⟩

/-- A machine at the start of a program, with further rules added one by one. -/
def assemble (p : Program) (added : List Rule) : Except Error Machine := do
  let m ← ofProgram p
  added.foldlM addRule m

theorem attempts_ofProgram (p : Program) :
    Attempts (ofProgram p) (start p .empty) p.rules := by
  intro m'
  simp only [ofProgram_eq_ok, Table.ofRules_eq_ok_iff, and_assoc, exists_and_left]
  rfl

theorem foldlM_addRule_eq_ok {m' : Machine} :
    rs.foldlM addRule m = .ok m' ↔
      ∃ t, m.table.insertAll rs = (.ok (), t) ∧ m' = { m with table := t } := by
  induction rs generalizing m with
  | nil => simp [Table.insertAll, pure, Except.pure, eq_comm]
  | cons r rs ih =>
    rw [List.foldlM_cons, addRule, Table.insertAll]
    cases m.table.insert r with
    | error e => simp [bind, Except.bind]
    | ok t => exact ih

theorem attempts_addRule (m : Machine) (rs : List Rule) :
    Attempts (rs.foldlM addRule m) m (m.table.rules ++ rs) := by
  intro m'
  simp only [foldlM_addRule_eq_ok, Table.insertAll_eq_ok, and_assoc, exists_and_left]

theorem agree_addRule (m : Machine) (hmem : ∀ r, r ∈ rs ↔ r ∈ rs') :
    Agree (rs.foldlM addRule m) (rs'.foldlM addRule m) := by
  have hx' : Attempts (rs'.foldlM addRule m) (m.rearranged m.table m.program.rules)
      (m.table.rules ++ rs') := attempts_addRule m rs'
  apply (attempts_addRule m rs).agree hx'
  intro r
  simp only [List.mem_append, hmem]

/-- Rules count alike whether the program gives them or they are added to its machine. -/
theorem attempts_assemble (p : Program) (added : List Rule) :
    Attempts (assemble p added) (start p .empty) (p.rules ++ added) := by
  intro m'
  rw [assemble]
  cases hp : ofProgram p with
  | error e =>
    have hrefused : ¬∃ m, ofProgram p = .ok m := by simp [hp]
    rw [(attempts_ofProgram p).exists_ok_iff] at hrefused
    constructor
    · intro h
      cases h
    · rintro ⟨hconsistent, -⟩
      refine absurd (fun r hr r' hr' => ?_) hrefused
      exact hconsistent r (List.mem_append_left _ hr) r' (List.mem_append_left _ hr')
  | ok m =>
    obtain ⟨-, t, ht, rfl⟩ := ((attempts_ofProgram p) m).mp hp
    have hmem : ∀ r, r ∈ t.rules ++ added ↔ r ∈ p.rules ++ added := by
      simp [ht]
    have herase : (t.rules ++ added).eraseDups = (p.rules ++ added).eraseDups := by
      rw [ht, eraseDups_append_eraseDups]
    have hadd := attempts_addRule { start p .empty with table := t } added m'
    simp only [Consistent.congr hmem, herase] at hadd
    exact hadd

/-- **A table is the partial function of its rules.** A program is accepted exactly if its rules are
consistent. Its machine then lists them without repetitions and resolves a situation as they say, and
after whatever has been done to it, its table is such a function and stays one when rules are added.
The order of rules does not matter: where the same rules are given or added in another order, they
are accepted or not in the same way, and look-ups and runs are the same, but that a failure lists the
rules of the table in their order. -/
theorem table_is_partial_function (p : Program) :
    ((∃ m, ofProgram p = .ok m) ↔ Consistent p.rules) ∧
    (∀ m, ofProgram p = .ok m →
      m.table.rules = p.rules.eraseDups ∧
      (∀ v s x, m.table.lookup v s = some x ↔ ∃ r ∈ p.rules, r.key = (v, s) ∧ r.transition = x) ∧
      ∀ events, (m.after events).Tabulates ∧
        ∀ added added' : List Rule, (∀ r, r ∈ added ↔ r ∈ added') →
          Agree (added.foldlM addRule (m.after events)) (added'.foldlM addRule (m.after events))) ∧
    ∀ rules added added' : List Rule, (∀ r, r ∈ p.rules ++ added ↔ r ∈ rules ++ added') →
      Agree (assemble p added) (assemble { p with rules } added') := by
  refine ⟨(attempts_ofProgram p).exists_ok_iff, fun m hm => ?_, fun rules added added' hmem => ?_⟩
  · obtain ⟨-, t, ht, rfl⟩ := ((attempts_ofProgram p) m).mp hm
    refine ⟨ht, fun v s x => ?_, fun events => ⟨tabulates _, fun _ _ => agree_addRule _⟩⟩
    simp only [Table.lookup_eq_some_iff, ht, List.mem_eraseDups]
  · exact (attempts_assemble p added).agree (attempts_assemble { p with rules } added') hmem

end Machine

end TapeCompiler
