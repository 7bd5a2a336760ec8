import TapeCompiler.Proofs.Freshness

/-!
# A machine is what its log says

A log is a list of rules, and rules can be followed one after the other on a tape that is nothing
but a map from integers to symbols (`Configuration.replay`). `Machine.Logged` says that this leads
from the start of the program to where the machine is, with each rule fitting the situation in which
it is met; that a machine has halted exactly if its last rule says so; and that the head stands on a
stored cell once a rule has been applied.

Whatever is done to a machine keeps this, be it asked of the machine itself or of a compiler that
has it. There are only four things that can happen: the table grows, the machine runs, it is put
back to its start, or its recorder is switched (`Machine.undergo_cases`).
-/

namespace TapeCompiler

/-! ## Following rules -/

/-- What the cells of an unbounded tape hold, where the head stands on it, and in which state. -/
structure Configuration where
  cell : Int → Symbol
  head : Int
  state : Symbol

namespace Configuration

/-- The start of a program. -/
def ofProgram (p : Program) : Configuration where
  cell i := if 0 ≤ i then p.cells.getD i.toNat p.blank else p.blank
  head := p.head
  state := p.start

/-- The configuration behind a rule, which has to be for the symbol under the head and the state. -/
def follow (c : Configuration) (r : Rule) : Option Configuration :=
  if c.cell c.head = r.value ∧ c.state = r.state then
    some ⟨fun i => if i = c.head then r.write else c.cell i, c.head + r.action.offset, r.next⟩
  else none

/-- The configuration behind several rules, each of which has to fit where it is met. -/
def replay (c : Configuration) (rules : List Rule) : Option Configuration := rules.foldlM follow c

theorem replay_concat {c c' : Configuration} {rules : List Rule} (h : c.replay rules = some c')
    (r : Rule) : c.replay (rules ++ [r]) = c'.follow r := by
  rw [replay] at h
  rw [replay, List.foldlM_append, h]
  simp

end Configuration

namespace Machine

/-- Where a machine is, without regard to which cells are stored. -/
def configuration (m : Machine) : Configuration := ⟨m.tape.read, m.head, m.state⟩

/-! ## What the log says -/

/-- The machine was started from `p`, and its log says how it came to be where it is. -/
structure Logged (p : Program) (m : Machine) : Prop where
  program : m.program = p
  count : m.stepCount = m.log.size
  known : ∀ r ∈ m.log.toList, r ∈ m.table.rules
  replays : (Configuration.ofProgram p).replay m.log.toList = some m.configuration
  halted : m.halted = true ↔ ∃ r, m.log.toList.getLast? = some r ∧ r.action = .halt
  earlier : ∀ r ∈ m.log.toList.dropLast, r.action ≠ .halt
  stored : 0 < m.stepCount → m.tape.leftmost ≤ m.head ∧ m.head ≤ m.tape.rightmost

theorem configuration_start (p : Program) (t : Table) :
    (start p t).configuration = .ofProgram p := by
  have hread : (Tape.ofCells p.cells p.blank).read = (Configuration.ofProgram p).cell := by
    funext i
    exact Tape.read_ofCells
  simp only [configuration, start, hread]
  rfl

/-- Applying a rule is following it. -/
theorem follow_configuration {m : Machine} {r : Rule} (hvalue : r.value = m.symbol)
    (hstate : r.state = m.state) : m.configuration.follow r = some (m.apply r).configuration := by
  have hfits : m.configuration.cell m.configuration.head = r.value ∧
      m.configuration.state = r.state := ⟨hvalue.symm, hstate.symm⟩
  have hread : (m.apply r).tape.read = fun i => if i = m.head then r.write else m.tape.read i := by
    funext i
    simp only [apply]
    split <;> simp [Tape.read_write]
  rw [Configuration.follow, if_pos hfits, configuration, configuration, hread]
  rfl

/-- The head stands on a stored cell after a rule. -/
theorem stored_apply (m : Machine) (r : Rule) :
    (m.apply r).tape.leftmost ≤ (m.apply r).head ∧
      (m.apply r).head ≤ (m.apply r).tape.rightmost := by
  simp only [apply]
  cases r.action with
  | left | right =>
    simp only [Action.moves, if_true, Tape.leftmost_reach, Tape.rightmost_reach]
    omega
  | stay | halt =>
    simp only [Action.moves, Bool.false_eq_true, if_false, Action.offset, Tape.leftmost_write,
      Tape.rightmost_write, Tape.leftmost_reach, Tape.rightmost_reach]
    omega

namespace Logged

variable {p : Program} {m : Machine}

theorem of_start (p : Program) (t : Table) : (start p t).Logged p where
  program := rfl
  count := rfl
  known r hr := by simp [start] at hr
  replays := by
    rw [configuration_start]
    rfl
  halted := by simp [start]
  earlier r hr := by simp [start] at hr
  stored h := by simp [start] at h

/-- Rules may be added at any time. -/
theorem withTable (h : m.Logged p) {t : Table} (ht : m.table.rules <+: t.rules) :
    Logged p { m with table := t } :=
  { h with known := fun r hr => ht.subset (h.known r hr) }

/-- Cells may be stored at any time. -/
theorem reach (h : m.Logged p) (i : Int) : Logged p { m with tape := m.tape.reach i } where
  program := h.program
  count := h.count
  known := h.known
  replays := by
    have hread : (m.tape.reach i).read = m.tape.read := funext fun j => Tape.read_reach _ i j
    rw [configuration, hread]
    exact h.replays
  halted := h.halted
  earlier := h.earlier
  stored hcount := by
    have hstored := h.stored hcount
    simp only [Tape.leftmost_reach, Tape.rightmost_reach]
    omega

/-- No rule in the log of a machine that has not halted is a halting one. -/
theorem ne_halt (h : m.Logged p) (hm : m.halted = false) :
    ∀ r ∈ m.log.toList, r.action ≠ .halt := by
  intro r hr hhalt
  have hlast : m.log.toList.getLast? = some r := by
    have hne := List.ne_nil_of_mem hr
    rw [← List.dropLast_concat_getLast hne, List.mem_append, List.mem_singleton] at hr
    rcases hr with hr | rfl
    · exact absurd hhalt (h.earlier r hr)
    · exact List.getLast?_eq_some_getLast hne
  have hhalted := h.halted.mpr ⟨r, hlast, hhalt⟩
  rw [hm] at hhalted
  cases hhalted

/-- Applying the rule for the present situation puts it at the end of the log. -/
theorem apply (h : m.Logged p) (hm : m.halted = false) {r : Rule}
    (hr : m.table.find? m.symbol m.state = some r) : (m.apply r).Logged p := by
  obtain ⟨hmem, hvalue, hstate⟩ := Table.find?_eq_some_iff.mp hr
  have hlog : (m.apply r).log.toList = m.log.toList ++ [r] := Array.toList_push
  refine ⟨h.program, ?_, ?_, ?_, ?_, ?_, fun _ => m.stored_apply r⟩
  · simp [Machine.apply, h.count]
  · intro r' hr'
    rw [hlog, List.mem_append, List.mem_singleton] at hr'
    rcases hr' with hr' | rfl
    · exact h.known r' hr'
    · exact hmem
  · rw [hlog, Configuration.replay_concat h.replays]
    exact follow_configuration hvalue hstate
  · rw [hlog, List.getLast?_concat]
    simp [Machine.apply]
  · rw [hlog, List.dropLast_concat]
    exact h.ne_halt hm

theorem step (h : m.Logged p) : m.step.2.Logged p := by
  rcases m.step_cases with ⟨-, hs⟩ | ⟨-, -, hs⟩ | ⟨r, hm, hfind, hs⟩
  · rw [hs]
    exact h
  · rw [hs]
    exact h.reach m.head
  · rw [hs]
    exact h.apply hm hfind

theorem run (h : m.Logged p) (n : Nat) : (m.run n).2.Logged p :=
  run_induction (fun _ => step) n h

theorem reset (h : m.Logged p) : m.reset.Logged p := by
  rw [Machine.reset, h.program]
  exact { of_start p m.table with }

theorem listen (h : m.Logged p) (on : Bool) : (m.listen on).Logged p := { h with }

end Logged

/-! ## What can be done to a machine -/

/-- Something that is done to a machine: a request of its own, or a command to a compiler that has
it. Of the compiler only the names and the cursor matter, and they may be any. -/
inductive Event where
  | direct (command : Command)
  | through (compiler : Compiler) (command : TapeCompiler.Command)

/-- Whether a recorder is on after an event, if it was before or not. -/
def Event.switch (on : Bool) : Event → Bool
  | .direct (.listen on') => on'
  | _ => on

/-- The machine after an event. -/
def undergo (m : Machine) : Event → Machine
  | .direct command => (m.perform command).2
  | .through compiler command => ({ compiler with machine := m }.perform command).2.machine

/-- The machine after several events. -/
def after (m : Machine) (events : List Event) : Machine := events.foldl undergo m

theorem run_one (m : Machine) : m.run 1 = m.step := by
  rw [run]
  cases m.step with
  | mk outcome m' => cases outcome <;> rfl

theorem exists_table_of_addText (m : Machine) (text : String) :
    ∃ t, (m.addText text).2 = { m with table := t } ∧ m.table.rules <+: t.rules := by
  unfold addText
  cases Program.parseRules text m.tape.blank with
  | error e => exact ⟨m.table, rfl, List.prefix_refl _⟩
  | ok rules => exact ⟨(m.table.insertAll rules).2, rfl, m.table.prefix_of_insertAll rules⟩

/-- The four things that can happen to a machine. -/
theorem undergo_cases (m : Machine) (e : Event) :
    (∃ t, m.undergo e = { m with table := t } ∧ m.table.rules <+: t.rules ∧
      ∀ on, e.switch on = on) ∨
    (∃ n, m.undergo e = (m.run n).2 ∧ ∀ on, e.switch on = on) ∨
    (e = .direct .reset ∧ m.undergo e = m.reset ∧ ∀ on, e.switch on = on) ∨
    ∃ on', m.undergo e = m.listen on' ∧ ∀ on, e.switch on = on' := by
  cases e with
  | direct command =>
    cases command with
    | addRule r =>
      left
      simp only [undergo, perform, addRule]
      cases hinsert : m.table.insert r with
      | error e => exact ⟨m.table, rfl, List.prefix_refl _, fun _ => rfl⟩
      | ok t => exact ⟨t, rfl, Table.prefix_of_insert hinsert, fun _ => rfl⟩
    | addText text =>
      left
      obtain ⟨t, hm, ht⟩ := m.exists_table_of_addText text
      exact ⟨t, hm, ht, fun _ => rfl⟩
    | step => exact .inr (.inl ⟨1, by rw [run_one]; rfl, fun _ => rfl⟩)
    | run n => exact .inr (.inl ⟨n, rfl, fun _ => rfl⟩)
    | reset => exact .inr (.inr (.inl ⟨rfl, rfl, fun _ => rfl⟩))
    | listen on => exact .inr (.inr (.inr ⟨on, rfl, fun _ => rfl⟩))
  | through compiler command =>
    rcases Compiler.perform_cases { compiler with machine := m } command with
      hextends | ⟨n, hrun⟩
    · exact .inl ⟨_, hextends.machine, hextends.rules, fun _ => rfl⟩
    · exact .inr (.inl ⟨n, by rw [undergo, hrun], fun _ => rfl⟩)

variable {p : Program} {m m' m'' : Machine}

theorem Logged.undergo (h : m.Logged p) (e : Event) : (m.undergo e).Logged p := by
  rcases m.undergo_cases e with ⟨t, hm, ht, -⟩ | ⟨n, hm, -⟩ | ⟨-, hm, -⟩ | ⟨on, hm, -⟩
  · rw [hm]
    exact h.withTable ht
  · rw [hm]
    exact h.run n
  · rw [hm]
    exact h.reset
  · rw [hm]
    exact h.listen on

theorem Logged.after (h : m.Logged p) (events : List Event) : (m.after events).Logged p := by
  induction events generalizing m with
  | nil => exact h
  | cons e events ih => exact ih (h.undergo e)

/-! ## What a recorder hears -/

/-- The rules in the log of `m'` behind those in the log of `m`. -/
def appended (m m' : Machine) : List Rule := m'.log.toList.drop m.log.size

/-- What a recorder has to hear of several events: the rules that are put into the log while it is
on. -/
def audible (m : Machine) (on : Bool) : List Event → List Rule
  | [] => []
  | e :: events =>
    (if on then m.appended (m.undergo e) else []) ++ (m.undergo e).audible (e.switch on) events

/-- Rules have been applied, and the recorder has heard them if it was on. -/
def Records (m m' : Machine) : Prop :=
  m'.log.toList = m.log.toList ++ m.appended m' ∧ m'.recorder.on = m.recorder.on ∧
    m'.recorder.heard.toList =
      m.recorder.heard.toList ++ if m.recorder.on then m.appended m' else []

theorem Records.intro (rules : List Rule) (hlog : m'.log.toList = m.log.toList ++ rules)
    (hon : m'.recorder.on = m.recorder.on)
    (hheard : m'.recorder.heard.toList =
      m.recorder.heard.toList ++ if m.recorder.on then rules else []) : m.Records m' := by
  have hrules : m.appended m' = rules := by simp [appended, hlog]
  rw [← hrules] at hlog hheard
  exact ⟨hlog, hon, hheard⟩

/-- Neither the log nor the recorder has changed. -/
theorem Records.of_eq (hlog : m'.log = m.log) (hrecorder : m'.recorder = m.recorder) :
    m.Records m' :=
  .intro [] (by simp [hlog]) (by rw [hrecorder]) (by simp [hrecorder])

theorem Records.trans (h : m.Records m') (h' : m'.Records m'') : m.Records m'' := by
  obtain ⟨hlog, hon, hheard⟩ := h
  obtain ⟨hlog', hon', hheard'⟩ := h'
  refine .intro (m.appended m' ++ m'.appended m'') ?_ (hon'.trans hon) ?_
  · rw [hlog', hlog, List.append_assoc]
  · rw [hheard', hheard, hon]
    split <;> simp

theorem records_apply (m : Machine) (r : Rule) : m.Records (m.apply r) := by
  refine .intro [r] Array.toList_push ?_ ?_
  · simp only [apply, Recorder.hear]
    split <;> rfl
  · simp only [apply, Recorder.hear]
    split <;> simp

theorem records_step (m : Machine) : m.Records m.step.2 := by
  rcases m.step_cases with ⟨-, hs⟩ | ⟨-, -, hs⟩ | ⟨r, -, -, hs⟩
  · rw [hs]
    exact .of_eq rfl rfl
  · rw [hs]
    exact .of_eq rfl rfl
  · rw [hs]
    exact m.records_apply r

theorem records_run (m : Machine) (n : Nat) : m.Records (m.run n).2 :=
  run_induction (P := m.Records) (fun m' h => h.trans m'.records_step) n (.of_eq rfl rfl)

/-- Only a reset takes anything out of the log. -/
theorem log_undergo (m : Machine) {e : Event} (he : e ≠ .direct .reset) :
    (m.undergo e).log.toList = m.log.toList ++ m.appended (m.undergo e) := by
  rcases m.undergo_cases e with ⟨t, hm, -⟩ | ⟨n, hm, -⟩ | ⟨rfl, -⟩ | ⟨on, hm, -⟩
  · rw [hm]
    simp [appended]
  · rw [hm]
    exact (m.records_run n).1
  · exact absurd rfl he
  · rw [hm]
    simp [appended, listen]

/-- An event switches the recorder or lets it hear what is put into the log. -/
theorem recorder_undergo (m : Machine) (e : Event) :
    (m.undergo e).recorder.on = e.switch m.recorder.on ∧
      (m.undergo e).recorder.heard.toList = m.recorder.heard.toList ++
        if m.recorder.on then m.appended (m.undergo e) else [] := by
  rcases m.undergo_cases e with ⟨t, hm, -, hon⟩ | ⟨n, hm, hon⟩ | ⟨-, hm, hon⟩ | ⟨on, hm, hon⟩
  · rw [hm, hon]
    simp [appended]
  · rw [hm, hon]
    exact (m.records_run n).2
  · rw [hm, hon]
    simp [appended, reset, start]
  · rw [hm, hon]
    simp [appended, listen]

theorem heard_after (m : Machine) (events : List Event) :
    (m.after events).recorder.heard.toList =
      m.recorder.heard.toList ++ m.audible m.recorder.on events := by
  induction events generalizing m with
  | nil => simp [after, audible]
  | cons e events ih =>
    obtain ⟨hon, hheard⟩ := m.recorder_undergo e
    calc
      (m.after (e :: events)).recorder.heard.toList
        = ((m.undergo e).after events).recorder.heard.toList := rfl
      _ = (m.undergo e).recorder.heard.toList ++
          (m.undergo e).audible (m.undergo e).recorder.on events := ih _
      _ = m.recorder.heard.toList ++ m.audible m.recorder.on (e :: events) := by
        rw [hheard, hon, audible, List.append_assoc]

/-- **A machine is what its log says.** Whatever is done to a machine after the start of a program,
its log replays on an unbounded tape to the situation it is in; and a recorder has heard exactly
what was put into the log while it was on. -/
theorem log_replays (h : ofProgram p = .ok m) (events : List Event) :
    (m.after events).Logged p ∧
      (m.after events).recorder.heard.toList = m.audible false events ∧
      ∀ e, e ≠ .direct .reset → ((m.after events).undergo e).log.toList =
        (m.after events).log.toList ++ (m.after events).appended ((m.after events).undergo e) := by
  rw [ofProgram] at h
  cases ht : Table.ofRules p.rules with
  | error e =>
    rw [ht] at h
    cases h
  | ok t =>
    rw [ht] at h
    cases h
    exact ⟨(Logged.of_start p t).after events, heard_after _ events, fun e => log_undergo _⟩

/-- A program with one rule, for its first step. -/
def firstStep : Program := ⟨["1"], 0, "_", "q1", [⟨"1", "q1", "x", "q2", .left⟩]⟩

/-- The first step is overheard; a halting rule is added by hand and applied while the recorder is
off; and the first step is taken once more. -/
def overhearing : List Event :=
  [.direct (.listen true), .direct .step, .direct (.listen false),
    .through (.ofMachine (.start firstStep .empty))
      (.compile (.manual ⟨"_", "q2", "y", "q3", .halt⟩)),
    .direct (.run 5), .direct .reset, .direct (.listen true), .direct .step]

/-- The recorder has heard the first step twice, and nothing of the halt. -/
theorem log_replays_overhearing :
    ∃ m, ofProgram firstStep = .ok m ∧ (m.after (overhearing.take 5)).halted = true ∧
      (m.after (overhearing.take 5)).Logged firstStep ∧
      (m.after overhearing).Logged firstStep ∧ (m.after overhearing).stepCount = 1 ∧
      (m.after overhearing).recorder.heard.toList =
        [⟨"1", "q1", "x", "q2", .left⟩, ⟨"1", "q1", "x", "q2", .left⟩] := by
  obtain ⟨m, hm⟩ : ∃ m, ofProgram firstStep = .ok m := ⟨_, rfl⟩
  have hhalted : (m.after (overhearing.take 5)).halted = true := by
    cases hm
    decide +kernel
  have hcount : (m.after overhearing).stepCount = 1 := by
    cases hm
    decide +kernel
  have haudible : m.audible false overhearing =
      [⟨"1", "q1", "x", "q2", .left⟩, ⟨"1", "q1", "x", "q2", .left⟩] := by
    cases hm
    decide +kernel
  obtain ⟨hlogged, hheard, -⟩ := log_replays hm overhearing
  exact ⟨m, hm, hhalted, (log_replays hm _).1, hlogged, hcount, hheard.trans haudible⟩

end Machine

end TapeCompiler
