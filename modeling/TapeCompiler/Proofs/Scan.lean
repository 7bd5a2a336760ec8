import Mathlib.Control.Monad.Basic
import TapeCompiler.Proofs.Progress

/-!
# Scans at work

What a machine does in whose table a scan has been compiled. It leaves the first cell, goes on over
the interior values, and stops on the first terminal value, having written what the edit says; on a
value that is neither interior nor terminal it fails.

The last needs that the state in which the scan goes on is new. It is in no rule of the table, but
it may be the state of the cursor, when that state is in no rule either and has not been reserved.
Then the rule by which the scan leaves its first cell applies again wherever the same value is met.
-/

namespace TapeCompiler

namespace Stretch

variable {S : Stretch} {s : Scan} {w : Edit} {v q going arrived t : Symbol}
  {word back front : List Symbol}

/-- A scan in the direction of the stretch. -/
theorem leads_scan (hd : S.direction.moves = true) (hs : s.direction = S.direction)
    (hr : s.rules w v q going arrived ⊆ S.table.rules) (hword : ∀ x ∈ word, x ∈ s.crossed)
    (ht : t ∈ s.stops) :
    S.Leads (word.length + 2) ⟨back, v :: (word ++ t :: front), q⟩
      ⟨(word.map w.interior).reverse ++ s.first w v :: back, s.last w t :: front, arrived⟩ := by
  have hpass : S.Leads (word.length + 2) ⟨back, v :: (word.map id ++ t :: front), q⟩
      ⟨(word.map w.interior).reverse ++ s.first w v :: back, s.last w t :: front, arrived⟩ :=
    leads_pass hd (hs ▸ hr Scan.leave_mem_rules)
      (fun x hx => hs ▸ hr (Scan.over_mem_rules (hword x hx))) (hr (Scan.stop_mem_rules ht))
  rwa [List.map_id] at hpass

/-- A scan against the direction of the stretch. -/
theorem leads_scan_back (hd : S.direction.moves = true) (hs : s.direction = S.direction.opposite)
    (hr : s.rules w v q going arrived ⊆ S.table.rules) (hword : ∀ x ∈ word, x ∈ s.crossed)
    (ht : t ∈ s.stops) :
    S.Leads (word.length + 2) ⟨word ++ t :: back, v :: front, q⟩
      ⟨back, s.last w t :: ((word.map w.interior).reverse ++ s.first w v :: front), arrived⟩ := by
  have hpass : S.Leads (word.length + 2) ⟨word.map id ++ t :: back, v :: front, q⟩
      ⟨back, s.last w t :: ((word.map w.interior).reverse ++ s.first w v :: front), arrived⟩ :=
    leads_pass_back hd (hs ▸ hr Scan.leave_mem_rules)
      (fun x hx => hs ▸ hr (Scan.over_mem_rules (hword x hx))) (hr (Scan.stop_mem_rules ht))
  rwa [List.map_id] at hpass

/-- A scan that leaves all cells as they are. -/
theorem leads_seek (hd : S.direction.moves = true) (hs : s.direction = S.direction)
    (hr : s.rules .keep v q going arrived ⊆ S.table.rules)
    (hword : ∀ x ∈ word, x ∈ s.interior ∧ x ∉ s.terminals) (ht : t ∈ s.terminals) :
    S.Leads (word.length + 2) ⟨back, v :: (word ++ t :: front), q⟩
      ⟨word.reverse ++ v :: back, t :: front, arrived⟩ := by
  have hscan : S.Leads (word.length + 2) ⟨back, v :: (word ++ t :: front), q⟩ _ :=
    leads_scan hd hs hr (fun x hx => Scan.mem_crossed.mpr (hword x hx)) (Scan.mem_stops.mpr ht)
  simpa using hscan

/-- The same against the direction of the stretch. -/
theorem leads_seek_back (hd : S.direction.moves = true) (hs : s.direction = S.direction.opposite)
    (hr : s.rules .keep v q going arrived ⊆ S.table.rules)
    (hword : ∀ x ∈ word, x ∈ s.interior ∧ x ∉ s.terminals) (ht : t ∈ s.terminals) :
    S.Leads (word.length + 2) ⟨word.reverse ++ t :: back, v :: front, q⟩
      ⟨back, t :: (word ++ v :: front), arrived⟩ := by
  have hcrossed : ∀ x ∈ word.reverse, x ∈ s.crossed := by
    intro x hx
    exact Scan.mem_crossed.mpr (hword x (List.mem_reverse.mp hx))
  have hscan : S.Leads (word.reverse.length + 2) ⟨word.reverse ++ t :: back, v :: front, q⟩ _ :=
    leads_scan_back hd hs hr hcrossed (Scan.mem_stops.mpr ht)
  simpa using hscan

/-- A scan up to the cell behind a word, whatever it holds. -/
theorem leads_scan_over (hd : S.direction.moves = true) (hs : s.direction = S.direction)
    (hr : s.rules w v q going arrived ⊆ S.table.rules) (hword : ∀ x ∈ word, x ∈ s.crossed) :
    S.Leads (word.length + 1) ⟨back, v :: (word ++ front), q⟩
      ⟨(word.map w.interior).reverse ++ s.first w v :: back, front, going⟩ := by
  have hover : S.Leads (1 + word.length) ⟨back, v :: (word.map id ++ front), q⟩
      ⟨(word.map w.interior).reverse ++ s.first w v :: back, front, going⟩ :=
    (leads_forward hd (hs ▸ hr Scan.leave_mem_rules)).trans
      (leads_over hd fun x hx => hs ▸ hr (Scan.over_mem_rules (hword x hx)))
  rwa [List.map_id, Nat.add_comm] at hover

end Stretch

namespace Build

section Reaches

variable {c c' : Compiler} {S : Stretch} {s : Scan} {v q arrived t x : Symbol}
  {word back front : List Symbol}

/-- A compiled search, on a stretch whose table includes the rules of the compiler. -/
theorem seek_reaches (hcursor : c.cursor = .ofCondition (.single v q))
    (h : seek s c = .ok arrived c') (hS : c'.machine.table.rules ⊆ S.table.rules)
    (hs : s.direction = S.direction) (hword : ∀ x ∈ word, x ∈ s.interior ∧ x ∉ s.terminals)
    (ht : t ∈ s.terminals) :
    S.Reaches ⟨back, v :: (word ++ t :: front), q⟩
      ⟨word.reverse ++ v :: back, t :: front, arrived⟩ := by
  have hd : S.direction.moves = true := hs ▸ (scan_ok hcursor h).1
  have hrules := List.Subset.trans (scan_rules_subset hcursor h) hS
  exact (Stretch.leads_seek hd hs hrules hword ht).reaches

/-- The same against the direction of the stretch. -/
theorem seek_reaches_back (hcursor : c.cursor = .ofCondition (.single v q))
    (h : seek s c = .ok arrived c') (hS : c'.machine.table.rules ⊆ S.table.rules)
    (hs : s.direction = S.direction.opposite)
    (hword : ∀ x ∈ word, x ∈ s.interior ∧ x ∉ s.terminals) (ht : t ∈ s.terminals) :
    S.Reaches ⟨word.reverse ++ t :: back, v :: front, q⟩
      ⟨back, t :: (word ++ v :: front), arrived⟩ := by
  have hd : S.direction.moves = true := by
    rw [← Action.moves_opposite, ← hs]
    exact (scan_ok hcursor h).1
  have hrules := List.Subset.trans (scan_rules_subset hcursor h) hS
  exact (Stretch.leads_seek_back hd hs hrules hword ht).reaches

/-- A compiled delivery takes one step more than its scan, to write the value. -/
theorem deliver_leads (hcursor : c.cursor = .ofCondition (.single v q))
    (h : deliver s (some x) c = .ok () c') :
    ∃ target, c'.cursor = .ofCondition (.single x target) ∧
      ∀ S : Stretch, c'.machine.table.rules ⊆ S.table.rules → s.direction = S.direction →
        ∀ word back front : List Symbol, (∀ x ∈ word, x ∈ s.interior ∧ x ∉ s.terminals) →
          ∀ t ∈ s.terminals,
            S.Leads (word.length + 3) ⟨back, v :: (word ++ t :: front), q⟩
              ⟨word.reverse ++ v :: back, x :: front, target⟩ := by
  obtain ⟨hd, arrived, target, hcursor', hscan, hwrite⟩ := deliver_ok hcursor h
  refine ⟨target, hcursor', fun S hS hs word back front hword t ht => ?_⟩
  rw [hs] at hd
  have hstep : S.Leads 1 ⟨word.reverse ++ v :: back, t :: front, arrived⟩
      ⟨word.reverse ++ v :: back, x :: front, target⟩ :=
    Stretch.leads_stay hd (hS (hwrite t ht))
  exact (Stretch.leads_seek hd hs (List.Subset.trans hscan hS) hword ht).trans hstep

/-- A compiled delivery. -/
theorem deliver_reaches (hcursor : c.cursor = .ofCondition (.single v q))
    (h : deliver s (some x) c = .ok () c') (hS : c'.machine.table.rules ⊆ S.table.rules)
    (hs : s.direction = S.direction) (hword : ∀ x ∈ word, x ∈ s.interior ∧ x ∉ s.terminals)
    (ht : t ∈ s.terminals) :
    ∃ target, c'.cursor = .ofCondition (.single x target) ∧
      S.Reaches ⟨back, v :: (word ++ t :: front), q⟩
        ⟨word.reverse ++ v :: back, x :: front, target⟩ := by
  obtain ⟨target, hcursor', hleads⟩ := deliver_leads hcursor h
  exact ⟨target, hcursor', (hleads S hS hs word back front hword t ht).reaches⟩

end Reaches

variable {c c' : Compiler} {s : Scan} {w : Edit} {v q arrived u t : Symbol} {m : Machine}
  {word : List Symbol}

/-- The rules of a compiled scan are in the table of the machine that runs it. -/
theorem scan_rules_stretch (hcursor : c.cursor = .ofCondition (.single v q))
    (h : scan s w c = .ok arrived c') (htable : m.table = c'.machine.table) :
    s.rules w v q c.states.pop.1 arrived ⊆ (m.stretch s.direction).table.rules := by
  rw [Machine.stretch, htable]
  exact scan_rules_subset hcursor h

/-- A compiled scan takes a machine from the cursor over interior values to a terminal value. -/
theorem run_scan_of_terminal (hcursor : c.cursor = .ofCondition (.single v q))
    (h : scan s w c = .ok arrived c') (htable : m.table = c'.machine.table)
    (hm : m.halted = false) (hq : m.state = q)
    (hword : ∀ x ∈ word, x ∈ s.interior ∧ x ∉ s.terminals) (ht : t ∈ s.terminals)
    (htape : m.tape.Along s.direction m.head (v :: (word ++ [t]))) :
    ∃ m', m.run (word.length + 2) = (.continues, m') ∧ m'.state = arrived ∧
      m.Rewrites m' s.direction (word.length + 1)
        (s.first w v :: (word.map w.interior ++ [s.last w t])) ∧
      (m'.symbol, m'.state) ∈ c'.cursor.current.entries := by
  obtain ⟨hd, hnew, -⟩ := scan_ok hcursor h
  have hrules := scan_rules_stretch hcursor h htable
  obtain ⟨m', hrun, hm'⟩ := Stretch.leads_scan hd rfl hrules
    (fun x hx => Scan.mem_crossed.mpr (hword x hx)) (Scan.mem_stops.mpr ht) m
    (.of_along hm hq htape)
  refine ⟨m', hrun, hm'.state, ?_, ?_⟩
  · simpa using hm'.rewrites
  · rw [hnew, Cursor.ofCondition, Condition.mem_entries_meeting, hm'.symbol_eq]
    exact ⟨Scan.last_mem_landing ht, hm'.state⟩

/-- The only rules that a compiled scan finds on a value that is neither interior nor terminal. -/
theorem find?_scan_of_stranger (hc : c.KnowsTable) (hcursor : c.cursor = .ofCondition (.single v q))
    (h : scan s w c = .ok arrived c') (hu : u ∉ s.interior) (hu' : u ∉ s.terminals)
    (hne : ¬(u = v ∧ c.states.pop.1 = q)) :
    c'.machine.table.find? u c.states.pop.1 = none := by
  have hmem := (scan_ok hcursor h).2.2
  rw [Option.eq_none_iff_forall_ne_some]
  intro r hfind
  obtain ⟨hr, rfl, hstate⟩ := Table.find?_eq_some_iff.mp hfind
  rcases (hmem r).mp hr with hold | hnew
  · exact hc.pop_ne_state hold hstate
  · rcases Scan.key_of_mem_rules hnew with ⟨hv, hq⟩ | ⟨hv, -⟩ | ⟨hv, -⟩
    · exact hne ⟨hv, hstate.symm.trans hq⟩
    · exact hu (Scan.mem_crossed.mp hv).1
    · exact hu' (Scan.mem_stops.mp hv)

/-- On a value that is neither interior nor terminal a compiled scan fails, unless the value and the
state are those of the cursor: then it goes on as from its first cell. -/
theorem run_scan_of_stranger (hc : c.KnowsTable) (hcursor : c.cursor = .ofCondition (.single v q))
    (h : scan s w c = .ok arrived c') (htable : m.table = c'.machine.table)
    (hm : m.halted = false) (hq : m.state = q)
    (hword : ∀ x ∈ word, x ∈ s.interior ∧ x ∉ s.terminals) (hu : u ∉ s.interior)
    (hu' : u ∉ s.terminals) (htape : m.tape.Along s.direction m.head (v :: (word ++ [u]))) :
    ∃ m' m'', m.run (word.length + 1) = (.continues, m') ∧
      m.Rewrites m' s.direction (word.length + 1) (s.first w v :: (word.map w.interior ++ [u])) ∧
      if u = v ∧ c.states.pop.1 = q then m'.step = (.continues, m'')
      else
        m'.step = (.failed (.missingRule u c.states.pop.1 m.table.rules), m'') ∧
        m.Rewrites m'' s.direction (word.length + 1)
          (s.first w v :: (word.map w.interior ++ [u])) := by
  have hd := (scan_ok hcursor h).1
  have hrules := scan_rules_stretch hcursor h htable
  obtain ⟨m', hrun, hm'⟩ := Stretch.leads_scan_over hd rfl hrules
    (fun x hx => Scan.mem_crossed.mpr (hword x hx)) m (.of_along hm hq htape)
  have hrewrites : m.Rewrites m' s.direction (word.length + 1)
      (s.first w v :: (word.map w.interior ++ [u])) := by
    simpa using hm'.rewrites
  by_cases heq : u = v ∧ c.states.pop.1 = q
  · obtain ⟨rfl, rfl⟩ := heq
    obtain ⟨m'', hstep, -⟩ := hm'.step hd (hrules Scan.leave_mem_rules)
    rw [if_neg (Action.ne_halt_of_moves hd)] at hstep
    refine ⟨m', m'', hrun, hrewrites, ?_⟩
    rw [if_pos ⟨rfl, rfl⟩]
    exact hstep
  · have hnone : m'.table.find? m'.symbol m'.state = none := by
      rw [hm'.symbol_eq, hm'.state, hm'.table, Machine.stretch, htable]
      exact find?_scan_of_stranger hc hcursor h hu hu' heq
    have hfault : Error.missingRule m'.symbol m'.state m'.table.rules =
        .missingRule u c.states.pop.1 m.table.rules := by
      rw [hm'.symbol_eq, hm'.state, hm'.table]
      rfl
    have hstep := Machine.step_of_find?_eq_none hm'.running hnone
    rw [hfault] at hstep
    refine ⟨m', { m' with tape := m'.tape.reach m'.head }, hrun, hrewrites, ?_⟩
    rw [if_neg heq]
    exact ⟨hstep, hrewrites.reach m'.head⟩

end Build

namespace Compiler

/-- **A compiled scan does what it says.** From the cursor over interior values to a terminal value
it takes one step for each cell and one more, and ends in a situation that the new cursor describes.
At a value that is neither, it fails with the cells up to there rewritten; but if the state of the
cursor is the one that is made up next, it goes on wherever it meets the value of the cursor. -/
theorem scan_runs {c c' : Compiler} (hc : c.Reachable) {v q : Symbol}
    (hcursor : c.cursor = .ofCondition (.single v q)) {s : Scan} {w : Edit} {arrived : Symbol}
    (h : Build.scan s w c = .ok arrived c') {m : Machine} (htable : m.table = c'.machine.table)
    (hm : m.halted = false) (hq : m.state = q) {word : List Symbol}
    (hword : ∀ x ∈ word, x ∈ s.interior ∧ x ∉ s.terminals) :
    (∀ t ∈ s.terminals, m.tape.Along s.direction m.head (v :: (word ++ [t])) →
      ∃ m', m.run (word.length + 2) = (.continues, m') ∧ m'.state = arrived ∧
        m.Rewrites m' s.direction (word.length + 1)
          (s.first w v :: (word.map w.interior ++ [s.last w t])) ∧
        (m'.symbol, m'.state) ∈ c'.cursor.current.entries) ∧
    (∀ u, u ∉ s.interior → u ∉ s.terminals →
      m.tape.Along s.direction m.head (v :: (word ++ [u])) →
      ∃ m' m'', m.run (word.length + 1) = (.continues, m') ∧
        m.Rewrites m' s.direction (word.length + 1) (s.first w v :: (word.map w.interior ++ [u])) ∧
        if u = v ∧ c.states.pop.1 = q then m'.step = (.continues, m'')
        else
          m'.step = (.failed (.missingRule u c.states.pop.1 m.table.rules), m'') ∧
          m.Rewrites m'' s.direction (word.length + 1)
            (s.first w v :: (word.map w.interior ++ [u]))) := by
  constructor
  · intro t ht htape
    exact Build.run_scan_of_terminal hcursor h htable hm hq hword ht htape
  · intro u hu hu' htape
    exact Build.run_scan_of_stranger hc.knowsTable hcursor h htable hm hq hword hu hu' htape

/-- A compiler at the start of the tape `1 0 1 b`. -/
def atStart : Compiler := ofMachine (.start ⟨["1", "0", "1", "b"], 0, "_", "q1", []⟩ .empty)

/-- Goes right over `0` and `1` up to `b`. -/
def toB : Scan := { interior := ["0", "1"], terminals := ["b"], direction := .right }

/-- The value of the first cell is met again on the way. -/
theorem scan_runs_atStart :
    ∃ arrived c' m', Build.scan toB .keep atStart = .ok arrived c' ∧
      c'.machine.run 4 = (.continues, m') ∧ m'.state = arrived ∧
      c'.machine.Rewrites m' .right 3 ["1", "0", "1", "b"] := by
  have hready : atStart.Ready "1" "q1" := ready_ofMachine fun r hr => by cases hr
  obtain ⟨arrived, c', hscan, -⟩ := Build.exists_scan (s := toB) (w := .keep) hready rfl
  have hmachine := ((Build.atomic_scan toB .keep).ok hscan).machine
  have htape : c'.machine.tape.Along .right c'.machine.head ["1", "0", "1", "b"] := by
    rw [hmachine]
    simp only [Tape.along_cons]
    exact ⟨rfl, rfl, rfl, rfl, fun k x hx => by cases hx⟩
  have hreachable : atStart.Reachable :=
    .start (.start (p := ⟨["1", "0", "1", "b"], 0, "_", "q1", []⟩) rfl)
  have hword : ∀ x ∈ ["0", "1"], x ∈ toB.interior ∧ x ∉ toB.terminals := by decide
  obtain ⟨m', hrun, hstate, hrewrites, -⟩ :=
    (scan_runs hreachable rfl hscan rfl (by rw [hmachine]; rfl) (by rw [hmachine]; rfl) hword).1
      "b" (by decide) htape
  exact ⟨arrived, c', m', hscan, hrun, hstate, hrewrites⟩

/-- A compiler whose cursor names a state that no rule mentions and that has not been reserved: the
paths of a branch without paths have been joined in it. -/
def unreserved : Compiler :=
  (((ofMachine (.start ⟨["1", "1"], 0, "_", "q1", []⟩ .empty)).perform
    (.setCursor (.branch "1" []))).2.perform
      (.compile (.join { action := .stay, next := some (.named "q2") }))).2

/-- Goes right over `0` up to `b`. -/
def overZeros : Scan := { interior := ["0"], terminals := ["b"], direction := .right }

/-- A scan has succeeded if it answers a condition. -/
theorem exists_scan_eq_ok {c : Compiler} {s : Scan} {w : Edit} {condition : Condition}
    (h : (c.compile (.scan s w)).1 = .ok condition) :
    ∃ arrived c', Build.scan s w c = .ok arrived c' := by
  cases hscan : Build.scan s w c with
  | ok arrived c' => exact ⟨arrived, c', rfl⟩
  | error e c' =>
    have hbuild : (Instruction.scan s w).build c = .error e c' :=
      Build.bind_eq_error.mpr (.inl hscan)
    rw [compile, hbuild] at h
    cases h

/-- **A compiled scan may go on where it should fail.** The state of the cursor is made up a second
time, as the state in which the scan goes on; so from a cell with `1` the scan goes on over the next
one, although `1` is neither interior nor terminal. -/
theorem scan_goes_on_over_start :
    unreserved.Reachable ∧ unreserved.cursor = .ofCondition (.single "1" "q2") ∧
    "1" ∉ overZeros.interior ∧ "1" ∉ overZeros.terminals ∧
    ∃ (arrived : Symbol) (c' : Compiler) (m m' : Machine),
      Build.scan overZeros .keep unreserved = .ok arrived c' ∧
      m.table = c'.machine.table ∧ m.halted = false ∧ m.state = "q2" ∧
      m.tape.Along overZeros.direction m.head ["1", "1"] ∧ m.run 2 = (.continues, m') := by
  have hreachable : unreserved.Reachable :=
    .perform (.perform (.start (.start (p := ⟨["1", "1"], 0, "_", "q1", []⟩) rfl)) _) _
  have hcursor : unreserved.cursor = .ofCondition (.single "1" "q2") := rfl
  obtain ⟨arrived, c', hscan⟩ :
      ∃ arrived c', Build.scan overZeros .keep unreserved = .ok arrived c' :=
    exists_scan_eq_ok (show (unreserved.compile _).1 = .ok (.single "b" "q3") by decide +kernel)
  have hpop : unreserved.states.pop.1 = "q2" := by decide +kernel
  let m : Machine := { unreserved.machine with table := c'.machine.table, state := "q2" }
  have htape : m.tape.Along overZeros.direction m.head ["1", "1"] := by
    simp only [Tape.along_cons]
    exact ⟨rfl, rfl, fun k x hx => by cases hx⟩
  have hword : ∀ x ∈ ([] : List Symbol), x ∈ overZeros.interior ∧ x ∉ overZeros.terminals := by
    simp
  obtain ⟨m', m'', hrun, -, hstep⟩ := Build.run_scan_of_stranger (m := m) hreachable.knowsTable
    hcursor hscan rfl rfl rfl hword (by decide) (by decide) htape
  rw [if_pos ⟨rfl, hpop⟩] at hstep
  refine ⟨hreachable, hcursor, by decide, by decide, arrived, c', m, m'', hscan, rfl, rfl, rfl,
    htape, ?_⟩
  calc
    m.run 2 = m'.run 1 := Machine.run_add (k := 1) hrun
    _ = (.continues, m'') := Machine.run_succ hstep

end Compiler

end TapeCompiler
