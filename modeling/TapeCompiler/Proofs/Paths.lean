import TapeCompiler.Proofs.CursorSymbols
import TapeCompiler.Proofs.Locality
import TapeCompiler.Proofs.Scan

/-!
# Several paths

A scan from each of several situations gives each path a state of arrival of its own. All paths go
over the same values with one table, but each in states that are made up for it, so that the state
of arrival tells from where a run has come.

The cursor behind such scans is a branch: one value in the states of arrival. The value is the one
on which the scans stop. If their edit writes another value there, that is what a run has under the
head when it arrives, and the instructions that go on from the branch add no rule for it.
-/

namespace TapeCompiler

theorem Condition.mem_states_of_mem_entries {condition : Condition} {e : Symbol × Symbol}
    (h : e ∈ condition.entries) : e.2 ∈ condition.states := by
  cases condition with
  | single v s => exact List.mem_singleton.mpr (congrArg Prod.snd (List.mem_singleton.mp h))
  | branch v ss => exact (mem_entries_branch.mp h).2
  | pairs vs ss => exact (List.of_mem_zip h).2

namespace Compiler

variable {c c' : Compiler} {i : Instruction}

theorem compile_eq_ok {condition : Condition} :
    c.compile i = (.ok condition, c') ↔ i.build c = .ok () c' ∧ condition = c'.cursor.current := by
  rw [compile]
  cases i.build c with
  | ok a c₁ =>
    constructor
    · intro h
      cases h
      exact ⟨rfl, rfl⟩
    · rintro ⟨⟨⟩, rfl⟩
      rfl
  | error e c₁ => simp

/-! ## The states of several paths are reserved -/

/-- All states of the cursor are reserved, unless it is single. -/
def PathsReserved (c : Compiler) : Prop :=
  (∃ v s, c.cursor.current = .single v s) ∨
    ∀ s ∈ c.cursor.current.states, c.states.isReserved s = true

/-- Nothing is released as long as the cursor stays where it is. -/
theorem PathsReserved.extends (hc : c.PathsReserved) (h : c.Extends c')
    (hcursor : c'.cursor.current = c.cursor.current) : c'.PathsReserved := by
  rw [PathsReserved, hcursor]
  exact hc.imp_right fun hreserved s hs => h.states s (hreserved s hs)

/-- Only the joining of a branch leaves a state loose, and its cursor is single. -/
theorem PathsReserved.build (hc : c.PathsReserved) (h : i.build c = .ok () c')
    (hknows : c'.KnowsTable) : c'.PathsReserved := by
  have hold : c.Covers ⟨c.cursor.current.values, c.cursor.current.states⟩ :=
    ⟨fun _ => .inr, fun _ => .inr⟩
  have hcovers := i.covers h hknows hold
  cases i with
  | manual r =>
    refine hc.extends ((Build.atomic_manual r).ok h) ?_
    obtain ⟨⟨⟩, c₁, hs, he⟩ := Build.bind_eq_ok.mp (Build.atomic_eq_ok.mp h)
    cases hs
    obtain ⟨table, -, rfl⟩ := Build.emit_eq_ok.mp he
    rfl
  | join m =>
    obtain ⟨v, states, next, -, -, hcursor, -⟩ := Build.exists_rules_of_join h
    exact .inl ⟨_, next, hcursor⟩
  | _ => exact .inr fun s hs => (hcovers.states s hs).resolve_right List.not_mem_nil

theorem PathsReserved.perform (hc : c.PathsReserved) (hknows : c.KnowsTable) (command : Command) :
    (c.perform command).2.PathsReserved := by
  have hextends : ∀ {c' : Compiler}, c.Extends c' → c'.cursor.current = c.cursor.current →
      c'.PathsReserved := fun h => hc.extends h
  cases command with
  | compile i =>
    have hknows' := hknows.extends (c.extends_compile i)
    simp only [Compiler.perform, compile] at hknows' ⊢
    cases h : i.build c with
    | ok _ c' =>
      rw [h] at hknows'
      exact hc.build h hknows'
    | error e c' =>
      obtain rfl := i.atomic_build.error h
      exact hc
  | setCursor condition =>
    exact .inr fun s hs => NameSupply.isReserved_reserveAll.mpr (.inl hs)
  | reserve values states => exact hextends (c.extends_reserve values states) rfl
  | newState => exact hextends (Build.growing_newState.ok (a := c.states.pop.1) rfl) rfl
  | newValue => exact hextends (Build.growing_newValue.ok (a := c.values.pop.1) rfl) rfl
  | run limit => exact hc

theorem Reachable.pathsReserved (h : c.Reachable) : c.PathsReserved := by
  induction h with
  | start _ => exact .inl ⟨_, _, rfl⟩
  | perform h command ih => exact ih.perform h.knowsTable command

/-- The situations of several paths are in reserved states. -/
theorem Reachable.entries_reserved (h : c.Reachable) (hshape : c.cursor.current.shape ≠ .single) :
    ∀ e ∈ c.cursor.current.entries, c.states.isReserved e.2 = true := by
  intro e he
  rcases h.pathsReserved with ⟨v, s, hcursor⟩ | hreserved
  · exact absurd (by rw [hcursor]; rfl) hshape
  · exact hreserved e.2 (Condition.mem_states_of_mem_entries he)

end Compiler

/-! ## States of arrival -/

namespace Build

variable {c c' : Compiler} {s : Scan} {w : Edit}

/-- The state of arrival of a scan has been made up after the state in which the scan goes on. -/
theorem scan_arrived (hc : c.KnowsTable) {arrived : Symbol} (h : scan s w c = .ok arrived c') :
    c'.states.isReserved arrived = true ∧ arrived ≠ c.states.pop.1 := by
  rw [scan] at h
  obtain ⟨⟨⟩, c₁, hk, h⟩ := bind_eq_ok.mp (atomic_eq_ok.mp h)
  obtain ⟨-, rfl⟩ := ofExcept_eq_ok.mp hk
  obtain ⟨⟨v, q⟩, c₂, hs, h⟩ := bind_eq_ok.mp h
  obtain ⟨hcursor, rfl⟩ := cursor_of_single hs
  obtain ⟨going, c₃, hm, h⟩ := bind_eq_ok.mp h
  obtain ⟨rfl, -, hleave⟩ := move_ok hcursor rfl hm
  have hgoing := (hc.extends ((atomic_move _).ok hm) _ ((hleave _).mpr (.inr rfl))).next
  obtain ⟨⟨⟩, c₄, he, h⟩ := bind_eq_ok.mp h
  obtain ⟨arrived', c₅, hn, h⟩ := bind_eq_ok.mp h
  cases hn
  obtain ⟨⟨⟩, c₆, he', h⟩ := bind_eq_ok.mp h
  obtain ⟨⟨⟩, c₇, hset, h⟩ := bind_eq_ok.mp h
  cases h
  have hgrown := ((growing_emitAll _).ok he').trans ((growing_setCursor _).ok hset)
  constructor
  · exact hgrown.states _ (NameSupply.isReserved_snd_pop.mpr (.inl rfl))
  · exact (NameSupply.ne_pop_of_isReserved (((growing_emitAll _).ok he).states _ hgoing)).symm

/-- From a reserved state, a scan leaves its state of arrival without any rule. -/
theorem scan_spare (hc : c.KnowsTable) {v q arrived : Symbol}
    (hcursor : c.cursor = .ofCondition (.single v q)) (hq : c.states.isReserved q = true)
    (h : scan s w c = .ok arrived c') : c'.Spare arrived := by
  obtain ⟨hreserved, hgoing⟩ := scan_arrived hc h
  have hfree := (cursor_of_scan h).2
  have hne : ∀ {x}, c.states.isReserved x = true → x ≠ arrived := by
    rintro x hx rfl
    rw [hx] at hfree
    cases hfree
  refine ⟨hreserved, fun r hr => ?_⟩
  rcases ((scan_ok hcursor h).2.2 r).mp hr with hold | hnew
  · exact hne (hc r hold).state
  · rcases Scan.key_of_mem_rules hnew with ⟨-, hstate⟩ | ⟨-, hstate⟩ | ⟨-, hstate⟩
    · exact hstate ▸ hne hq
    · exact hstate ▸ hgoing.symm
    · exact hstate ▸ hgoing.symm

/-- The states of arrival of several scans differ, and if the scans start in reserved states, there
is no rule for them. -/
theorem scanEach_spare (hc : c.KnowsTable) {entries : List (Symbol × Symbol)}
    {arrived : List Symbol} (h : scanEach s w entries c = .ok arrived c') :
    arrived.Nodup ∧
      ((∀ e ∈ entries, c.states.isReserved e.2 = true) → ∀ a ∈ arrived, c'.Spare a) := by
  induction entries generalizing c arrived with
  | nil =>
    cases h
    exact ⟨List.nodup_nil, fun _ a ha => absurd ha List.not_mem_nil⟩
  | cons e entries ih =>
    obtain ⟨⟨⟩, c₁, hset, h⟩ := bind_eq_ok.mp h
    have hgrown := (growing_setCursor _).ok hset
    cases hset
    obtain ⟨a, c₂, hscan, h⟩ := bind_eq_ok.mp h
    obtain ⟨others, c₃, hrest, h⟩ := bind_eq_ok.mp h
    cases h
    have hknows₁ := hc.extends hgrown
    have hknows₂ := hknows₁.extends ((atomic_scan s w).ok hscan)
    obtain ⟨hnodup, hothers⟩ := ih hknows₂ hrest
    obtain ⟨hadds, hfree⟩ := scanEach_adds hrest
    refine ⟨List.nodup_cons.mpr ⟨fun ha => ?_, hnodup⟩, fun hentries b hb => ?_⟩
    · have hreserved := (scan_arrived hknows₁ hscan).1
      rw [hfree a ha] at hreserved
      cases hreserved
    · rcases List.mem_cons.mp hb with rfl | hb
      · -- The later scans start in states that were reserved when this one was made up.
        have hspare := scan_spare hknows₁ rfl
          (hgrown.states _ (hentries e List.mem_cons_self)) hscan
        refine hspare.adds hadds fun k hk hstate => ?_
        have hkept := hgrown.states _ (hentries k (List.mem_cons_of_mem e hk))
        rw [hstate, (cursor_of_scan hscan).2] at hkept
        cases hkept
      · refine hothers (fun k hk => ?_) b hb
        exact ((atomic_scan s w).ok hscan).states _
          (hgrown.states _ (hentries k (List.mem_cons_of_mem e hk)))

/-! ## Runs along a path -/

/-- With the rules of a scan in its table, a machine goes over a word to a stop. -/
theorem run_of_scan_rules {m : Machine} {v q going arrived t : Symbol} {word : List Symbol}
    (hd : s.direction.moves = true) (hrules : s.rules w v q going arrived ⊆ m.table.rules)
    (hm : m.halted = false) (hq : m.state = q)
    (hword : ∀ x ∈ word, x ∈ s.interior ∧ x ∉ s.terminals) (ht : t ∈ s.terminals)
    (htape : m.tape.Along s.direction m.head (v :: (word ++ [t]))) :
    ∃ m', m.run (word.length + 2) = (.continues, m') ∧ m'.state = arrived ∧
      m.Rewrites m' s.direction (word.length + 1)
        (s.first w v :: (word.map w.interior ++ [s.last w t])) ∧ m'.symbol = s.last w t := by
  obtain ⟨m', hrun, hm'⟩ := Stretch.leads_scan (S := m.stretch s.direction) hd rfl hrules
    (fun x hx => Scan.mem_crossed.mpr (hword x hx)) (Scan.mem_stops.mpr ht) m
    (.of_along hm hq htape)
  exact ⟨m', hrun, hm'.state, by simpa using hm'.rewrites, hm'.symbol_eq⟩

end Build

/-! ## Scans from each path of the cursor -/

namespace Instruction

/-- The scan and the edit of an instruction that scans from each path of the cursor. A scan from
pairs goes across the values of all pairs. -/
def scanFromEach? (c : Compiler) : Instruction → Option (Scan × Edit)
  | scanPairs s w => some ({ s with interior := s.interior ++ c.cursor.current.values }, w)
  | seekPairs s => some ({ s with interior := s.interior ++ c.cursor.current.values }, .keep)
  | seekEach s => some (s, .keep)
  | manual _ | move _ | moveAmong .. | join _ | moveEach _ | halt | scan .. | seek _ | paint ..
  | erase _ | deliver .. | carry .. | copyBlock _ | moveBlock _ => none

variable {c c' : Compiler} {i : Instruction} {s : Scan} {w : Edit}

theorem exists_scanEach_of_scanPairs (h : Build.scanPairs s w c = .ok () c') :
    ∃ t arrived c₁, s.stops = [t] ∧
      Build.scanEach { s with interior := s.interior ++ c.cursor.current.values } w
        c.cursor.current.entries c = .ok arrived c₁ ∧ c' = c₁.setCursor (.branch t arrived) := by
  rw [Build.scanPairs] at h
  obtain ⟨⟨values, states⟩, c₁, hp, h⟩ := Build.bind_eq_ok.mp (Build.atomic_eq_ok.mp h)
  obtain ⟨hcursor, rfl⟩ := Build.cursor_of_pairs hp
  obtain ⟨t, c₂, ho, h⟩ := Build.bind_eq_ok.mp h
  obtain ⟨hstop, rfl⟩ := Build.ofExcept_eq_ok.mp ho
  obtain ⟨arrived, c₃, he, h⟩ := Build.bind_eq_ok.mp h
  cases h
  refine ⟨t, arrived, c₃, Scan.onlyStop_eq_ok.mp hstop, ?_, rfl⟩
  rw [hcursor]
  exact he

/-- Such an instruction scans from all situations of the cursor, to the only value on which the scan
stops. -/
theorem exists_scanEach (hi : i.scanFromEach? c = some (s, w)) (h : i.build c = .ok () c') :
    ∃ t arrived c₁, s.stops = [t] ∧
      Build.scanEach s w c.cursor.current.entries c = .ok arrived c₁ ∧
        c' = c₁.setCursor (.branch t arrived) := by
  cases i with
  | scanPairs s' w' =>
    cases hi
    exact exists_scanEach_of_scanPairs h
  | seekPairs s' =>
    cases hi
    exact exists_scanEach_of_scanPairs h
  | seekEach s' =>
    cases hi
    rw [build, Build.seekEach] at h
    obtain ⟨⟨v, states⟩, c₁, hb, h⟩ := Build.bind_eq_ok.mp (Build.atomic_eq_ok.mp h)
    obtain ⟨hcursor, rfl⟩ := Build.cursor_of_branch hb
    obtain ⟨t, c₂, ho, h⟩ := Build.bind_eq_ok.mp h
    obtain ⟨hstop, rfl⟩ := Build.ofExcept_eq_ok.mp ho
    obtain ⟨arrived, c₃, he, h⟩ := Build.bind_eq_ok.mp h
    cases h
    refine ⟨t, arrived, c₃, Scan.onlyStop_eq_ok.mp hstop, ?_, rfl⟩
    rw [hcursor]
    exact he
  | _ => cases hi

end Instruction

namespace Compiler

/-- Scans with an edit have been compiled from all situations of the cursor of `c`, with states of
arrival that belong to one situation each. -/
structure Separates (c c' : Compiler) (s : Scan) (w : Edit) (arrived : List Symbol) : Prop where
  length : arrived.length = c.cursor.current.entries.length
  nodup : arrived.Nodup
  new : ∀ a ∈ arrived, ∀ r ∈ c.machine.table.rules, r.state ≠ a ∧ r.next ≠ a
  /-- From the situation of a path over interior values to a terminal value, each machine that has
  the rules arrives in the state of this path, with all cells on its way edited and no others. -/
  runs : ∀ (k : Nat) (v q a : Symbol), c.cursor.current.entries[k]? = some (v, q) →
    arrived[k]? = some a → ∀ m : Machine, c'.machine.table.rules ⊆ m.table.rules →
      m.halted = false → m.state = q → ∀ (word : List Symbol) (t : Symbol),
        (∀ x ∈ word, x ∈ s.interior ∧ x ∉ s.terminals) → t ∈ s.terminals →
        m.tape.Along s.direction m.head (v :: (word ++ [t])) →
          ∃ m', m.run (word.length + 2) = (.continues, m') ∧ m'.state = a ∧
            m.Rewrites m' s.direction (word.length + 1)
              (s.first w v :: (word.map w.interior ++ [s.last w t])) ∧ m'.symbol = s.last w t

variable {c c' : Compiler} {i : Instruction} {s : Scan} {w : Edit}

theorem separates_of_scanEach (hc : c.KnowsTable) {arrived : List Symbol}
    (h : Build.scanEach s w c.cursor.current.entries c = .ok arrived c') :
    c.Separates c' s w arrived := by
  obtain ⟨hlength, heach⟩ := Build.scanEach_ok h
  refine ⟨hlength, (Build.scanEach_spare hc h).1, fun a ha r hr => ?_, ?_⟩
  · have hfree := (Build.scanEach_adds h).2 a ha
    constructor
    · rintro rfl
      rw [(hc r hr).state] at hfree
      cases hfree
    · rintro rfl
      rw [(hc r hr).next] at hfree
      cases hfree
  · intro k v q a hentry ha m htable hm hq word t hword ht htape
    obtain ⟨hd, going, hrules⟩ := heach k v q a hentry ha
    exact Build.run_of_scan_rules hd (List.Subset.trans hrules htable) hm hq hword ht htape

/-- **Paths stay separate.** An instruction that scans from each path of the cursor leaves a branch
with one state of arrival for each path; these states differ, occur nowhere in the table before, and
a run from the situation of a path arrives in the state of this path. -/
theorem paths_stay_separate (hc : c.Reachable) (hi : i.scanFromEach? c = some (s, w))
    {condition : Condition} (h : c.compile i = (.ok condition, c')) :
    ∃ t arrived, s.stops = [t] ∧ condition = .branch t arrived ∧ c.Separates c' s w arrived := by
  obtain ⟨hbuild, rfl⟩ := compile_eq_ok.mp h
  obtain ⟨t, arrived, c₁, hstops, hscans, rfl⟩ := Instruction.exists_scanEach hi hbuild
  have hseparates := separates_of_scanEach hc.knowsTable hscans
  exact ⟨t, arrived, hstops, rfl, hseparates.length, hseparates.nodup, hseparates.new,
    hseparates.runs⟩

/-- A compiler with a cursor of two pairs that share their state, at the start of the tape
`0 1 b`. -/
def sharing : Compiler :=
  (ofMachine (.start ⟨["0", "1", "b"], 0, "_", "q1", []⟩ .empty)).setCursor
    (.pairs ["0", "1"] ["q1", "q1"])

/-- Goes right up to `b`, and edits that cell too. -/
def toEditedB : Scan := { interior := [], terminals := ["b"], direction := .right, editEnd := true }

/-- Tags the last cell. -/
def tagLast : Edit := ⟨id, id, (· ++ "x")⟩

theorem reachable_sharing : sharing.Reachable :=
  .perform (.start (.start (p := ⟨["0", "1", "b"], 0, "_", "q1", []⟩) rfl))
    (.setCursor (.pairs ["0", "1"] ["q1", "q1"]))

theorem exists_compile_sharing : ∃ c',
    sharing.compile (.scanPairs toEditedB tagLast) = (.ok (.branch "b" ["q3", "q5"]), c') ∧
      c'.machine.halted = false ∧ c'.machine.state = "q1" ∧
      c'.machine.tape.Along .right c'.machine.head ["0", "1", "b"] := by
  have hresult : (sharing.compile (.scanPairs toEditedB tagLast)).1 =
      .ok (.branch "b" ["q3", "q5"]) := by decide +kernel
  refine ⟨_, Prod.ext hresult rfl, ?_⟩
  rw [(sharing.extends_compile (.scanPairs toEditedB tagLast)).machine]
  simp only [Tape.along_cons]
  exact ⟨rfl, rfl, rfl, rfl, rfl, fun k x hx => by cases hx⟩

/-- The first path goes over the value of the second one, in a state of its own. -/
theorem paths_stay_separate_sharing :
    sharing.Reachable ∧ ∃ s c' m', (Instruction.scanPairs toEditedB tagLast).scanFromEach? sharing =
        some (s, tagLast) ∧
      sharing.compile (.scanPairs toEditedB tagLast) = (.ok (.branch "b" ["q3", "q5"]), c') ∧
      sharing.Separates c' s tagLast ["q3", "q5"] ∧
      c'.machine.run 3 = (.continues, m') ∧ m'.state = "q3" ∧
      c'.machine.Rewrites m' .right 2 ["0", "1", "bx"] := by
  obtain ⟨c', hc', hm, hq, htape⟩ := exists_compile_sharing
  obtain ⟨t, arrived, -, hcondition, hseparates⟩ := paths_stay_separate reachable_sharing rfl hc'
  cases hcondition
  obtain ⟨m', hrun, hstate, hrewrites, -⟩ := hseparates.runs 0 "0" "q1" "q3" rfl rfl c'.machine
    (List.Subset.refl _) hm hq ["1"] "b" (by decide) (by decide) htape
  exact ⟨reachable_sharing, _, c', m', rfl, hc', hseparates, hrun, hstate, hrewrites⟩

end Compiler

/-! ## Going on from a branch -/

namespace Build

variable {c c' : Compiler} {v : Symbol} {states : List Symbol}

/-- Rules for given situations, before and after which the table stays as it is. -/
theorem adds_of_emitAll {c₁ c₂ : Compiler} {rs : List Rule} {keys : List (Symbol × Symbol)}
    (hgrown : c.Extends c₁) (htable : c₁.machine.table = c.machine.table)
    (he : emitAll rs c₁ = .ok () c₂) (hkeys : ∀ r ∈ rs, r.key ∈ keys) (hgrown' : c₂.Extends c')
    (htable' : c'.machine.table = c₂.machine.table) : c.Adds c' keys := by
  have hadds : c.Adds c₂ keys := by
    refine (Compiler.Adds.of_rules_eq hgrown htable).trans (emitAll_adds he) fun k hk => .inl ?_
    obtain ⟨r, hr, rfl⟩ := List.mem_map.mp hk
    exact hkeys r hr
  refine ⟨hadds.grows.trans hgrown', ?_⟩
  rw [htable']
  exact hadds.new

theorem table_of_joinTarget {t : Target} {next : Symbol} (h : joinTarget t c = .ok next c') :
    c'.machine.table = c.machine.table := by
  cases t <;> cases h <;> rfl

theorem table_of_targets {t : Targets} {nexts : List Symbol} (h : targets states t c = .ok nexts c') :
    c'.machine.table = c.machine.table := by
  cases t with
  | same => cases h; rfl
  | fresh => cases h; rfl
  | named ss => rw [(ofExcept_eq_ok.mp h).2]

/-- Joining the paths of a branch adds rules for their situations only. -/
theorem join_adds (hcursor : c.cursor = .ofCondition (.branch v states)) {m : Move}
    (h : join m c = .ok () c') : c.Adds c' (Condition.branch v states).entries := by
  rw [join] at h
  obtain ⟨p, c₁, hb, h⟩ := bind_eq_ok.mp (atomic_eq_ok.mp h)
  obtain ⟨rfl, rfl⟩ := branch_ok hcursor hb
  obtain ⟨next, c₂, ht, h⟩ := bind_eq_ok.mp h
  obtain ⟨⟨⟩, c₃, he, h⟩ := bind_eq_ok.mp h
  have haim := (growing_aim _).ok h
  cases h
  refine adds_of_emitAll ((growing_joinTarget _).ok ht) (table_of_joinTarget ht) he (fun r hr => ?_)
    haim rfl
  obtain ⟨q, hq, rfl⟩ := List.mem_map.mp hr
  exact Condition.mem_entries_branch.mpr ⟨rfl, hq⟩

/-- So do the moves of a branch. -/
theorem moveEach_adds (hcursor : c.cursor = .ofCondition (.branch v states)) {m : BranchMove}
    (h : moveEach m c = .ok () c') : c.Adds c' (Condition.branch v states).entries := by
  rw [moveEach] at h
  obtain ⟨p, c₁, hb, h⟩ := bind_eq_ok.mp (atomic_eq_ok.mp h)
  obtain ⟨rfl, rfl⟩ := branch_ok hcursor hb
  obtain ⟨writes, c₂, hw, h⟩ := bind_eq_ok.mp h
  obtain ⟨-, rfl⟩ := ofExcept_eq_ok.mp hw
  obtain ⟨expected, c₃, hx, h⟩ := bind_eq_ok.mp h
  obtain ⟨-, rfl⟩ := ofExcept_eq_ok.mp hx
  obtain ⟨nexts, c₄, hn, h⟩ := bind_eq_ok.mp h
  obtain ⟨⟨⟩, c₅, he, h⟩ := bind_eq_ok.mp h
  have haim := (growing_aim _).ok h
  cases h
  refine adds_of_emitAll ((growing_targets _ _).ok hn) (table_of_targets hn) he (fun r hr => ?_)
    haim rfl
  obtain ⟨e, hmem, rfl⟩ := List.mem_map.mp hr
  exact Condition.mem_entries_branch.mpr ⟨rfl, (List.of_mem_zip hmem).1⟩

end Build

namespace Instruction

/-- Whether an instruction goes on from a branch. -/
def fromBranch : Instruction → Bool
  | join _ | moveEach _ | seekEach _ => true
  | manual _ | move _ | moveAmong .. | halt | scan .. | seek _ | paint .. | erase _ | deliver ..
  | carry .. | scanPairs .. | seekPairs _ | copyBlock _ | moveBlock _ => false

variable {c c' : Compiler} {i : Instruction} {v : Symbol} {states : List Symbol}

/-- An instruction that goes on from a branch adds rules for the situations of its paths, and else
only for states that were not reserved. -/
theorem adds_of_fromBranch (hi : i.fromBranch = true)
    (hcursor : c.cursor = .ofCondition (.branch v states)) (h : i.build c = .ok () c') :
    c.Adds c' (Condition.branch v states).entries := by
  cases i with
  | join m => exact Build.join_adds hcursor h
  | moveEach m => exact Build.moveEach_adds hcursor h
  | seekEach s =>
    have hadds := ((Build.local_seekEach s).advances h).adds
    rwa [hcursor] at hadds
  | _ => cases hi

/-- It adds a rule for each path. -/
theorem exists_rule_of_fromBranch (hi : i.fromBranch = true)
    (hcursor : c.cursor = .ofCondition (.branch v states)) (h : i.build c = .ok () c') {q : Symbol}
    (hq : q ∈ states) : ∃ r ∈ c'.machine.table.rules, r.value = v ∧ r.state = q := by
  cases i with
  | join m =>
    obtain ⟨next, -, hrules⟩ := Build.join_ok hcursor h
    exact ⟨_, hrules q hq, rfl, rfl⟩
  | moveEach m =>
    obtain ⟨writes, expected, nexts, hwrites, -, hlength, -, hrules⟩ := Build.moveEach_ok hcursor h
    have hlength' := Build.length_of_expand hwrites
    obtain ⟨k, hk⟩ := List.mem_iff_getElem?.mp hq
    have hlt := (List.getElem?_eq_some_iff.mp hk).1
    exact ⟨_, hrules k q _ _ hk (List.getElem?_eq_getElem (by omega))
      (List.getElem?_eq_getElem (by omega)), rfl, rfl⟩
  | seekEach s =>
    obtain ⟨t, arrived, c₁, -, hscans, rfl⟩ := exists_scanEach (s := s) (w := .keep) rfl h
    rw [hcursor] at hscans
    obtain ⟨hlength, heach⟩ := Build.scanEach_ok hscans
    have hentry : (v, q) ∈ (Condition.branch v states).entries :=
      Condition.mem_entries_branch.mpr ⟨rfl, hq⟩
    obtain ⟨k, hk⟩ := List.mem_iff_getElem?.mp hentry
    have hlt := (List.getElem?_eq_some_iff.mp hk).1
    obtain ⟨-, going, hrules⟩ := heach k v q _ hk (List.getElem?_eq_getElem (hlength ▸ hlt))
    exact ⟨_, hrules Scan.leave_mem_rules, rfl, rfl⟩
  | _ => cases hi

/-- Where nothing was said about a state of a branch, the instruction says something about it for
the value of the branch only. -/
theorem find?_of_fromBranch (hi : i.fromBranch = true)
    (hcursor : c.cursor = .ofCondition (.branch v states)) (h : i.build c = .ok () c')
    {q x : Symbol} (hq : q ∈ states) (hspare : c.Spare q) :
    (∃ r, c'.machine.table.find? x q = some r) ↔ x = v := by
  constructor
  · rintro ⟨r, hr⟩
    obtain ⟨hmem, rfl, hstate⟩ := Table.find?_eq_some_iff.mp hr
    rcases (adds_of_fromBranch hi hcursor h).new r hmem with hold | hkey | hfree
    · exact absurd hstate (hspare.unused r hold)
    · exact (Condition.mem_entries_branch.mp hkey).1
    · rw [hstate, hspare.reserved] at hfree
      cases hfree
  · rintro rfl
    obtain ⟨r, hr, hvalue, hstate⟩ := exists_rule_of_fromBranch hi hcursor h hq
    exact ⟨r, Table.find?_eq_some_iff.mpr ⟨hr, hvalue, hstate⟩⟩

end Instruction

namespace Compiler

variable {c c' : Compiler}

/-- **The branch behind scans from pairs names the value on which they stop.** A run along a path
arrives in its state, on the cell on which it stops. The value there is what the edit writes into
that cell. The branch describes this situation, and an instruction that goes on from the branch has
a rule for it, exactly if that is the value on which the scans stop. -/
theorem pairs_arrive_on_last_value (hc : c.Reachable) {values states : List Symbol}
    (hcursor : c.cursor = .ofCondition (.pairs values states)) {s : Scan} {w : Edit}
    {condition : Condition} (h : c.compile (.scanPairs s w) = (.ok condition, c')) :
    ∃ t arrived, s.stops = [t] ∧ condition = .branch t arrived ∧
      arrived.length = (values.zip states).length ∧
      ∀ (k : Nat) (v q a : Symbol), values[k]? = some v → states[k]? = some q →
        arrived[k]? = some a → ∀ m : Machine, c'.machine.table.rules ⊆ m.table.rules →
          m.halted = false → m.state = q → ∀ word : List Symbol,
            (∀ x ∈ word, (x ∈ s.interior ∨ x ∈ values) ∧ x ≠ t) →
            m.tape.Along s.direction m.head (v :: (word ++ [t])) →
              ∃ m', m.run (word.length + 2) = (.continues, m') ∧ m'.state = a ∧
                m'.head = m.head + ((word.length + 1 : Nat) : Int) * s.direction.offset ∧
                m'.symbol = s.last w t ∧
                ((m'.symbol, m'.state) ∈ condition.entries ↔ s.last w t = t) ∧
                ∀ (i : Instruction) (condition' : Condition) (c'' : Compiler),
                  i.fromBranch = true → c'.compile i = (.ok condition', c'') →
                    m.table = c''.machine.table →
                      ((∃ r, m'.table.find? m'.symbol m'.state = some r) ↔ s.last w t = t) := by
  obtain ⟨hbuild, rfl⟩ := compile_eq_ok.mp h
  obtain ⟨t, arrived, c₁, hstops, hscans, rfl⟩ := Instruction.exists_scanEach_of_scanPairs hbuild
  have hentries : c.cursor.current.entries = values.zip states := by rw [hcursor]; rfl
  have hreserved := hc.entries_reserved (by rw [hcursor]; exact nofun)
  have hspare := (Build.scanEach_spare hc.knowsTable hscans).2 hreserved
  have hseparates := separates_of_scanEach hc.knowsTable hscans
  have hterminal : ∀ x, x ∈ s.terminals ↔ x = t := fun x => by
    rw [← Scan.mem_stops, hstops, List.mem_singleton]
  refine ⟨t, arrived, hstops, rfl, hentries ▸ hseparates.length, ?_⟩
  intro k v q a hv hq ha m htable hm hstate word hword htape
  have hentry : c.cursor.current.entries[k]? = some (v, q) := by
    rw [hentries]
    exact List.getElem?_zip_eq_some.mpr ⟨hv, hq⟩
  have hmem : a ∈ arrived := List.mem_of_getElem? ha
  have hcrossed : ∀ x ∈ word, x ∈ s.interior ++ c.cursor.current.values ∧ x ∉ s.terminals := by
    intro x hx
    obtain ⟨hinterior, hne⟩ := hword x hx
    rw [hcursor]
    exact ⟨List.mem_append.mpr hinterior, fun hstop => hne ((hterminal x).mp hstop)⟩
  obtain ⟨m', hrun, hstate', hrewrites, hsymbol⟩ := hseparates.runs k v q a hentry ha m htable hm
    hstate word t hcrossed ((hterminal t).mpr rfl) htape
  have hsymbol : m'.symbol = s.last w t := hsymbol
  refine ⟨m', hrun, hstate', hrewrites.head, hsymbol, ?_, ?_⟩
  · rw [hsymbol, hstate']
    simp [setCursor, aim, Cursor.ofCondition, hmem]
  · intro i condition' c'' hi hcompile htable'
    have htable'' : m'.table = c''.machine.table := by
      have hkept := m.table_run (word.length + 2)
      rw [hrun] at hkept
      exact hkept.trans htable'
    rw [htable'', hsymbol, hstate']
    exact Instruction.find?_of_fromBranch hi rfl (compile_eq_ok.mp hcompile).1 hmem
      ⟨(c₁.extends_setCursor _).states _ (hspare a hmem).reserved, (hspare a hmem).unused⟩

/-- The run of the first path arrives on a tagged value, which the branch does not name. -/
theorem pairs_arrive_on_last_value_sharing :
    sharing.Reachable ∧ ∃ c' m',
      sharing.compile (.scanPairs toEditedB tagLast) = (.ok (.branch "b" ["q3", "q5"]), c') ∧
      c'.machine.run 3 = (.continues, m') ∧ m'.state = "q3" ∧ m'.symbol = "bx" ∧
      (m'.symbol, m'.state) ∉ (Condition.branch "b" ["q3", "q5"]).entries := by
  obtain ⟨c', hc', hm, hq, htape⟩ := exists_compile_sharing
  obtain ⟨t, arrived, -, hcondition, -, hruns⟩ :=
    pairs_arrive_on_last_value reachable_sharing rfl hc'
  cases hcondition
  obtain ⟨m', hrun, hstate, -, hsymbol, hentries, -⟩ := hruns 0 "0" "q1" "q3" rfl rfl rfl c'.machine
    (List.Subset.refl _) hm hq ["1"] (by decide) htape
  exact ⟨reachable_sharing, c', m', hc', hrun, hstate, hsymbol, fun h => absurd (hentries.mp h)
    (by decide)⟩

/-- **A branch may name a value that is not under the head.** Its paths are joined without an error,
but a run along one of them finds no rule where it arrives. -/
theorem join_misses_edited_stop :
    sharing.Reachable ∧ ∃ c', c' = sharing.after
        [.compile (.scanPairs toEditedB tagLast), .compile (.join { action := .stay })] ∧
      c'.cursor = .ofCondition (.single "b" "q6") ∧
      (c'.machine.run 3).2.symbol = "bx" ∧ (c'.machine.run 3).2.state = "q3" ∧
      (c'.machine.run 4).1 = .failed (.missingRule "bx" "q3" c'.machine.table.rules) := by
  refine ⟨reachable_sharing, _, rfl, ?_⟩
  decide +kernel

end Compiler

end TapeCompiler
