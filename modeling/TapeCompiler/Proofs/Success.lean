import TapeCompiler.Proofs.Growth

/-!
# What a successful operation has done

One lemma for each operation: if it succeeds from a cursor of the form it needs, the rules it stands
for are in the table (for a move and a scan, these and no others have been added), and the cursor is
where it should be. No lemma says that a state is fresh: that a rule is in the table is what
matters, since a table never contradicts itself.
-/

namespace TapeCompiler

namespace Cursor

variable {c : Cursor} {operation : String}

theorem get_eq_ok {condition : Condition} : c.get = .ok condition ↔ c = .ofCondition condition := by
  obtain ⟨current, fresh⟩ := c
  cases fresh <;> simp [get, ofCondition]

theorem single_eq_ok {v q : Symbol} :
    c.single operation = .ok (v, q) ↔ c = .ofCondition (.single v q) := by
  rw [← get_eq_ok, single]
  cases c.get with
  | error e => exact ⟨nofun, nofun⟩
  | ok condition =>
    cases condition with
    | single v' q' => exact ⟨fun h => by cases h; rfl, fun h => by cases h; rfl⟩
    | branch v' states => exact ⟨nofun, nofun⟩
    | pairs values states => exact ⟨nofun, nofun⟩

theorem branch_eq_ok {v : Symbol} {states : List Symbol} :
    c.branch operation = .ok (v, states) ↔ c = .ofCondition (.branch v states) := by
  rw [← get_eq_ok, branch]
  cases c.get with
  | error e => exact ⟨nofun, nofun⟩
  | ok condition =>
    cases condition with
    | single v' q' => exact ⟨nofun, nofun⟩
    | branch v' states' => exact ⟨fun h => by cases h; rfl, fun h => by cases h; rfl⟩
    | pairs values states' => exact ⟨nofun, nofun⟩

theorem pairs_eq_ok {values states : List Symbol} :
    c.pairs operation = .ok (values, states) ↔ c = .ofCondition (.pairs values states) := by
  rw [← get_eq_ok, pairs]
  cases c.get with
  | error e => exact ⟨nofun, nofun⟩
  | ok condition =>
    cases condition with
    | single v' q' => exact ⟨nofun, nofun⟩
    | branch v' states' => exact ⟨nofun, nofun⟩
    | pairs values' states' => exact ⟨fun h => by cases h; rfl, fun h => by cases h; rfl⟩

end Cursor

namespace Build

variable {α : Type} {c c' : Compiler} {operation : String}

theorem ofExcept_eq_ok {result : Except Error α} {a : α} :
    ofExcept result c = .ok a c' ↔ result = .ok a ∧ c = c' := by
  cases result with
  | ok b =>
    constructor
    · intro h
      cases h
      exact ⟨rfl, rfl⟩
    · rintro ⟨h, rfl⟩
      cases h
      rfl
  | error e =>
    constructor
    · intro h
      cases h
    · rintro ⟨h, -⟩
      cases h

theorem single_ok {v s : Symbol} (hcursor : c.cursor = .ofCondition (.single v s))
    {p : Symbol × Symbol} (h : single operation c = .ok p c') : p = (v, s) ∧ c = c' := by
  obtain ⟨hp, hc⟩ := ofExcept_eq_ok.mp h
  rw [hcursor] at hp
  cases hp
  exact ⟨rfl, hc⟩

theorem branch_ok {v : Symbol} {ss : List Symbol}
    (hcursor : c.cursor = .ofCondition (.branch v ss)) {p : Symbol × List Symbol}
    (h : branch operation c = .ok p c') : p = (v, ss) ∧ c = c' := by
  obtain ⟨hp, hc⟩ := ofExcept_eq_ok.mp h
  rw [hcursor] at hp
  cases hp
  exact ⟨rfl, hc⟩

theorem pairs_ok {vs ss : List Symbol} (hcursor : c.cursor = .ofCondition (.pairs vs ss))
    {p : List Symbol × List Symbol} (h : pairs operation c = .ok p c') : p = (vs, ss) ∧ c = c' := by
  obtain ⟨hp, hc⟩ := ofExcept_eq_ok.mp h
  rw [hcursor] at hp
  cases hp
  exact ⟨rfl, hc⟩

theorem cursor_of_single {v q : Symbol} (h : single operation c = .ok (v, q) c') :
    c.cursor = .ofCondition (.single v q) ∧ c = c' := by
  obtain ⟨hcursor, rfl⟩ := ofExcept_eq_ok.mp h
  exact ⟨Cursor.single_eq_ok.mp hcursor, rfl⟩

theorem cursor_of_branch {v : Symbol} {states : List Symbol}
    (h : branch operation c = .ok (v, states) c') :
    c.cursor = .ofCondition (.branch v states) ∧ c = c' := by
  obtain ⟨hcursor, rfl⟩ := ofExcept_eq_ok.mp h
  exact ⟨Cursor.branch_eq_ok.mp hcursor, rfl⟩

theorem cursor_of_pairs {values states : List Symbol}
    (h : pairs operation c = .ok (values, states) c') :
    c.cursor = .ofCondition (.pairs values states) ∧ c = c' := by
  obtain ⟨hcursor, rfl⟩ := ofExcept_eq_ok.mp h
  exact ⟨Cursor.pairs_eq_ok.mp hcursor, rfl⟩

/-- Adding rules puts them into the table. -/
theorem emitAll_ok {rs : List Rule} (h : emitAll rs c = .ok () c') :
    ∀ r, r ∈ c'.machine.table.rules ↔ r ∈ c.machine.table.rules ∨ r ∈ rs := by
  induction rs generalizing c with
  | nil =>
    cases h
    simp
  | cons r rs ih =>
    obtain ⟨⟨⟩, c₁, hr, hrs⟩ := bind_eq_ok.mp h
    obtain ⟨table, ht, rfl⟩ := emit_eq_ok.mp hr
    intro r'
    rw [ih hrs, Table.mem_of_insert ht, List.mem_cons, or_assoc]

theorem emit_ok {r : Rule} (h : emit r c = .ok () c') :
    ∀ r', r' ∈ c'.machine.table.rules ↔ r' ∈ c.machine.table.rules ∨ r' = r := by
  obtain ⟨table, ht, rfl⟩ := emit_eq_ok.mp h
  exact fun r' => Table.mem_of_insert ht

/-! ## Moves -/

section Moves

variable {v s : Symbol} {states : List Symbol}

/-- A move to a fresh state adds one rule. -/
theorem move_ok (hcursor : c.cursor = .ofCondition (.single v s)) {m : Move} {next : Symbol}
    (hfresh : m.next = some .fresh) (h : move m c = .ok next c') :
    next = c.states.pop.1 ∧
      c'.cursor = .ofCondition (.single (m.expect.getD (m.write.getD v)) next) ∧
      ∀ r, r ∈ c'.machine.table.rules ↔
        r ∈ c.machine.table.rules ∨ r = ⟨v, s, m.write.getD v, next, m.action⟩ := by
  rw [move] at h
  obtain ⟨p, c₁, hs, h⟩ := bind_eq_ok.mp (atomic_eq_ok.mp h)
  obtain ⟨rfl, rfl⟩ := single_ok hcursor hs
  obtain ⟨next', c₂, ht, h⟩ := bind_eq_ok.mp h
  rw [hfresh] at ht
  cases ht
  obtain ⟨⟨⟩, c₃, he, h⟩ := bind_eq_ok.mp h
  obtain ⟨⟨⟩, c₄, ha, h⟩ := bind_eq_ok.mp h
  cases ha
  cases h
  have hmem := emit_ok he
  exact ⟨rfl, rfl, hmem⟩

/-- Joining the paths of a branch takes each of them to one state. -/
theorem join_ok (hcursor : c.cursor = .ofCondition (.branch v states)) {m : Move}
    (h : join m c = .ok () c') :
    ∃ next, c'.cursor = .ofCondition (.single (m.expect.getD (m.write.getD v)) next) ∧
      ∀ s ∈ states, ⟨v, s, m.write.getD v, next, m.action⟩ ∈ c'.machine.table.rules := by
  rw [join] at h
  obtain ⟨p, c₁, hb, h⟩ := bind_eq_ok.mp (atomic_eq_ok.mp h)
  obtain ⟨rfl, rfl⟩ := branch_ok hcursor hb
  obtain ⟨next, c₂, -, h⟩ := bind_eq_ok.mp h
  obtain ⟨⟨⟩, c₃, he, h⟩ := bind_eq_ok.mp h
  cases h
  refine ⟨next, rfl, fun s hs => ?_⟩
  exact (emitAll_ok he _).mpr (.inr (List.mem_map.mpr ⟨s, hs, rfl⟩))

/-- Symbols given one by one are as many as there are paths. -/
theorem expand_each_ok {n : Nat} {part : BranchPart} {ss xs : List Symbol}
    (h : (Spread.each ss).expand n part = .ok xs) : ss = xs ∧ ss.length = n := by
  by_cases hn : ss.length = n
  · rw [Spread.expand, if_pos hn] at h
    cases h
    exact ⟨rfl, hn⟩
  · rw [Spread.expand, if_neg hn] at h
    cases h

/-- There is one target for each path. -/
theorem targets_ok {t : Targets} {nexts : List Symbol} (h : targets states t c = .ok nexts c') :
    nexts.length = states.length := by
  cases t with
  | same =>
    cases h
    rfl
  | fresh =>
    cases h
    exact NameSupply.length_take _
  | named ss =>
    obtain ⟨rfl, hlength⟩ := expand_each_ok (ofExcept_eq_ok.mp h).1
    exact hlength

/-- Paths that all expect the same value make a branch. -/
theorem ofPaths_replicate {n : Nat} (hn : n ≠ 0) (v : Symbol) (states : List Symbol) :
    Condition.ofPaths (List.replicate n v) states = .branch v states := by
  cases n with
  | zero => exact absurd rfl hn
  | succ n => simp [List.replicate_succ, Condition.ofPaths]

/-- The moves of a branch are one rule for each path. -/
theorem moveEach_ok (hcursor : c.cursor = .ofCondition (.branch v states)) {m : BranchMove}
    (h : moveEach m c = .ok () c') :
    ∃ writes expected nexts, (m.write.getD (.same v)).expand states.length .writes = .ok writes ∧
      (m.expect.getD (.each writes)).expand states.length .expected = .ok expected ∧
      nexts.length = states.length ∧ c'.cursor = .ofCondition (.ofPaths expected nexts) ∧
      ∀ (i : Nat) (s w next : Symbol), states[i]? = some s → writes[i]? = some w →
        nexts[i]? = some next → ⟨v, s, w, next, m.action⟩ ∈ c'.machine.table.rules := by
  rw [moveEach] at h
  obtain ⟨p, c₁, hb, h⟩ := bind_eq_ok.mp (atomic_eq_ok.mp h)
  obtain ⟨rfl, rfl⟩ := branch_ok hcursor hb
  obtain ⟨writes, c₂, hw, h⟩ := bind_eq_ok.mp h
  obtain ⟨hwrites, rfl⟩ := ofExcept_eq_ok.mp hw
  obtain ⟨expected, c₃, hx, h⟩ := bind_eq_ok.mp h
  obtain ⟨hexpected, rfl⟩ := ofExcept_eq_ok.mp hx
  obtain ⟨nexts, c₄, hn, h⟩ := bind_eq_ok.mp h
  obtain ⟨⟨⟩, c₅, he, h⟩ := bind_eq_ok.mp h
  cases h
  refine ⟨writes, expected, nexts, hwrites, hexpected, targets_ok hn, rfl, ?_⟩
  intro i s w next hs hw hnext
  have hzip : (s, w, next) ∈ states.zip (writes.zip nexts) := by
    apply List.mem_of_getElem? (i := i)
    rw [List.getElem?_zip_eq_some]
    exact ⟨hs, List.getElem?_zip_eq_some.mpr ⟨hw, hnext⟩⟩
  exact (emitAll_ok he _).mpr (.inr (List.mem_map.mpr ⟨_, hzip, rfl⟩))

theorem halt_ok (hcursor : c.cursor = .ofCondition (.single v s)) (h : halt c = .ok () c') :
    ⟨v, s, v, s, .halt⟩ ∈ c'.machine.table.rules := by
  rw [halt] at h
  obtain ⟨p, c₁, hs, h⟩ := bind_eq_ok.mp (atomic_eq_ok.mp h)
  obtain ⟨rfl, rfl⟩ := single_ok hcursor hs
  exact (emit_ok h _).mpr (.inr rfl)

end Moves

end Build

/-! ## Scans -/

@[simp] theorem Edit.interior_keep : Edit.keep.interior = id := rfl

namespace Scan

variable {s : Scan} {w : Edit} {v q going arrived x : Symbol}

@[simp] theorem first_keep : s.first .keep x = x := by
  rw [first]
  split <;> rfl

@[simp] theorem last_keep : s.last .keep x = x := by
  rw [last]
  split <;> rfl

theorem check_eq_ok : s.check = .ok () ↔ s.direction.moves = true ∧ s.terminals ≠ [] := by
  rw [check]
  cases s.direction.moves <;> simp

theorem mem_stops : x ∈ s.stops ↔ x ∈ s.terminals := List.mem_eraseDups

theorem mem_crossed : x ∈ s.crossed ↔ x ∈ s.interior ∧ x ∉ s.terminals := by
  rw [crossed, List.mem_filter, List.mem_eraseDups, Bool.not_eq_true', ← Bool.not_eq_true,
    List.contains_iff_mem, mem_stops]

theorem onlyStop_eq_ok {operation : String} {t : Symbol} :
    s.onlyStop operation = .ok t ↔ s.stops = [t] := by
  rw [onlyStop]
  split
  · rename_i v hv
    simp [hv]
  · rename_i hne
    exact ⟨nofun, fun h => absurd h (hne t)⟩

/-- The rules of a scan from `v` in state `q`: one to leave the first cell, one for each value over
which it goes on, and one for each on which it stops. -/
def rules (s : Scan) (w : Edit) (v q going arrived : Symbol) : List Rule :=
  ⟨v, q, s.first w v, going, s.direction⟩ ::
    ((s.crossed.map fun u => ⟨u, going, w.interior u, going, s.direction⟩) ++
      s.stops.map fun u => ⟨u, going, s.last w u, arrived, .stay⟩)

theorem leave_mem_rules : ⟨v, q, s.first w v, going, s.direction⟩ ∈ s.rules w v q going arrived :=
  List.mem_cons_self

theorem over_mem_rules (h : x ∈ s.crossed) :
    ⟨x, going, w.interior x, going, s.direction⟩ ∈ s.rules w v q going arrived :=
  List.mem_cons_of_mem _ (List.mem_append_left _ (List.mem_map_of_mem h))

theorem stop_mem_rules (h : x ∈ s.stops) :
    ⟨x, going, s.last w x, arrived, .stay⟩ ∈ s.rules w v q going arrived :=
  List.mem_cons_of_mem _ (List.mem_append_right _ (List.mem_map_of_mem h))

/-- The situations in which a rule of a scan applies. -/
theorem key_of_mem_rules {r : Rule} (h : r ∈ s.rules w v q going arrived) :
    (r.value = v ∧ r.state = q) ∨
      (r.value ∈ s.crossed ∧ r.state = going) ∨ (r.value ∈ s.stops ∧ r.state = going) := by
  rw [rules, List.mem_cons, List.mem_append, List.mem_map, List.mem_map] at h
  rcases h with rfl | ⟨x, hx, rfl⟩ | ⟨x, hx, rfl⟩
  · exact .inl ⟨rfl, rfl⟩
  · exact .inr (.inl ⟨hx, rfl⟩)
  · exact .inr (.inr ⟨hx, rfl⟩)

/-- The values under the head after a scan. -/
theorem last_mem_landing (h : x ∈ s.terminals) : s.last w x ∈ (s.stops.map (s.last w)).eraseDups :=
  List.mem_eraseDups.mpr (List.mem_map_of_mem (mem_stops.mpr h))

end Scan

namespace Build

variable {c c' : Compiler} {s : Scan} {w : Edit} {v q arrived : Symbol}

/-- A scan adds its rules and no others. The state in which it goes on is the first that is made
up. -/
theorem scan_ok (hcursor : c.cursor = .ofCondition (.single v q))
    (h : scan s w c = .ok arrived c') :
    s.direction.moves = true ∧
      c'.cursor = .ofCondition (.meeting (s.stops.map (s.last w)).eraseDups arrived) ∧
      ∀ r, r ∈ c'.machine.table.rules ↔
        r ∈ c.machine.table.rules ∨ r ∈ s.rules w v q c.states.pop.1 arrived := by
  rw [scan] at h
  obtain ⟨⟨⟩, c₁, hk, h⟩ := bind_eq_ok.mp (atomic_eq_ok.mp h)
  obtain ⟨hcheck, rfl⟩ := ofExcept_eq_ok.mp hk
  obtain ⟨p, c₂, hs, h⟩ := bind_eq_ok.mp h
  obtain ⟨rfl, rfl⟩ := single_ok hcursor hs
  obtain ⟨going, c₃, hm, h⟩ := bind_eq_ok.mp h
  obtain ⟨rfl, -, hleave⟩ := move_ok hcursor rfl hm
  obtain ⟨⟨⟩, c₄, he, h⟩ := bind_eq_ok.mp h
  obtain ⟨arrived', c₅, hn, h⟩ := bind_eq_ok.mp h
  cases hn
  obtain ⟨⟨⟩, c₆, he', h⟩ := bind_eq_ok.mp h
  obtain ⟨⟨⟩, c₇, hset, h⟩ := bind_eq_ok.mp h
  cases hset
  cases h
  refine ⟨(Scan.check_eq_ok.mp hcheck).1, rfl, fun r => ?_⟩
  have hstop := emitAll_ok he' r
  have hcross := emitAll_ok he r
  rw [Scan.rules, List.mem_cons, List.mem_append]
  refine hstop.trans ?_
  rw [← or_assoc, ← or_assoc]
  refine or_congr ?_ Iff.rfl
  exact hcross.trans (or_congr (hleave r) Iff.rfl)

theorem scan_rules_subset (hcursor : c.cursor = .ofCondition (.single v q))
    (h : scan s w c = .ok arrived c') :
    s.rules w v q c.states.pop.1 arrived ⊆ c'.machine.table.rules :=
  fun r hr => ((scan_ok hcursor h).2.2 r).mpr (.inr hr)

/-- A scan with one stop ends with a single cursor, in the state of arrival. -/
theorem scan_cursor (hcursor : c.cursor = .ofCondition (.single v q))
    (h : scan s w c = .ok arrived c') {t : Symbol} (hstop : s.stops = [t]) :
    c'.cursor = .ofCondition (.single (s.last w t) arrived) := by
  have hlanding : (s.stops.map (s.last w)).eraseDups = [s.last w t] := by
    simp [hstop, List.eraseDups_cons]
  rw [(scan_ok hcursor h).2.1, hlanding]
  rfl

/-- A search for one value ends with a single cursor. -/
theorem seek_cursor (hcursor : c.cursor = .ofCondition (.single v q))
    (h : seek s c = .ok arrived c') {t : Symbol} (ht : s.terminals = [t]) :
    c'.cursor = .ofCondition (.single t arrived) := by
  have hstop : s.stops = [t] := by simp [Scan.stops, ht, List.eraseDups_cons]
  rw [scan_cursor hcursor h hstop, Scan.last_keep]

/-- A delivery is a scan, and one rule for each value on which it stops. -/
theorem deliver_ok (hcursor : c.cursor = .ofCondition (.single v q)) {x : Symbol}
    (h : deliver s (some x) c = .ok () c') :
    s.direction.moves = true ∧ ∃ arrived target, c'.cursor = .ofCondition (.single x target) ∧
      s.rules .keep v q c.states.pop.1 arrived ⊆ c'.machine.table.rules ∧
      ∀ t ∈ s.terminals, ⟨t, arrived, x, target, .stay⟩ ∈ c'.machine.table.rules := by
  rw [deliver] at h
  obtain ⟨arrived, c₁, hs, h⟩ := bind_eq_ok.mp (atomic_eq_ok.mp h)
  obtain ⟨hd, hcursor₁, -⟩ := scan_ok hcursor hs
  obtain ⟨condition, c₂, hk, h⟩ := bind_eq_ok.mp h
  cases hk
  obtain ⟨target, c₃, hn, h⟩ := bind_eq_ok.mp h
  cases hn
  obtain ⟨⟨⟩, c₄, he, h⟩ := bind_eq_ok.mp h
  cases h
  refine ⟨hd, arrived, _, rfl, ?_, fun t ht => ?_⟩
  · intro r hr
    exact (emitAll_ok he r).mpr (.inl (scan_rules_subset hcursor hs hr))
  · refine (emitAll_ok he _).mpr (.inr (List.mem_map.mpr ⟨(t, arrived), ?_, rfl⟩))
    have hlanding := Scan.last_mem_landing (w := .keep) ht
    rw [Scan.last_keep] at hlanding
    rw [hcursor₁]
    exact Condition.mem_entries_meeting.mpr ⟨hlanding, rfl⟩

/-- Each of several scans has its rules in the table. -/
theorem scanEach_ok {entries : List (Symbol × Symbol)} {arrived : List Symbol}
    (h : scanEach s w entries c = .ok arrived c') :
    arrived.length = entries.length ∧
      ∀ (i : Nat) (v q a : Symbol), entries[i]? = some (v, q) → arrived[i]? = some a →
        s.direction.moves = true ∧ ∃ going, s.rules w v q going a ⊆ c'.machine.table.rules := by
  induction entries generalizing c arrived with
  | nil =>
    cases h
    refine ⟨rfl, fun i v q a hv => ?_⟩
    cases hv
  | cons entry entries ih =>
    obtain ⟨⟨⟩, c₁, hset, h⟩ := bind_eq_ok.mp h
    cases hset
    obtain ⟨a₀, c₂, hs, h⟩ := bind_eq_ok.mp h
    obtain ⟨others, c₃, hrest, h⟩ := bind_eq_ok.mp h
    cases h
    obtain ⟨hlength, hothers⟩ := ih hrest
    refine ⟨congrArg (· + 1) hlength, fun i v q a hv ha => ?_⟩
    cases i with
    | zero =>
      cases hv
      cases ha
      have hrules := scan_rules_subset rfl hs
      have hkept := ((growing_scanEach _ _ _).ok hrest).rules.subset
      exact ⟨(scan_ok rfl hs).1, _, List.Subset.trans hrules hkept⟩
    | succ i => exact hothers i v q a hv ha

/-- Scans to the one stop end with a single cursor, in the state of arrival of the last of them. None
of them can end in several situations. -/
theorem scanEach_cursor {entries : List (Symbol × Symbol)} {arrived : List Symbol} {t a : Symbol}
    (h : scanEach s w entries c = .ok arrived c') (hstop : s.stops = [t])
    (ha : arrived.getLast? = some a) : c'.cursor = .ofCondition (.single (s.last w t) a) := by
  induction entries generalizing c arrived with
  | nil =>
    cases h
    cases ha
  | cons entry entries ih =>
    obtain ⟨⟨⟩, c₁, hset, h⟩ := bind_eq_ok.mp h
    cases hset
    obtain ⟨a₀, c₂, hs, h⟩ := bind_eq_ok.mp h
    obtain ⟨others, c₃, hrest, h⟩ := bind_eq_ok.mp h
    cases h
    cases entries with
    | nil =>
      cases hrest
      cases ha
      exact scan_cursor rfl hs hstop
    | cons entry' entries =>
      have hlength := (scanEach_ok hrest).1
      obtain ⟨a₁, others, rfl⟩ := List.exists_cons_of_length_eq_add_one hlength
      exact ih hrest (by rwa [List.getLast?_cons_cons] at ha)

/-- Scans from every pair of the cursor, each with a state of arrival of its own. -/
theorem scanPairs_ok {values states : List Symbol}
    (hcursor : c.cursor = .ofCondition (.pairs values states)) (h : scanPairs s w c = .ok () c') :
    ∃ stop arrived, s.onlyStop "parallelise" = .ok stop ∧
      c'.cursor = .ofCondition (.branch stop arrived) ∧
      arrived.length = (values.zip states).length ∧
      ∀ (i : Nat) (v q a : Symbol), values[i]? = some v → states[i]? = some q →
        arrived[i]? = some a → s.direction.moves = true ∧
          ∃ going, { s with interior := s.interior ++ values }.rules w v q going a ⊆
            c'.machine.table.rules := by
  rw [scanPairs] at h
  obtain ⟨p, c₁, hp, h⟩ := bind_eq_ok.mp (atomic_eq_ok.mp h)
  obtain ⟨rfl, rfl⟩ := pairs_ok hcursor hp
  obtain ⟨stop, c₂, ho, h⟩ := bind_eq_ok.mp h
  obtain ⟨hstop, rfl⟩ := ofExcept_eq_ok.mp ho
  obtain ⟨arrived, c₃, he, h⟩ := bind_eq_ok.mp h
  cases h
  obtain ⟨hlength, heach⟩ := scanEach_ok he
  refine ⟨stop, arrived, hstop, rfl, hlength, fun i v q a hv hq ha => ?_⟩
  exact heach i v q a (List.getElem?_zip_eq_some.mpr ⟨hv, hq⟩) ha

end Build

end TapeCompiler
