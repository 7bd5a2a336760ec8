import TapeCompiler.Proofs.Layout
import TapeCompiler.Proofs.Reachable
import TapeCompiler.Proofs.Stretch
import TapeCompiler.Proofs.Success

/-!
# Operations that succeed

Apart from a cursor or arguments of the wrong form, an operation fails only if a rule that it adds
contradicts one that is there. Nothing that it adds can contradict anything else that it adds: every
rule is either for the situation of the cursor or for a state that has just been made up, and these
differ from each other and from all that is in use. So from a cursor about whose situation nothing
is said yet, scans and transfers succeed.

`Compiler.Ready` describes such a cursor, and `Compiler.Spare` a state that has been made up and is
in no rule yet. `Compiler.Adds` keeps track of the situations to which rules have been added.
-/

namespace TapeCompiler

/-- Rules that differ in one part of their situations, the value or the state, are for different
situations. -/
theorem Rule.nodup_keys {rs : List Rule} (f : Symbol × Symbol → Symbol)
    (h : (rs.map fun r => f r.key).Nodup) : (rs.map Rule.key).Nodup := by
  have hpart : ((rs.map Rule.key).map f).Nodup := by
    rw [List.map_map]
    exact h
  exact List.Pairwise.of_map f (fun _ _ hne heq => hne (congrArg f heq)) hpart

/-- A meeting of distinct values describes each of them once. -/
theorem Condition.nodup_entries_meeting {vs : List Symbol} (h : vs.Nodup) (s : Symbol) :
    ((meeting vs s).entries.map Prod.fst).Nodup := by
  unfold meeting
  split
  · simp
  · rw [entries, List.map_fst_zip (by simp)]
    exact h

namespace Scan

theorem nodup_stops (s : Scan) : s.stops.Nodup := nodup_eraseDups s.terminals

theorem nodup_crossed (s : Scan) : s.crossed.Nodup := (nodup_eraseDups s.interior).filter _

/-- A scan that goes on in the state in which it starts contradicts itself about its first value, if
it stops on this value, or goes on over it with another value written than at the start. -/
def Clashes (s : Scan) (w : Edit) (v : Symbol) : Prop :=
  v ∈ s.terminals ∨ v ∈ s.interior ∧ w.interior v ≠ s.first w v

end Scan

namespace Compiler

variable {c c' c'' : Compiler} {v q : Symbol} {keys keys' : List (Symbol × Symbol)}

/-- From `c` to `c'` rules have been added for some situations, and otherwise only for states that
were not reserved. -/
structure Adds (c c' : Compiler) (keys : List (Symbol × Symbol)) : Prop where
  grows : c.Extends c'
  new : ∀ r ∈ c'.machine.table.rules,
    r ∈ c.machine.table.rules ∨ r.key ∈ keys ∨ c.states.isReserved r.state = false

namespace Adds

theorem of_rules_eq (h : c.Extends c') (hrules : c'.machine.table = c.machine.table) :
    c.Adds c' keys := ⟨h, fun _ hr => .inl (hrules ▸ hr)⟩

/-- Situations of states that were not reserved at first need not be mentioned. -/
theorem trans (h : c.Adds c' keys) (h' : c'.Adds c'' keys')
    (hkeys : ∀ k ∈ keys', k ∈ keys ∨ c.states.isReserved k.2 = false) : c.Adds c'' keys := by
  refine ⟨h.grows.trans h'.grows, fun r hr => ?_⟩
  rcases h'.new r hr with hr | hkey | hfree
  · exact h.new r hr
  · exact .inr (hkeys _ hkey)
  · right
    right
    rw [← Bool.not_eq_true] at hfree ⊢
    exact fun hreserved => hfree (h.grows.states _ hreserved)

theorem mono (h : c.Adds c' keys) (hkeys : keys ⊆ keys') : c.Adds c' keys' :=
  ⟨h.grows, fun r hr => (h.new r hr).imp_right (Or.imp_left (hkeys ·))⟩

/-- A situation of a reserved state about which nothing is said stays so. -/
theorem free (h : c.Adds c' keys) (hq : c.states.isReserved q = true)
    (hfree : c.machine.table.Free v q) (hkeys : (v, q) ∉ keys) : c'.machine.table.Free v q := by
  intro r hr hkey
  rcases h.new r hr with hr | hmem | hnew
  · exact hfree r hr hkey
  · exact hkeys (hkey ▸ hmem)
  · have hstate : r.state = q := congrArg Prod.snd hkey
    rw [hstate, hq] at hnew
    cases hnew

end Adds

/-- A state that has been made up and is in no rule yet. -/
structure Spare (c : Compiler) (q : Symbol) : Prop where
  reserved : c.states.isReserved q = true
  unused : c.machine.table.Unused q

/-- A state stays spare while rules are added for other states. -/
theorem Spare.adds (h : c.Spare q) (hadds : c.Adds c' keys) (hkeys : ∀ k ∈ keys, k.2 ≠ q) :
    c'.Spare q := by
  refine ⟨hadds.grows.states q h.reserved, fun r hr hstate => ?_⟩
  rcases hadds.new r hr with hr | hmem | hnew
  · exact h.unused r hr hstate
  · exact hkeys _ hmem hstate
  · rw [hstate, h.reserved] at hnew
    cases hnew

/-- A state that is made up is spare. -/
theorem KnowsTable.spare_pop (hc : c.KnowsTable) :
    Spare { c with states := c.states.pop.2 } c.states.pop.1 :=
  ⟨NameSupply.isReserved_snd_pop.mpr (.inl rfl), fun _ hr => hc.pop_ne_state hr⟩

/-- States that are made up together are spare. -/
theorem KnowsTable.spare_take (hc : c.KnowsTable) {n : Nat} (hq : q ∈ (c.states.take n).1) :
    Spare { c with states := (c.states.take n).2 } q := by
  refine ⟨NameSupply.isReserved_snd_take.mpr (.inl hq), fun r hr hstate => ?_⟩
  have hfree := NameSupply.isReserved_of_mem_take hq
  rw [← hstate, (hc r hr).state] at hfree
  cases hfree

/-- A symbol that is not reserved was not reserved before. -/
theorem Extends.not_reserved (h : c.Extends c') (hq : c'.states.isReserved q = false) :
    c.states.isReserved q = false := by
  rw [← Bool.not_eq_true] at hq ⊢
  exact fun hreserved => hq (h.states q hreserved)

/-- A cursor from which operations can go on: nothing is said about its situation yet. -/
structure Ready (c : Compiler) (v q : Symbol) : Prop where
  cursor : c.cursor = .ofCondition (.single v q)
  knows : c.KnowsTable
  reserved : c.states.isReserved q = true
  free : c.machine.table.Free v q

theorem Spare.ready (h : c.Spare q) (hcursor : c.cursor = .ofCondition (.single v q))
    (hc : c.KnowsTable) : c.Ready v q :=
  ⟨hcursor, hc, h.reserved, h.unused.free v⟩

/-- A cursor from which a scan with an edit can be compiled: nothing is said about its situation yet,
and should its state be the one that is made up next, the scan does not contradict itself. -/
structure Clear (c : Compiler) (v q : Symbol) (s : Scan) (w : Edit) : Prop where
  cursor : c.cursor = .ofCondition (.single v q)
  knows : c.KnowsTable
  free : c.machine.table.Free v q
  agrees : q = c.states.pop.1 → ¬s.Clashes w v

theorem Ready.clear (h : c.Ready v q) (s : Scan) (w : Edit) : c.Clear v q s w :=
  ⟨h.cursor, h.knows, h.free, fun heq => absurd heq (NameSupply.ne_pop_of_isReserved h.reserved)⟩

/-- A compiler that goes on from a machine is ready, unless the machine has a rule for its present
situation. -/
theorem ready_ofMachine {m : Machine} (h : m.table.Free m.symbol m.state) :
    (ofMachine m).Ready m.symbol m.state where
  cursor := rfl
  knows := knowsTable_ofMachine m
  reserved := isReserved_state_stateSupply m
  free := h

end Compiler

/-! ## Adding rules -/

namespace Build

variable {c c' : Compiler} {v q : Symbol}

theorem exists_emit {r : Rule} (h : c.machine.table.Free r.value r.state) :
    ∃ c', emit r c = .ok () c' := by
  obtain ⟨table, htable, -⟩ := h.insert
  exact ⟨_, emit_eq_ok.mpr ⟨table, htable, rfl⟩⟩

/-- Rules for distinct situations can be added if they are there already or nothing is said about
their situations. -/
theorem exists_emitAll_of_agrees {rs : List Rule} (hkeys : (rs.map Rule.key).Nodup)
    (hagrees : ∀ r ∈ rs,
      c.machine.table.Free r.value r.state ∨ r ∈ c.machine.table.rules) :
    ∃ c', emitAll rs c = .ok () c' := by
  induction rs generalizing c with
  | nil => exact ⟨c, rfl⟩
  | cons r rs ih =>
    rw [List.map_cons, List.nodup_cons] at hkeys
    obtain ⟨c₁, hr⟩ : ∃ c₁, emit r c = .ok () c₁ := by
      rcases hagrees r List.mem_cons_self with hfree | hold
      · exact exists_emit hfree
      · exact ⟨_, emit_eq_ok.mpr ⟨_, Table.insert_of_mem hold, rfl⟩⟩
    have hagrees₁ : ∀ r' ∈ rs,
        c₁.machine.table.Free r'.value r'.state ∨ r' ∈ c₁.machine.table.rules := by
      intro r' hr'
      refine (hagrees r' (List.mem_cons_of_mem r hr')).imp (fun hfree old hold hkey => ?_) fun hold =>
        (emit_ok hr r').mpr (.inl hold)
      rcases (emit_ok hr old).mp hold with hold | rfl
      · exact hfree old hold hkey
      · exact hkeys.1 (hkey ▸ List.mem_map_of_mem hr')
    obtain ⟨c', hrs⟩ := ih hkeys.2 hagrees₁
    exact ⟨c', bind_eq_ok.mpr ⟨(), c₁, hr, hrs⟩⟩

/-- Rules for distinct situations about which nothing is said can be added. -/
theorem exists_emitAll {rs : List Rule} (hkeys : (rs.map Rule.key).Nodup)
    (hfree : ∀ r ∈ rs, c.machine.table.Free r.value r.state) : ∃ c', emitAll rs c = .ok () c' :=
  exists_emitAll_of_agrees hkeys fun r hr => .inl (hfree r hr)

/-- Rules for one spare state and distinct values can be added. -/
theorem exists_emitAll_of_spare {rs : List Rule} (hq : c.Spare q) (hstate : ∀ r ∈ rs, r.state = q)
    (hvalues : (rs.map Rule.value).Nodup) : ∃ c', emitAll rs c = .ok () c' := by
  apply exists_emitAll (Rule.nodup_keys Prod.fst hvalues)
  intro r hr
  rw [hstate r hr]
  exact hq.unused.free _

/-- Rules for distinct states about which nothing is said can be added. -/
theorem exists_emitAll_of_states {rs : List Rule} (hstates : (rs.map Rule.state).Nodup)
    (hunused : ∀ r ∈ rs, c.machine.table.Unused r.state) : ∃ c', emitAll rs c = .ok () c' :=
  exists_emitAll (Rule.nodup_keys Prod.snd hstates) fun r hr => (hunused r hr).free r.value

theorem emitAll_adds {rs : List Rule} (h : emitAll rs c = .ok () c') :
    c.Adds c' (rs.map Rule.key) := by
  refine ⟨(growing_emitAll rs).ok h, fun r hr => ?_⟩
  exact ((emitAll_ok h r).mp hr).imp_right fun hr => .inl (List.mem_map_of_mem hr)

theorem emit_adds {r : Rule} (h : emit r c = .ok () c') : c.Adds c' [r.key] := by
  refine ⟨(growing_emit r).ok h, fun r' hr' => ?_⟩
  exact ((emit_ok h r').mp hr').imp_right fun heq => .inl (by rw [heq]; exact List.mem_cons_self)

/-! ## Moves and scans -/

theorem single_apply {operation : String} (hcursor : c.cursor = .ofCondition (.single v q)) :
    single operation c = .ok (v, q) c :=
  ofExcept_eq_ok.mpr ⟨by rw [hcursor]; rfl, rfl⟩

/-- A move to a fresh state succeeds if nothing is said about the situation of the cursor. -/
theorem exists_move_of_free (hcursor : c.cursor = .ofCondition (.single v q))
    (hfree : c.machine.table.Free v q) {m : Move} (hfresh : m.next = some .fresh) :
    ∃ c', move m c = .ok c.states.pop.1 c' ∧ c'.states.isReserved c.states.pop.1 = true := by
  obtain ⟨c₁, he⟩ := exists_emit (c := { c with states := c.states.pop.2 })
    (r := ⟨v, q, m.write.getD v, c.states.pop.1, m.action⟩) hfree
  refine ⟨c₁.aim (.single (m.expect.getD (m.write.getD v)) c.states.pop.1), ?_, ?_⟩
  · rw [move]
    refine atomic_eq_ok.mpr (bind_eq_ok.mpr ⟨(v, q), c, single_apply hcursor, ?_⟩)
    refine bind_eq_ok.mpr ⟨c.states.pop.1, { c with states := c.states.pop.2 }, ?_, ?_⟩
    · rw [hfresh]
      rfl
    · exact bind_eq_ok.mpr ⟨(), c₁, he, rfl⟩
  · exact ((growing_emit _).ok he).states _ (NameSupply.isReserved_snd_pop.mpr (.inl rfl))

/-- From a ready cursor a move leads to a spare state. -/
theorem exists_move (h : c.Ready v q) {m : Move} (hfresh : m.next = some .fresh) :
    ∃ next c', move m c = .ok next c' ∧ c'.Spare next ∧ c.states.isReserved next = false := by
  obtain ⟨c', hmove, hreserved⟩ := exists_move_of_free h.cursor h.free hfresh
  refine ⟨c.states.pop.1, c', hmove, ⟨hreserved, fun r hr hstate => ?_⟩, c.states.isReserved_pop⟩
  rcases ((move_ok h.cursor hfresh hmove).2.2 r).mp hr with hold | rfl
  · exact h.knows.pop_ne_state hold hstate
  · exact NameSupply.ne_pop_of_isReserved h.reserved hstate

/-- A scan adds rules only for the situation of the cursor and for states that it makes up. -/
theorem scan_adds {s : Scan} {w : Edit} {arrived : Symbol}
    (hcursor : c.cursor = .ofCondition (.single v q)) (h : scan s w c = .ok arrived c') :
    c.Adds c' [(v, q)] := by
  refine ⟨(atomic_scan s w).ok h, fun r hr => ?_⟩
  rcases ((scan_ok hcursor h).2.2 r).mp hr with hr | hr
  · exact .inl hr
  · right
    rcases Scan.key_of_mem_rules hr with ⟨rfl, rfl⟩ | ⟨-, hstate⟩ | ⟨-, hstate⟩
    · exact .inl List.mem_cons_self
    · exact .inr (hstate ▸ c.states.isReserved_pop)
    · exact .inr (hstate ▸ c.states.isReserved_pop)

section Scan

variable {s : Scan} {w : Edit}

/-- After the move of a scan, the only rule for the state in which it goes on is that of the move,
if it is a rule for this state at all. -/
theorem eq_of_state_eq_going (hc : c.KnowsTable) (hcursor : c.cursor = .ofCondition (.single v q))
    {m : Move} (hfresh : m.next = some .fresh) (h : move m c = .ok c.states.pop.1 c') {r : Rule}
    (hr : r ∈ c'.machine.table.rules) (hstate : r.state = c.states.pop.1) :
    r = ⟨v, q, m.write.getD v, c.states.pop.1, m.action⟩ ∧ q = c.states.pop.1 := by
  rcases ((move_ok hcursor hfresh h).2.2 r).mp hr with hold | rfl
  · exact absurd hstate (hc.pop_ne_state hold)
  · exact ⟨rfl, hstate⟩

/-- The rules by which a scan goes on can be added behind its move, unless the scan says another
thing about its first value than the move has said. -/
theorem exists_emitAll_crossed (hc : c.KnowsTable) (hcursor : c.cursor = .ofCondition (.single v q))
    (hmove : move { action := s.direction, write := some (s.first w v), next := some .fresh } c =
      .ok c.states.pop.1 c')
    (hagrees : q = c.states.pop.1 → v ∈ s.crossed → w.interior v = s.first w v) :
    ∃ c'', emitAll (s.crossed.map fun u =>
      ⟨u, c.states.pop.1, w.interior u, c.states.pop.1, s.direction⟩) c' = .ok () c'' := by
  apply exists_emitAll_of_agrees
  · exact Rule.nodup_keys Prod.fst (by simpa [Function.comp_def, Rule.key] using s.nodup_crossed)
  · intro r hr
    obtain ⟨u, hu, rfl⟩ := List.mem_map.mp hr
    by_cases hfirst : u = v ∧ q = c.states.pop.1
    · obtain ⟨rfl, hq⟩ := hfirst
      rw [hagrees hq hu, ← hq]
      exact .inr (((move_ok hcursor rfl hmove).2.2 _).mpr (.inr (by rw [← hq]; rfl)))
    · refine .inl fun r hr hkey => hfirst ?_
      obtain ⟨rfl, hq⟩ := eq_of_state_eq_going hc hcursor rfl hmove hr (congrArg Prod.snd hkey)
      exact ⟨(congrArg Prod.fst hkey).symm, hq⟩

/-- From a clear cursor a scan succeeds. -/
theorem exists_scan_of_clear (h : c.Clear v q s w) (hs : s.check = .ok ()) :
    ∃ arrived c', scan s w c = .ok arrived c' ∧ c'.Spare arrived ∧
      c.states.isReserved arrived = false := by
  obtain ⟨c₁, hmove, hgoing⟩ := exists_move_of_free h.cursor h.free rfl
    (m := { action := s.direction, write := some (s.first w v), next := some .fresh })
  obtain ⟨c₂, hover⟩ := exists_emitAll_crossed h.knows h.cursor hmove fun hq hv =>
    Decidable.byContradiction fun hne => h.agrees hq (.inr ⟨(Scan.mem_crossed.mp hv).1, hne⟩)
  have hgrown : c.Extends c₂ := ((atomic_move _).ok hmove).trans ((growing_emitAll _).ok hover)
  have harrived := (h.knows.extends hgrown).spare_pop
  have hgoing₂ := ((growing_emitAll _).ok hover).states _ hgoing
  -- The values on which the scan stops are not among those over which it goes on.
  obtain ⟨c₃, hstop⟩ : ∃ c₃, emitAll (s.stops.map fun u => ⟨u, c.states.pop.1, s.last w u,
      c₂.states.pop.1, .stay⟩) { c₂ with states := c₂.states.pop.2 } = .ok () c₃ := by
    apply exists_emitAll
    · exact Rule.nodup_keys Prod.fst (by simpa [Function.comp_def, Rule.key] using s.nodup_stops)
    · intro r hr r' hr' hkey
      obtain ⟨u, hu, rfl⟩ := List.mem_map.mp hr
      have hu := Scan.mem_stops.mp hu
      rcases (emitAll_ok hover r').mp hr' with hr' | hr'
      · obtain ⟨rfl, hq⟩ :=
          eq_of_state_eq_going h.knows h.cursor rfl hmove hr' (congrArg Prod.snd hkey)
        have hvu : v = u := congrArg Prod.fst hkey
        exact h.agrees hq (.inl (hvu ▸ hu))
      · obtain ⟨x, hx, rfl⟩ := List.mem_map.mp hr'
        have hxu : x = u := congrArg Prod.fst hkey
        exact (Scan.mem_crossed.mp hx).2 (hxu ▸ hu)
  have harrived₃ : c₃.Spare c₂.states.pop.1 := by
    refine harrived.adds (emitAll_adds hstop) fun k hk => ?_
    obtain ⟨r, hr, rfl⟩ := List.mem_map.mp hk
    obtain ⟨u, -, rfl⟩ := List.mem_map.mp hr
    exact NameSupply.ne_pop_of_isReserved hgoing₂
  have hset := c₃.extends_setCursor
    (.meeting (s.stops.map (s.last w)).eraseDups c₂.states.pop.1)
  refine ⟨c₂.states.pop.1, _, ?_, ⟨hset.states _ harrived₃.reserved, harrived₃.unused⟩,
    hgrown.not_reserved c₂.states.isReserved_pop⟩
  rw [scan]
  refine atomic_eq_ok.mpr (bind_eq_ok.mpr ⟨(), c, ofExcept_eq_ok.mpr ⟨hs, rfl⟩, ?_⟩)
  refine bind_eq_ok.mpr ⟨(v, q), c, single_apply h.cursor, ?_⟩
  refine bind_eq_ok.mpr ⟨c.states.pop.1, c₁, hmove, bind_eq_ok.mpr ⟨(), c₂, hover, ?_⟩⟩
  exact bind_eq_ok.mpr ⟨c₂.states.pop.1, _, rfl, bind_eq_ok.mpr ⟨(), c₃, hstop, rfl⟩⟩

/-- From a ready cursor a scan succeeds. -/
theorem exists_scan (h : c.Ready v q) (hs : s.check = .ok ()) :
    ∃ arrived c', scan s w c = .ok arrived c' ∧ c'.Spare arrived ∧
      c.states.isReserved arrived = false :=
  exists_scan_of_clear (h.clear s w) hs

end Scan

/-- One rule for each value at which a scan may have arrived. -/
theorem exists_emitAll_of_meeting {vs : List Symbol} {a : Symbol} (hvs : vs.Nodup)
    (ha : c.Spare a) (write : Symbol → Symbol) (next : Symbol) (action : Action) :
    ∃ c', emitAll ((Condition.meeting vs a).entries.map fun (u, state) =>
        ⟨u, state, write u, next, action⟩) c = .ok () c' ∧
      ∃ keys, c.Adds c' keys ∧ ∀ k ∈ keys, k.2 = a := by
  have hstate : ∀ r ∈ (Condition.meeting vs a).entries.map fun (u, state) =>
      (⟨u, state, write u, next, action⟩ : Rule), r.state = a := by
    intro r hr
    obtain ⟨e, he, rfl⟩ := List.mem_map.mp hr
    exact (Condition.mem_entries_meeting.mp he).2
  obtain ⟨c', he⟩ := exists_emitAll_of_spare ha hstate
    (by simpa [Function.comp_def] using Condition.nodup_entries_meeting hvs a)
  refine ⟨c', he, _, emitAll_adds he, fun k hk => ?_⟩
  obtain ⟨r, hr, rfl⟩ := List.mem_map.mp hk
  exact hstate r hr

/-- A search for one value leads from a clear cursor to a ready cursor. -/
theorem exists_seek_of_clear {s : Scan} {t : Symbol} (h : c.Clear v q s .keep)
    (hd : s.direction.moves = true) (ht : s.terminals = [t]) :
    ∃ arrived c', seek s c = .ok arrived c' ∧ c'.Ready t arrived := by
  have hs : s.check = .ok () := Scan.check_eq_ok.mpr ⟨hd, by simp [ht]⟩
  obtain ⟨arrived, c', hseek, hspare, -⟩ := exists_scan_of_clear h hs
  have hknows := h.knows.extends ((atomic_scan _ _).ok hseek)
  exact ⟨arrived, c', hseek, hspare.ready (seek_cursor h.cursor hseek ht) hknows⟩

/-- A search for one value leads from a ready cursor to a ready cursor. -/
theorem exists_seek {s : Scan} {t : Symbol} (h : c.Ready v q) (hd : s.direction.moves = true)
    (ht : s.terminals = [t]) : ∃ arrived c', seek s c = .ok arrived c' ∧ c'.Ready t arrived :=
  exists_seek_of_clear (h.clear s .keep) hd ht

/-- From a clear cursor a delivery succeeds, and leads to a ready cursor. -/
theorem exists_deliver_of_clear {s : Scan} {x : Symbol} (h : c.Clear v q s .keep)
    (hs : s.check = .ok ()) :
    ∃ target c', deliver s (some x) c = .ok () c' ∧ c'.Ready x target := by
  obtain ⟨arrived, c₁, hseek, hspare, -⟩ := exists_scan_of_clear h hs
  have hcursor := (scan_ok h.cursor hseek).2.1
  have htarget := (h.knows.extends ((atomic_scan _ _).ok hseek)).spare_pop
  have harrived : Compiler.Spare { c₁ with states := c₁.states.pop.2 } arrived :=
    ⟨NameSupply.isReserved_snd_pop.mpr (.inr hspare.reserved), hspare.unused⟩
  obtain ⟨c₂, hwrite, keys, hadds, hkeys⟩ := exists_emitAll_of_meeting
    (nodup_eraseDups (s.stops.map (s.last .keep))) harrived (fun _ => x) c₁.states.pop.1 .stay
  have htarget₂ : c₂.Spare c₁.states.pop.1 := by
    refine htarget.adds hadds fun k hk => ?_
    rw [hkeys k hk]
    exact NameSupply.ne_pop_of_isReserved hspare.reserved
  have hset := c₂.extends_setCursor (.single x c₁.states.pop.1)
  have hdeliver : deliver s (some x) c = .ok () (c₂.setCursor (.single x c₁.states.pop.1)) := by
    rw [deliver]
    refine atomic_eq_ok.mpr (bind_eq_ok.mpr ⟨arrived, c₁, hseek, ?_⟩)
    refine bind_eq_ok.mpr ⟨c₁.cursor.current, c₁, rfl, ?_⟩
    rw [hcursor]
    exact bind_eq_ok.mpr ⟨c₁.states.pop.1, _, rfl, bind_eq_ok.mpr ⟨(), c₂, hwrite, rfl⟩⟩
  refine ⟨c₁.states.pop.1, _, hdeliver, rfl, ?_, hset.states _ htarget₂.reserved,
    htarget₂.unused.free x⟩
  exact h.knows.extends ((atomic_deliver _ _).ok hdeliver)

/-- From a ready cursor a delivery succeeds, and leads to a ready cursor. -/
theorem exists_deliver {s : Scan} {x : Symbol} (h : c.Ready v q) (hs : s.check = .ok ()) :
    ∃ target c', deliver s (some x) c = .ok () c' ∧ c'.Ready x target :=
  exists_deliver_of_clear (h.clear s .keep) hs

/-! ## Several paths -/

/-- Scans from distinct situations about which nothing is said succeed one after the other. Their
states of arrival are new and differ from each other. -/
theorem exists_scanEach {s : Scan} {w : Edit} (hs : s.check = .ok ())
    {entries : List (Symbol × Symbol)} (hc : c.KnowsTable) (hentries : entries.Nodup)
    (hready : ∀ e ∈ entries, c.states.isReserved e.2 = true ∧ c.machine.table.Free e.1 e.2) :
    ∃ arrived c', scanEach s w entries c = .ok arrived c' ∧ arrived.Nodup ∧ c.Adds c' entries ∧
      ∀ a ∈ arrived, c'.Spare a ∧ c.states.isReserved a = false := by
  induction entries generalizing c with
  | nil => exact ⟨[], c, rfl, List.nodup_nil, .of_rules_eq (.refl c) rfl, by simp⟩
  | cons e entries ih =>
    rw [List.nodup_cons] at hentries
    have hset := c.extends_setCursor (.single e.1 e.2)
    obtain ⟨hreserved, hfree⟩ := hready e List.mem_cons_self
    have hready₁ : (c.setCursor (.single e.1 e.2)).Ready e.1 e.2 :=
      ⟨rfl, hc.extends hset, hset.states _ hreserved, hfree⟩
    obtain ⟨a, c₁, hscan, hspare, hnew⟩ := exists_scan (w := w) hready₁ hs
    have hnew₀ := hset.not_reserved hnew
    have hadds : c.Adds c₁ [e] :=
      (Compiler.Adds.of_rules_eq hset rfl).trans (scan_adds rfl hscan) fun k hk => .inl hk
    -- The first scan says nothing about the other situations: they differ from its own, and their
    -- states are reserved already.
    have hready' : ∀ e' ∈ entries,
        c₁.states.isReserved e'.2 = true ∧ c₁.machine.table.Free e'.1 e'.2 := by
      intro e' he'
      obtain ⟨hreserved', hfree'⟩ := hready e' (List.mem_cons_of_mem e he')
      refine ⟨hadds.grows.states _ hreserved', hadds.free hreserved' hfree' fun hmem => ?_⟩
      exact hentries.1 (List.mem_singleton.mp hmem ▸ he')
    obtain ⟨others, c', hrest, hnodup, hadds', hothers⟩ :=
      ih (hc.extends hadds.grows) hentries.2 hready'
    refine ⟨a :: others, c', ?_, ?_, ?_, ?_⟩
    · refine bind_eq_ok.mpr ⟨(), _, rfl, bind_eq_ok.mpr ⟨a, c₁, hscan, ?_⟩⟩
      exact bind_eq_ok.mpr ⟨others, c', hrest, rfl⟩
    · refine List.nodup_cons.mpr ⟨fun hmem => ?_, hnodup⟩
      have hfalse := (hothers a hmem).2
      rw [hspare.reserved] at hfalse
      cases hfalse
    · refine (hadds.mono (by simp)).trans hadds' fun k hk => ?_
      exact .inl (List.mem_cons_of_mem e hk)
    · intro a' ha'
      rcases List.mem_cons.mp ha' with rfl | ha'
      · refine ⟨hspare.adds hadds' fun k hk hka => ?_, hnew₀⟩
        have hk' := (hready k (List.mem_cons_of_mem e hk)).1
        rw [hka, hnew₀] at hk'
        cases hk'
      · exact ⟨(hothers a' ha').1, hadds.grows.not_reserved (hothers a' ha').2⟩

/-- Scans from the pairs of a cursor succeed if the pairs are distinct and nothing is said about
them. -/
theorem exists_scanPairs {s : Scan} {w : Edit} {values states : List Symbol} {stop : Symbol}
    (hs : s.check = .ok ()) (hstop : s.onlyStop "parallelise" = .ok stop)
    (hcursor : c.cursor = .ofCondition (.pairs values states)) (hc : c.KnowsTable)
    (hentries : (values.zip states).Nodup)
    (hready : ∀ e ∈ values.zip states,
      c.states.isReserved e.2 = true ∧ c.machine.table.Free e.1 e.2) :
    ∃ arrived c', scanPairs s w c = .ok () c' ∧
      c'.cursor = .ofCondition (.branch stop arrived) ∧ arrived.Nodup ∧
      arrived.length = (values.zip states).length ∧ c.Adds c' (values.zip states) ∧
      ∀ a ∈ arrived, c'.Spare a ∧ c.states.isReserved a = false := by
  obtain ⟨arrived, c₁, hscans, hnodup, hadds, harrived⟩ := exists_scanEach (w := w)
    (s := { s with interior := s.interior ++ values }) hs hc hentries hready
  have hset := c₁.extends_setCursor (.branch stop arrived)
  refine ⟨arrived, c₁.setCursor (.branch stop arrived), ?_, rfl, hnodup, (scanEach_ok hscans).1,
    ⟨hadds.grows.trans hset, hadds.new⟩, fun a ha => ?_⟩
  · rw [scanPairs]
    refine atomic_eq_ok.mpr (bind_eq_ok.mpr ⟨(values, states), c, ?_, ?_⟩)
    · exact ofExcept_eq_ok.mpr ⟨by rw [hcursor]; rfl, rfl⟩
    · refine bind_eq_ok.mpr ⟨stop, c, ofExcept_eq_ok.mpr ⟨hstop, rfl⟩, ?_⟩
      exact bind_eq_ok.mpr ⟨arrived, c₁, hscans, rfl⟩
  · obtain ⟨hspare, hnew⟩ := harrived a ha
    exact ⟨⟨hset.states a hspare.reserved, hspare.unused⟩, hnew⟩

theorem branch_apply {operation : String} {states : List Symbol}
    (hcursor : c.cursor = .ofCondition (.branch v states)) :
    branch operation c = .ok (v, states) c :=
  ofExcept_eq_ok.mpr ⟨by rw [hcursor]; rfl, rfl⟩

section Branch

variable {states : List Symbol}

/-- The paths of a branch with distinct spare states can be joined. -/
theorem exists_join {m : Move} (hcursor : c.cursor = .ofCondition (.branch v states))
    (hc : c.KnowsTable) (hstates : states.Nodup) (hspare : ∀ q ∈ states, c.Spare q)
    (hnext : m.next = none) :
    ∃ next c', join m c = .ok () c' ∧
      c'.cursor = .ofCondition (.single (m.expect.getD (m.write.getD v)) next) ∧
      c.Adds c' (states.map fun q => (v, q)) ∧ c'.Spare next ∧
      c.states.isReserved next = false := by
  have hpop := growing_newState.ok (c := c) (a := c.states.pop.1) rfl
  obtain ⟨c₁, he⟩ : ∃ c₁, emitAll (states.map fun q => ⟨v, q, m.write.getD v, c.states.pop.1,
      m.action⟩) { c with states := c.states.pop.2 } = .ok () c₁ := by
    refine exists_emitAll_of_states (by simpa [Function.comp_def] using hstates) fun r hr => ?_
    obtain ⟨q, hq, rfl⟩ := List.mem_map.mp hr
    exact (hspare q hq).unused
  have hadds : c.Adds c₁ (states.map fun q => (v, q)) := by
    refine (Compiler.Adds.of_rules_eq hpop rfl).trans (emitAll_adds he) fun k hk => ?_
    rw [List.map_map] at hk
    exact .inl hk
  have hnext' : c₁.Spare c.states.pop.1 := by
    refine hc.spare_pop.adds (emitAll_adds he) fun k hk => ?_
    obtain ⟨r, hr, rfl⟩ := List.mem_map.mp hk
    obtain ⟨q, hq, rfl⟩ := List.mem_map.mp hr
    exact NameSupply.ne_pop_of_isReserved (hspare q hq).reserved
  refine ⟨c.states.pop.1, c₁.aim (.single (m.expect.getD (m.write.getD v)) c.states.pop.1), ?_, rfl,
    ⟨hadds.grows.trans (c₁.extends_cursor _), hadds.new⟩, ⟨hnext'.reserved, hnext'.unused⟩,
    c.states.isReserved_pop⟩
  rw [join]
  refine atomic_eq_ok.mpr (bind_eq_ok.mpr ⟨(v, states), c, branch_apply hcursor, ?_⟩)
  refine bind_eq_ok.mpr ⟨c.states.pop.1, { c with states := c.states.pop.2 }, ?_, ?_⟩
  · rw [hnext]
    rfl
  · exact bind_eq_ok.mpr ⟨(), c₁, he, rfl⟩

theorem length_of_expand {spread : Spread} {n : Nat} {part : BranchPart} {xs : List Symbol}
    (h : spread.expand n part = .ok xs) : xs.length = n := by
  cases spread with
  | same x =>
    cases h
    exact List.length_replicate
  | each ss =>
    obtain ⟨rfl, hlength⟩ := expand_each_ok h
    exact hlength

/-- The paths of a branch with distinct spare states can be moved on to fresh states. -/
theorem exists_moveEach {m : BranchMove} {writes expected : List Symbol}
    (hcursor : c.cursor = .ofCondition (.branch v states)) (hc : c.KnowsTable)
    (hstates : states.Nodup) (hspare : ∀ q ∈ states, c.Spare q) (hnext : m.next = .fresh)
    (hwrites : (m.write.getD (.same v)).expand states.length .writes = .ok writes)
    (hexpected : (m.expect.getD (.each writes)).expand states.length .expected = .ok expected) :
    ∃ nexts c', moveEach m c = .ok () c' ∧ c'.cursor = .ofCondition (.ofPaths expected nexts) ∧
      nexts.Nodup ∧ c.Adds c' (states.map fun q => (v, q)) ∧
      ∀ next ∈ nexts, c'.Spare next ∧ c.states.isReserved next = false := by
  have htake := (growing_newStates states.length).ok (c := c) rfl
  have hlength : states.length ≤ (writes.zip (c.states.take states.length).1).length := by
    rw [List.length_zip, length_of_expand hwrites, NameSupply.length_take]
    omega
  obtain ⟨c₁, he⟩ : ∃ c₁, emitAll ((states.zip (writes.zip (c.states.take states.length).1)).map
      fun e => ⟨v, e.1, e.2.1, e.2.2, m.action⟩)
        { c with states := (c.states.take states.length).2 } = .ok () c₁ := by
    refine exists_emitAll_of_states ?_ fun r hr => ?_
    · rw [List.map_map]
      change ((states.zip _).map Prod.fst).Nodup
      rw [List.map_fst_zip hlength]
      exact hstates
    · obtain ⟨e, he, rfl⟩ := List.mem_map.mp hr
      exact (hspare e.1 (List.of_mem_zip he).1).unused
  have hkeys : ∀ k ∈ ((states.zip (writes.zip (c.states.take states.length).1)).map
      fun e => (⟨v, e.1, e.2.1, e.2.2, m.action⟩ : Rule)).map Rule.key,
      ∃ q ∈ states, k = (v, q) := by
    intro k hk
    obtain ⟨r, hr, rfl⟩ := List.mem_map.mp hk
    obtain ⟨e, he, rfl⟩ := List.mem_map.mp hr
    exact ⟨e.1, (List.of_mem_zip he).1, rfl⟩
  have hadds : c.Adds c₁ (states.map fun q => (v, q)) := by
    refine (Compiler.Adds.of_rules_eq htake rfl).trans (emitAll_adds he) fun k hk => ?_
    obtain ⟨q, hq, rfl⟩ := hkeys k hk
    exact .inl (List.mem_map_of_mem hq)
  refine ⟨(c.states.take states.length).1, c₁.aim (.ofPaths expected _), ?_, rfl,
    NameSupply.nodup_take _ _, ⟨hadds.grows.trans (c₁.extends_cursor _), hadds.new⟩, ?_⟩
  · rw [moveEach]
    refine atomic_eq_ok.mpr (bind_eq_ok.mpr ⟨(v, states), c, branch_apply hcursor, ?_⟩)
    refine bind_eq_ok.mpr ⟨writes, c, ofExcept_eq_ok.mpr ⟨hwrites, rfl⟩, ?_⟩
    refine bind_eq_ok.mpr ⟨expected, c, ofExcept_eq_ok.mpr ⟨hexpected, rfl⟩, ?_⟩
    refine bind_eq_ok.mpr ⟨(c.states.take states.length).1,
      { c with states := (c.states.take states.length).2 }, ?_, bind_eq_ok.mpr ⟨(), c₁, he, rfl⟩⟩
    rw [hnext]
    rfl
  · intro next hmem
    have hfree := NameSupply.isReserved_of_mem_take hmem
    have hspare₁ : c₁.Spare next := by
      refine (hc.spare_take hmem).adds (emitAll_adds he) fun k hk hkn => ?_
      obtain ⟨q, hq, rfl⟩ := hkeys k hk
      have hreserved := (hspare q hq).reserved
      rw [show q = next from hkn, hfree] at hreserved
      cases hreserved
    exact ⟨⟨hspare₁.reserved, hspare₁.unused⟩, hfree⟩

end Branch

/-! ## Transfers -/

section Transfer

variable {l : Layout} {origin blank marker pass : Symbol} {placeholders : List Symbol}
  (hl : l.Apart origin blank marker placeholders)

include hl

theorem moves_back : l.direction.opposite.moves = true := by
  rw [Action.moves_opposite]
  exact hl.moves

theorem exists_plantMarker
    (h : c.Clear origin q ⟨l.sources, [l.stop], l.direction, true, false⟩ .keep) :
    ∃ q' c', plantMarker l blank marker c = .ok () c' ∧ c'.Ready marker q' := by
  obtain ⟨q₁, c₁, h₁, hready₁⟩ := exists_seek_of_clear h hl.moves rfl
  obtain ⟨q₂, c₂, h₂, hready₂⟩ := exists_seek
    (s := { interior := l.between, terminals := [l.start], direction := l.direction }) hready₁
    hl.moves rfl
  have hcheck : Scan.check { interior := l.after, terminals := [blank], direction := l.direction } =
      .ok () :=
    Scan.check_eq_ok.mpr ⟨hl.moves, List.cons_ne_nil _ _⟩
  obtain ⟨q', c', h', hready'⟩ := exists_deliver (x := marker) hready₂ hcheck
  refine ⟨q', c', ?_, hready'⟩
  exact bind_eq_ok.mpr ⟨q₁, c₁, h₁, bind_eq_ok.mpr ⟨q₂, c₂, h₂, h'⟩⟩

theorem exists_returnToOrigin (h : c.Ready marker q) :
    ∃ q' c', returnToOrigin l origin c = .ok () c' ∧ c'.Ready origin q' := by
  obtain ⟨q₁, c₁, h₁, hready₁⟩ := exists_seek
    (s := ⟨l.after ++ l.between ++ [l.start], [l.stop], l.direction.opposite, true, false⟩) h
    (moves_back hl) rfl
  obtain ⟨q', c', h', hready'⟩ := exists_seek
    (s := { interior := l.sources, terminals := [origin], direction := l.direction.opposite })
    hready₁ (moves_back hl) rfl
  refine ⟨q', c', ?_, hready'⟩
  exact bind_eq_ok.mpr ⟨q₁, c₁, h₁, bind_eq_ok.mpr ⟨q', c', h', rfl⟩⟩

/-- The way of each value to the marker can be compiled, from a state `pass` that is spare. -/
theorem exists_carryToMarker (hc : c.KnowsTable) (hpass : c.Spare pass) :
    ∃ joined c₁ c₂ c',
      scanPairs { interior := l.crossed, terminals := [marker], direction := l.direction }
        (.relocate (l.sources.zip placeholders))
        (c.setCursor (.pairs l.sources (List.replicate l.sources.length pass))) = .ok () c₁ ∧
      moveEach ⟨l.direction, some (.each l.sources), some (.same blank), .fresh⟩ c₁ = .ok () c₂ ∧
      join { action := .stay, write := some marker } c₂ = .ok () c' ∧ c'.Ready marker joined ∧
      c.Adds c' (l.sources.map fun v => (v, pass)) ∧ c.states.isReserved joined = false := by
  have hset := c.extends_setCursor (.pairs l.sources (List.replicate l.sources.length pass))
  have hentries : ∀ e ∈ l.sources.zip (List.replicate l.sources.length pass),
      e.1 ∈ l.sources ∧ e.2 = pass := by
    intro e he
    exact ⟨(List.of_mem_zip he).1, (List.mem_replicate.mp (List.of_mem_zip he).2).2⟩
  have hnodup : (l.sources.zip (List.replicate l.sources.length pass)).Nodup := by
    have hfst : ((l.sources.zip (List.replicate l.sources.length pass)).map Prod.fst).Nodup := by
      rw [List.map_fst_zip (by simp)]
      exact nodup_eraseDups l.values
    exact List.Pairwise.of_map Prod.fst (fun _ _ hne heq => hne (congrArg Prod.fst heq)) hfst
  have hready : ∀ e ∈ l.sources.zip (List.replicate l.sources.length pass),
      (c.setCursor (.pairs l.sources (List.replicate l.sources.length pass))).states.isReserved
        e.2 = true ∧ c.machine.table.Free e.1 e.2 := by
    intro e he
    rw [(hentries e he).2]
    exact ⟨hset.states _ hpass.reserved, hpass.unused.free _⟩
  have hstop : Scan.onlyStop ⟨l.crossed, [marker], l.direction, true, false⟩ "parallelise" =
      .ok marker := rfl
  obtain ⟨arrived, c₁, h₁, hcursor₁, harrived, hlength, hadds₁, hspare₁⟩ :=
    exists_scanPairs (w := .relocate (l.sources.zip placeholders))
      (Scan.check_eq_ok.mpr ⟨hl.moves, List.cons_ne_nil _ _⟩) hstop rfl (hc.extends hset) hnodup
      hready
  have hlength' : l.sources.length = arrived.length := by simp [hlength]
  have hknows₁ := (hc.extends hset).extends hadds₁.grows
  obtain ⟨nexts, c₂, h₂, hcursor₂, hnexts, hadds₂, hspare₂⟩ := exists_moveEach
    (m := ⟨l.direction, some (.each l.sources), some (.same blank), .fresh⟩) hcursor₁ hknows₁
    harrived (fun a ha => (hspare₁ a ha).1) rfl
    (by rw [Option.getD_some, Spread.expand, if_pos hlength']) rfl
  have hsome : arrived.length ≠ 0 := by
    rw [← hlength']
    exact mt List.length_eq_zero_iff.mp hl.sources_ne_nil
  rw [ofPaths_replicate hsome] at hcursor₂
  have hknows₂ := hknows₁.extends hadds₂.grows
  obtain ⟨joined, c₃, h₃, hcursor₃, hadds₃, hjoined, hnew⟩ := exists_join
    (m := { action := .stay, write := some marker }) hcursor₂ hknows₂ hnexts
    (fun n hn => (hspare₂ n hn).1) rfl
  -- All states but `pass` have been made up on the way.
  have hgrown₁ : c.Extends c₁ := hset.trans hadds₁.grows
  have hadds : c.Adds c₁ (l.sources.map fun v => (v, pass)) := by
    refine (Compiler.Adds.of_rules_eq hset rfl).trans hadds₁ fun k hk => .inl ?_
    exact List.mem_map.mpr ⟨k.1, (hentries k hk).1, Prod.ext rfl (hentries k hk).2.symm⟩
  have hadds' : c.Adds c₂ (l.sources.map fun v => (v, pass)) := by
    refine hadds.trans hadds₂ fun k hk => .inr ?_
    obtain ⟨a, ha, rfl⟩ := List.mem_map.mp hk
    exact hset.not_reserved (hspare₁ a ha).2
  have hadds'' : c.Adds c₃ (l.sources.map fun v => (v, pass)) := by
    refine hadds'.trans hadds₃ fun k hk => .inr ?_
    obtain ⟨n, hn, rfl⟩ := List.mem_map.mp hk
    exact hgrown₁.not_reserved (hspare₂ n hn).2
  exact ⟨joined, c₁, c₂, c₃, h₁, h₂, h₃, hjoined.ready hcursor₃ (hknows₂.extends hadds₃.grows),
    hadds'', hadds'.grows.not_reserved hnew⟩

/-- The way back to the next cell of the block can be compiled. -/
theorem exists_backToPass (h : c.Ready marker q) (pass : Symbol) :
    ∃ found c₁ c',
      seek { interior := l.crossed, terminals := placeholders, direction := l.direction.opposite }
        c = .ok found c₁ ∧
      emitAll (c₁.cursor.current.entries.map fun (v, state) =>
        ⟨v, state, v, pass, l.direction⟩) c₁ = .ok () c' ∧ c.Adds c' [(marker, q)] := by
  have hback : Scan.check ⟨l.crossed, placeholders, l.direction.opposite, true, false⟩ =
      .ok () := by
    refine Scan.check_eq_ok.mpr ⟨moves_back hl, ?_⟩
    refine List.ne_nil_of_length_pos ?_
    rw [hl.one_each]
    exact List.length_pos_iff.mpr hl.sources_ne_nil
  obtain ⟨found, c₁, h₁, hfound, hnew⟩ := exists_scan (w := .keep) h hback
  obtain ⟨c', h', keys, hadds, hkeys⟩ := exists_emitAll_of_meeting
    (nodup_eraseDups _) hfound id pass l.direction
  refine ⟨found, c₁, c', h₁, ?_, ?_⟩
  · rw [(scan_ok h.cursor h₁).2.1]
    exact h'
  · refine (scan_adds h.cursor h₁).trans hadds fun k hk => .inr ?_
    rw [hkeys k hk]
    exact hnew

/-- A pass of the copying loop can be compiled. It adds rules for the values of the block in the
state `pass`, and else for states that it makes up. -/
theorem exists_copyCell (hc : c.KnowsTable) (hpass : c.Spare pass) :
    ∃ c', copyCell l blank marker placeholders pass c = .ok () c' ∧
      c.Adds c' (l.sources.map fun v => (v, pass)) := by
  obtain ⟨joined, c₁, c₂, c₃, h₁, h₂, h₃, hready, hadds, hnew⟩ := exists_carryToMarker hl hc hpass
  obtain ⟨found, c₄, c', h₄, h', hadds'⟩ := exists_backToPass hl hready pass
  refine ⟨c', ?_, hadds.trans hadds' fun k hk => .inr ?_⟩
  · refine bind_eq_ok.mpr ⟨(), _, rfl, bind_eq_ok.mpr ⟨(), c₁, h₁, ?_⟩⟩
    refine bind_eq_ok.mpr ⟨(), c₂, h₂, bind_eq_ok.mpr ⟨(), c₃, h₃, ?_⟩⟩
    exact bind_eq_ok.mpr ⟨found, c₄, h₄, bind_eq_ok.mpr ⟨c₄.cursor.current, c₄, rfl, h'⟩⟩
  · rw [List.mem_singleton.mp hk]
    exact hnew

theorem exists_eraseMarker (hc : c.KnowsTable) (hreserved : c.states.isReserved pass = true)
    (hfree : c.machine.table.Free l.stop pass) :
    ∃ q' c', eraseMarker l blank marker pass c = .ok () c' ∧ c'.Ready l.stop q' := by
  have hset := c.extends_setCursor (.single l.stop pass)
  have hready : (c.setCursor (.single l.stop pass)).Ready l.stop pass :=
    ⟨rfl, hc.extends hset, hset.states _ hreserved, hfree⟩
  have hcheck : Scan.check ⟨l.crossed, [marker], l.direction, true, false⟩ = .ok () :=
    Scan.check_eq_ok.mpr ⟨hl.moves, List.cons_ne_nil _ _⟩
  obtain ⟨q₁, c₁, h₁, hready₁⟩ := exists_deliver (x := blank) hready hcheck
  obtain ⟨q', c', h', hready'⟩ := exists_seek
    (s := { interior := l.crossed, terminals := [l.stop], direction := l.direction.opposite })
    hready₁ (moves_back hl) rfl
  refine ⟨q', c', ?_, hready'⟩
  refine bind_eq_ok.mpr ⟨(), _, rfl, bind_eq_ok.mpr ⟨(), c₁, h₁, ?_⟩⟩
  exact bind_eq_ok.mpr ⟨q', c', h', rfl⟩

omit hl in
/-- The placeholders can be replaced if they differ from each other and from the origin. -/
theorem exists_restoreBlock (restored : List Symbol) (h : c.Ready v q)
    (hplaces : placeholders.Nodup) (horigin : origin ∉ placeholders)
    (hlength : placeholders.length = restored.length) :
    ∃ done c', restoreBlock l origin placeholders restored c = .ok () c' ∧
      c'.Ready origin done := by
  obtain ⟨cleanup, c₁, h₁, hcleanup, -⟩ :=
    exists_move h (m := { action := l.direction.opposite, next := some .fresh }) rfl
  obtain ⟨c₂, h₂⟩ : ∃ c₂, emitAll ((placeholders.zip restored).map fun (p, v) =>
      ⟨p, cleanup, v, cleanup, l.direction.opposite⟩) c₁ = .ok () c₂ := by
    refine exists_emitAll_of_spare hcleanup (fun r hr => ?_) ?_
    · obtain ⟨e, -, rfl⟩ := List.mem_map.mp hr
      rfl
    · rw [List.map_map]
      change ((placeholders.zip restored).map Prod.fst).Nodup
      rw [List.map_fst_zip (by omega)]
      exact hplaces
  have hgrown : c.Extends c₂ := ((atomic_move _).ok h₁).trans ((growing_emitAll _).ok h₂)
  have hknows := h.knows.extends hgrown
  have hreserved : c₂.states.isReserved cleanup = true :=
    ((growing_emitAll _).ok h₂).states cleanup hcleanup.reserved
  have hfree : c₂.machine.table.Free origin cleanup := by
    intro r hr hkey
    rcases (emitAll_ok h₂ r).mp hr with hr | hr
    · exact hcleanup.unused r hr (congrArg Prod.snd hkey)
    · obtain ⟨e, he, rfl⟩ := List.mem_map.mp hr
      have hvalue : e.1 = origin := congrArg Prod.fst hkey
      exact horigin (hvalue ▸ (List.of_mem_zip he).1)
  obtain ⟨c₃, h₃⟩ := exists_emit (c := { c₂ with states := c₂.states.pop.2 })
    (r := ⟨origin, cleanup, origin, c₂.states.pop.1, .stay⟩) hfree
  have hdone : c₃.Spare c₂.states.pop.1 := by
    refine hknows.spare_pop.adds (emit_adds h₃) fun k hk => ?_
    rw [List.mem_singleton.mp hk]
    exact NameSupply.ne_pop_of_isReserved hreserved
  have hset := c₃.extends_setCursor (.single origin c₂.states.pop.1)
  have hrestore : restoreBlock l origin placeholders restored c =
      .ok () (c₃.setCursor (.single origin c₂.states.pop.1)) := by
    refine bind_eq_ok.mpr ⟨cleanup, c₁, h₁, bind_eq_ok.mpr ⟨(), c₂, h₂, ?_⟩⟩
    exact bind_eq_ok.mpr ⟨c₂.states.pop.1, _, rfl, bind_eq_ok.mpr ⟨(), c₃, h₃, rfl⟩⟩
  refine ⟨c₂.states.pop.1, _, hrestore, rfl, ?_, hset.states _ hdone.reserved,
    hdone.unused.free origin⟩
  exact h.knows.extends ((growing_restoreBlock _ _ _ _).ok hrestore)

end Transfer

/-- A transfer with a layout that passes its check succeeds if nothing is said about the situation of
the cursor, and the cursor comes back ready. Whatever the state of the cursor is, the first scan of a
transfer does not contradict itself, since the origin is no value of the block and not its end. -/
theorem exists_transfer_of_free {l : Layout} {origin : Symbol} (erase : Bool) (hc : c.KnowsTable)
    (hcursor : c.cursor = .ofCondition (.single origin q))
    (hfree : c.machine.table.Free origin q)
    (hcheck : l.check origin c.machine.tape.blank = .ok ()) :
    ∃ done c', transfer l erase c = .ok () c' ∧ c'.Ready origin done := by
  let s := c.values.reserveAll (l.crossed ++ [origin, c.machine.tape.blank])
  let placeholders := (s.pop.2.take l.sources.length).1
  let c₀ : Compiler := { c with values := (s.pop.2.take l.sources.length).2 }
  have hreserved : ∀ x ∈ l.crossed ++ [origin, c.machine.tape.blank], s.isReserved x = true := by
    intro x hx
    exact NameSupply.isReserved_reserveAll.mpr (.inl hx)
  have hl : l.Apart origin c.machine.tape.blank s.pop.1 placeholders :=
    .of_check hcheck fun x hx => hreserved x (List.mem_append_left _ hx)
  have horigin : origin ∉ placeholders := by
    intro hmem
    have hfree := NameSupply.isReserved_of_mem_take hmem
    have htaken := hreserved origin (List.mem_append_right _ List.mem_cons_self)
    rw [NameSupply.isReserved_snd_pop.mpr (.inr htaken)] at hfree
    cases hfree
  have hgrown : c.Extends c₀ := by
    refine .of_machine_eq rfl (fun _ => id) fun x hx => ?_
    simp [c₀, s, hx]
  have hclear : c₀.Clear origin q ⟨l.sources, [l.stop], l.direction, true, false⟩ .keep := by
    refine ⟨hcursor, hc.extends hgrown, hfree, fun _ hclashes => ?_⟩
    rcases hclashes with hstop | ⟨-, hne⟩
    · have hdistinct := hl.distinct
      simp [Layout.boundaries, List.mem_singleton.mp hstop] at hdistinct
    · exact hne rfl
  obtain ⟨q₁, c₁, h₁, hready₁⟩ := exists_plantMarker hl hclear
  obtain ⟨q₂, c₂, h₂, hready₂⟩ := exists_returnToOrigin hl hready₁
  obtain ⟨pass, c₃, h₃, hpass, -⟩ :=
    exists_move hready₂ (m := { action := l.direction, next := some .fresh }) rfl
  have hknows₃ := hready₂.knows.extends ((atomic_move _).ok h₃)
  obtain ⟨c₄, h₄, hadds⟩ := exists_copyCell hl hknows₃ hpass
  have hfree₄ : c₄.machine.table.Free l.stop pass := by
    refine hadds.free hpass.reserved (hpass.unused.free _) fun hmem => ?_
    obtain ⟨v, hv, heq⟩ := List.mem_map.mp hmem
    cases heq
    exact hl.stop_notMem_sources hv
  obtain ⟨q₅, c₅, h₅, hready₅⟩ := exists_eraseMarker hl (hknows₃.extends hadds.grows)
    (hadds.grows.states _ hpass.reserved) hfree₄
  have hlength : placeholders.length =
      (if erase then List.replicate l.sources.length c.machine.tape.blank
        else l.sources).length := by
    rw [hl.one_each]
    cases erase <;> simp
  obtain ⟨done, c', h', hready'⟩ :=
    exists_restoreBlock (l := l) _ hready₅ (NameSupply.nodup_take _ _) horigin hlength
  refine ⟨done, c', ?_, hready'⟩
  refine atomic_eq_ok.mpr (bind_eq_ok.mpr ⟨(origin, q), c, single_apply hcursor, ?_⟩)
  refine bind_eq_ok.mpr ⟨c.machine.tape.blank, c, rfl, ?_⟩
  refine bind_eq_ok.mpr ⟨(), c, ofExcept_eq_ok.mpr ⟨hcheck, rfl⟩, ?_⟩
  refine bind_eq_ok.mpr ⟨(), _, rfl, bind_eq_ok.mpr ⟨s.pop.1, _, rfl, ?_⟩⟩
  refine bind_eq_ok.mpr ⟨placeholders, c₀, rfl, bind_eq_ok.mpr ⟨(), c₁, h₁, ?_⟩⟩
  refine bind_eq_ok.mpr ⟨(), c₂, h₂, bind_eq_ok.mpr ⟨pass, c₃, h₃, ?_⟩⟩
  exact bind_eq_ok.mpr ⟨(), c₄, h₄, bind_eq_ok.mpr ⟨(), c₅, h₅, h'⟩⟩

/-- From a ready cursor a transfer with a layout that passes its check succeeds, and the cursor
comes back ready. -/
theorem exists_transfer {l : Layout} {origin : Symbol} (erase : Bool) (h : c.Ready origin q)
    (hcheck : l.check origin c.machine.tape.blank = .ok ()) :
    ∃ done c', transfer l erase c = .ok () c' ∧ c'.Ready origin done :=
  exists_transfer_of_free erase h.knows h.cursor h.free hcheck

/-- A ready cursor can be halted at. -/
theorem exists_halt (h : c.Ready v q) : ∃ c', halt c = .ok () c' := by
  obtain ⟨c', he⟩ := exists_emit (c := c) (r := ⟨v, q, v, q, .halt⟩) h.free
  exact ⟨c', atomic_eq_ok.mpr (bind_eq_ok.mpr ⟨(v, q), c, single_apply h.cursor, he⟩)⟩

end Build

end TapeCompiler
