import Mathlib.Data.Finset.Card
import TapeCompiler.Proofs.Paths

/-!
# When scans and transfers fail

A scan or a transfer makes up all states that it needs but the one it starts from. If the request
makes sense at all, it fails in one way only: by a conflict at a situation from which it starts,
because there is a rule for this situation already, or because two paths start from it.

One case is an exception. The joining of a branch without paths may leave the cursor in a state that
is not reserved, and the state that a scan makes up may be that one. What the scan says about the
values it meets it then says about the value of the cursor too, and it may contradict itself there
(`Instruction.ClashesAt`).
-/

namespace TapeCompiler

namespace Build

variable {α β : Type} {c c' : Compiler} {v q : Symbol} {key : Symbol × Symbol}

/-! ## Conflicts -/

/-- An operation fails by two rules for a situation. -/
def ConflictsAt (x : Build α) (c : Compiler) (key : Symbol × Symbol) : Prop :=
  ∃ existing rejected c', x c = .error (.conflict existing rejected) c' ∧ existing.key = key ∧
    rejected.key = key

namespace ConflictsAt

/-- What follows a failure does not matter. -/
theorem bind {x : Build α} (h : ConflictsAt x c key) (f : α → Build β) :
    ConflictsAt (x >>= f) c key := by
  obtain ⟨existing, rejected, c', hx, hkeys⟩ := h
  exact ⟨existing, rejected, c', bind_eq_error.mpr (.inl hx), hkeys⟩

/-- A failure after operations that have succeeded. -/
theorem after {x : Build α} {f : α → Build β} {a : α} (hx : x c = .ok a c')
    (h : ConflictsAt (f a) c' key) : ConflictsAt (x >>= f) c key := by
  obtain ⟨existing, rejected, c'', hf, hkeys⟩ := h
  exact ⟨existing, rejected, c'', bind_eq_error.mpr (.inr ⟨a, c', hx, hf⟩), hkeys⟩

theorem atomic {x : Build α} (h : ConflictsAt x c key) : ConflictsAt (atomic x) c key := by
  obtain ⟨existing, rejected, c', hx, hkeys⟩ := h
  exact ⟨existing, rejected, _, atomic_eq_error.mpr ⟨c', hx, rfl⟩, hkeys⟩

end ConflictsAt

theorem emit_conflictsAt {existing r : Rule} (hmem : existing ∈ c.machine.table.rules)
    (hkey : existing.key = r.key) (hne : existing ≠ r) : ConflictsAt (emit r) c r.key := by
  have hemit := emit_apply r c
  rw [Table.insert_eq_conflict hmem hkey hne] at hemit
  exact ⟨existing, r, _, hemit, hkey, rfl⟩

/-- Of rules for one state and distinct values one is refused, and nothing is said about the
situations of the others. -/
theorem emitAll_conflictsAt {us : List Symbol} {f : Symbol → Rule} (hf : ∀ u, (f u).key = (u, q))
    (hus : us.Nodup) (hv : v ∈ us) {existing : Rule} (hmem : existing ∈ c.machine.table.rules)
    (hkey : existing.key = (v, q)) (hne : existing ≠ f v)
    (hfree : ∀ u ∈ us, u ≠ v → c.machine.table.Free u q) :
    ConflictsAt (emitAll (us.map f)) c (v, q) := by
  induction us generalizing c with
  | nil => cases hv
  | cons u us ih =>
    rw [List.nodup_cons] at hus
    rcases List.mem_cons.mp hv with rfl | hv
    · exact .bind (hf v ▸ emit_conflictsAt hmem (hkey.trans (hf v).symm) hne) _
    · have hu : u ≠ v := fun heq => hus.1 (heq ▸ hv)
      have hfree₁ := hfree u List.mem_cons_self hu
      obtain ⟨c₁, hemit⟩ : ∃ c₁, emit (f u) c = .ok () c₁ := by
        refine exists_emit fun r hr heq => hfree₁ r hr (heq.trans (hf u))
      refine .after hemit (ih hus.2 hv ((emit_ok hemit _).mpr (.inl hmem)) fun x hx hxv r hr => ?_)
      rcases (emit_ok hemit r).mp hr with hr | rfl
      · exact hfree x (List.mem_cons_of_mem u hx) hxv r hr
      · rw [hf]
        intro heq
        have hux : u = x := congrArg Prod.fst heq
        exact hus.1 (hux ▸ hx)

/-! ## Moves and scans -/

/-- A move to a fresh state differs from any rule that is there. -/
theorem move_conflictsAt (hc : c.KnowsTable) (hcursor : c.cursor = .ofCondition (.single v q))
    (hbusy : ¬c.machine.table.Free v q) {m : Move} (hfresh : m.next = some .fresh) :
    ConflictsAt (move m) c (v, q) := by
  obtain ⟨existing, hmem, hkey⟩ := Table.exists_of_not_free hbusy
  have hne : existing ≠ ⟨v, q, m.write.getD v, c.states.pop.1, m.action⟩ := fun heq =>
    NameSupply.ne_pop_of_isReserved (hc existing hmem).next (by rw [heq])
  have hemit : ConflictsAt (emit ⟨v, q, m.write.getD v, c.states.pop.1, m.action⟩)
      { c with states := c.states.pop.2 } (v, q) := emit_conflictsAt hmem hkey hne
  rw [move]
  refine .atomic (.after (single_apply hcursor) (.after (a := c.states.pop.1) ?_ (hemit.bind _)))
  rw [hfresh]
  rfl

section Scan

variable {s : Scan} {w : Edit}

/-- A scan fails if there is a rule for the situation of the cursor. -/
theorem scan_conflictsAt_of_busy (hc : c.KnowsTable)
    (hcursor : c.cursor = .ofCondition (.single v q)) (hbusy : ¬c.machine.table.Free v q)
    (hs : s.check = .ok ()) : ConflictsAt (scan s w) c (v, q) := by
  rw [scan]
  refine .atomic (.after (ofExcept_eq_ok.mpr ⟨hs, rfl⟩) (.after (single_apply hcursor) ?_))
  exact (move_conflictsAt hc hcursor hbusy rfl).bind _

/-- A scan that makes up the state of the cursor fails if it contradicts itself. -/
theorem scan_conflictsAt_of_clashes (hc : c.KnowsTable)
    (hcursor : c.cursor = .ofCondition (.single v q)) (hfree : c.machine.table.Free v q)
    (hs : s.check = .ok ()) (hq : q = c.states.pop.1) (hclashes : s.Clashes w v) :
    ConflictsAt (scan s w) c (v, q) := by
  subst hq
  obtain ⟨c₁, hmove, -⟩ := exists_move_of_free hcursor hfree rfl
    (m := { action := s.direction, write := some (s.first w v), next := some .fresh })
  -- The rule of the move is one for the state in which the scan goes on, and the only one so far.
  have hleave : ⟨v, c.states.pop.1, s.first w v, c.states.pop.1, s.direction⟩ ∈
      c₁.machine.table.rules := ((move_ok hcursor rfl hmove).2.2 _).mpr (.inr rfl)
  have hfree₁ : ∀ u, u ≠ v → c₁.machine.table.Free u c.states.pop.1 := by
    intro u hu r hr hkey
    obtain ⟨rfl, -⟩ := eq_of_state_eq_going hc hcursor rfl hmove hr (congrArg Prod.snd hkey)
    exact hu (congrArg Prod.fst hkey).symm
  rw [scan]
  refine .atomic (.after (ofExcept_eq_ok.mpr ⟨hs, rfl⟩) (.after (single_apply hcursor)
    (.after hmove ?_)))
  by_cases hv : v ∈ s.terminals
  · obtain ⟨c₂, hover⟩ := exists_emitAll_crossed (w := w) hc hcursor hmove fun _ h =>
      absurd hv (Scan.mem_crossed.mp h).2
    refine .after hover (.after (a := c₂.states.pop.1) rfl (.bind ?_ _))
    refine emitAll_conflictsAt (fun _ => rfl) s.nodup_stops (Scan.mem_stops.mpr hv)
      ((emitAll_ok hover _).mpr (.inl hleave)) rfl (fun heq => ?_) fun u hu huv r hr hkey => ?_
    · have hstay : s.direction = .stay := congrArg Rule.action heq
      have hmoves := (Scan.check_eq_ok.mp hs).1
      rw [hstay] at hmoves
      cases hmoves
    · rcases (emitAll_ok hover r).mp hr with hr | hr
      · exact hfree₁ u huv r hr hkey
      · obtain ⟨x, hx, rfl⟩ := List.mem_map.mp hr
        have hxu : x = u := congrArg Prod.fst hkey
        exact (Scan.mem_crossed.mp hx).2 (hxu ▸ Scan.mem_stops.mp hu)
  · obtain ⟨hinterior, hwrite⟩ := hclashes.resolve_left hv
    exact .bind (emitAll_conflictsAt (fun _ => rfl) s.nodup_crossed
      (Scan.mem_crossed.mpr ⟨hinterior, hv⟩) hleave rfl
      (fun heq => hwrite (congrArg Rule.write heq).symm) fun u _ huv => hfree₁ u huv) _

/-- A scan fails if the cursor is not clear. -/
theorem scan_conflictsAt (hc : c.KnowsTable) (hcursor : c.cursor = .ofCondition (.single v q))
    (hs : s.check = .ok ()) (h : ¬c.Clear v q s w) : ConflictsAt (scan s w) c (v, q) := by
  by_cases hfree : c.machine.table.Free v q
  · have hagrees : ¬(q = c.states.pop.1 → ¬s.Clashes w v) := fun hagrees =>
      h ⟨hcursor, hc, hfree, hagrees⟩
    rw [Classical.not_imp, Classical.not_not] at hagrees
    exact scan_conflictsAt_of_clashes hc hcursor hfree hs hagrees.1 hagrees.2
  · exact scan_conflictsAt_of_busy hc hcursor hfree hs

end Scan

/-! ## What decides about an operation -/

/-- An operation succeeds if a condition holds, and else fails by a conflict at one of some
situations. -/
structure Hinges (x : Build α) (c : Compiler) (P : Prop) (keys : List (Symbol × Symbol)) :
    Prop where
  ok : P → ∃ a c', x c = .ok a c'
  error : ¬P → ∃ key ∈ keys, ConflictsAt x c key

namespace Hinges

variable {P : Prop} {keys : List (Symbol × Symbol)} {x : Build α}

/-- An operation that can not fail may follow. -/
theorem bind (h : Hinges x c P keys) {f : α → Build β}
    (hf : ∀ {a c'}, x c = .ok a c' → ∃ b c'', f a c' = .ok b c'') : Hinges (x >>= f) c P keys where
  ok hP := by
    obtain ⟨a, c', hx⟩ := h.ok hP
    obtain ⟨b, c'', hfa⟩ := hf hx
    exact ⟨b, c'', bind_eq_ok.mpr ⟨a, c', hx, hfa⟩⟩
  error hP := by
    obtain ⟨key, hkey, hx⟩ := h.error hP
    exact ⟨key, hkey, hx.bind f⟩

theorem bind_pure (h : Hinges x c P keys) (f : α → β) :
    Hinges (x >>= fun a => pure (f a)) c P keys :=
  h.bind fun {a c'} _ => ⟨f a, c', rfl⟩

/-- An operation may stand before that succeeds. -/
theorem after {f : α → Build β} {a : α} (hx : x c = .ok a c') (h : Hinges (f a) c' P keys) :
    Hinges (x >>= f) c P keys where
  ok hP := by
    obtain ⟨b, c'', hfa⟩ := h.ok hP
    exact ⟨b, c'', bind_eq_ok.mpr ⟨a, c', hx, hfa⟩⟩
  error hP := by
    obtain ⟨key, hkey, hfa⟩ := h.error hP
    exact ⟨key, hkey, .after hx hfa⟩

theorem atomic (h : Hinges x c P keys) : Hinges (atomic x) c P keys where
  ok hP := by
    obtain ⟨a, c', hx⟩ := h.ok hP
    exact ⟨a, c', atomic_eq_ok.mpr hx⟩
  error hP := by
    obtain ⟨key, hkey, hx⟩ := h.error hP
    exact ⟨key, hkey, hx.atomic⟩

theorem congr {Q : Prop} (h : Hinges x c P keys) (hPQ : Q ↔ P) : Hinges x c Q keys where
  ok hQ := h.ok (hPQ.mp hQ)
  error hQ := h.error (mt hPQ.mpr hQ)

end Hinges

section Single

variable {s : Scan} {w : Edit} (hc : c.KnowsTable)
  (hcursor : c.cursor = .ofCondition (.single v q)) (hs : s.check = .ok ())

include hc hcursor hs

theorem hinges_scan : Hinges (scan s w) c (c.Clear v q s w) [(v, q)] where
  ok h := by
    obtain ⟨arrived, c', hscan, -⟩ := exists_scan_of_clear h hs
    exact ⟨arrived, c', hscan⟩
  error h := ⟨(v, q), List.mem_cons_self, scan_conflictsAt hc hcursor hs h⟩

theorem hinges_paint (symbol : Option Symbol) : Hinges (paint s symbol) c
    (c.Clear v q s (.paint (symbol.getD c.machine.tape.blank))) [(v, q)] :=
  .after (x := blank) (a := c.machine.tape.blank) rfl (hinges_scan hc hcursor hs)

theorem hinges_deliver (value : Option Symbol) :
    Hinges (deliver s value) c (c.Clear v q s .keep) [(v, q)] where
  ok h := by
    cases value with
    | some x =>
      obtain ⟨target, c', hdeliver, -⟩ := exists_deliver_of_clear (x := x) h hs
      exact ⟨(), c', hdeliver⟩
    | none =>
      obtain ⟨arrived, c', hseek, -⟩ := exists_scan_of_clear h hs
      exact ⟨(), c', atomic_eq_ok.mpr (bind_eq_ok.mpr ⟨arrived, c', hseek, rfl⟩)⟩
  error h := ⟨(v, q), List.mem_cons_self, .atomic (.bind (scan_conflictsAt hc hcursor hs h) _)⟩

/-- A carry writes its replacement in a state of its own, and then delivers the value of the
cursor. -/
theorem hinges_carry (x : Symbol) :
    Hinges (carry s (some x)) c
      (c.machine.table.Free v q ∧ (q = c.states.pop.1 → x ≠ v)) [(v, q)] := by
  refine .atomic (.after (single_apply hcursor) ?_)
  by_cases hfree : c.machine.table.Free v q
  · obtain ⟨c₁, hmove, hreserved⟩ := exists_move_of_free hcursor hfree rfl
      (m := { action := .stay, write := some x, next := some .fresh })
    obtain ⟨-, hcursor₁, hrules⟩ := move_ok hcursor rfl hmove
    have hknows₁ := hc.extends ((atomic_move _).ok hmove)
    refine .after hmove ?_
    by_cases hx : q = c.states.pop.1 → x ≠ v
    · have hready : c₁.Ready x c.states.pop.1 := by
        refine ⟨hcursor₁, hknows₁, hreserved, fun r hr hkey => ?_⟩
        obtain ⟨rfl, hq⟩ := eq_of_state_eq_going hc hcursor rfl hmove hr (congrArg Prod.snd hkey)
        exact hx hq (congrArg Prod.fst hkey).symm
      obtain ⟨target, c', hdeliver, -⟩ := exists_deliver (x := v) hready hs
      exact ⟨fun _ => ⟨(), c', hdeliver⟩, fun h => absurd ⟨hfree, hx⟩ h⟩
    · obtain ⟨rfl, rfl⟩ : q = c.states.pop.1 ∧ x = v := by
        simpa using hx
      -- The rule that has been added is one for the situation in which the delivery starts.
      have hbusy : ¬c₁.machine.table.Free x c.states.pop.1 := fun hfree₁ =>
        hfree₁ _ ((hrules _).mpr (.inr rfl)) rfl
      refine ⟨fun h => absurd h.2 hx, fun _ => ⟨_, List.mem_cons_self, .atomic (.bind ?_ _)⟩⟩
      exact scan_conflictsAt_of_busy hknows₁ hcursor₁ hbusy hs
  · refine ⟨fun h => absurd h.1 hfree, fun _ => ⟨_, List.mem_cons_self, .bind ?_ _⟩⟩
    exact move_conflictsAt hc hcursor hfree rfl

end Single

/-- Whether a transfer succeeds is decided by its first move. -/
theorem hinges_transfer {l : Layout} (erase : Bool) (hc : c.KnowsTable)
    (hcursor : c.cursor = .ofCondition (.single v q))
    (hcheck : l.check v c.machine.tape.blank = .ok ()) :
    Hinges (transfer l erase) c (c.machine.table.Free v q) [(v, q)] where
  ok hfree := by
    obtain ⟨done, c', htransfer, -⟩ := exists_transfer_of_free erase hc hcursor hfree hcheck
    exact ⟨(), c', htransfer⟩
  error hbusy := by
    let values := c.values.reserveAll (l.crossed ++ [v, c.machine.tape.blank])
    let c₀ : Compiler := { c with values := (values.pop.2.take l.sources.length).2 }
    have hgrown : c.Extends c₀ := by
      refine .of_machine_eq rfl (fun _ => id) fun x hx => ?_
      simp [c₀, values, hx]
    have hd : Scan.check ⟨l.sources, [l.stop], l.direction, true, false⟩ = .ok () :=
      Scan.check_eq_ok.mpr ⟨(Layout.Apart.of_check hcheck (s := values) fun x hx =>
        NameSupply.isReserved_reserveAll.mpr (.inl (List.mem_append_left _ hx))).moves,
        List.cons_ne_nil _ _⟩
    have hseek : ConflictsAt (seek ⟨l.sources, [l.stop], l.direction, true, false⟩) c₀ (v, q) :=
      scan_conflictsAt_of_busy (hc.extends hgrown) hcursor hbusy hd
    refine ⟨(v, q), List.mem_cons_self, .atomic (.after (single_apply hcursor) ?_)⟩
    refine .after (a := c.machine.tape.blank) rfl (.after (ofExcept_eq_ok.mpr ⟨hcheck, rfl⟩) ?_)
    refine .after (a := ()) rfl (.after (a := values.pop.1) rfl ?_)
    exact .after rfl (.bind (hseek.bind _) _)

/-- Scans from situations in reserved states fail at a situation that occurs twice, or for which
there is a rule. -/
theorem hinges_scanEach {s : Scan} {w : Edit} (hs : s.check = .ok ())
    {entries : List (Symbol × Symbol)} (hc : c.KnowsTable)
    (hreserved : ∀ e ∈ entries, c.states.isReserved e.2 = true) :
    Hinges (scanEach s w entries) c
      (entries.Nodup ∧ ∀ e ∈ entries, c.machine.table.Free e.1 e.2) entries where
  ok h := by
    obtain ⟨arrived, c', hscans, -⟩ := exists_scanEach (w := w) hs hc h.1 fun e he =>
      ⟨hreserved e he, h.2 e he⟩
    exact ⟨arrived, c', hscans⟩
  error h := by
    induction entries generalizing c with
    | nil => simp at h
    | cons e entries ih =>
      have hset := c.extends_setCursor (.single e.1 e.2)
      by_cases hfree : c.machine.table.Free e.1 e.2
      · have hready : (c.setCursor (.single e.1 e.2)).Ready e.1 e.2 :=
          ⟨rfl, hc.extends hset, hset.states _ (hreserved e List.mem_cons_self), hfree⟩
        obtain ⟨a, c₁, hscan, -⟩ := exists_scan (w := w) hready hs
        have hgrown := hset.trans ((atomic_scan s w).ok hscan)
        -- After the first scan there is a rule for its own situation, and for all that had one.
        have hrest : ¬(entries.Nodup ∧ ∀ e' ∈ entries, c₁.machine.table.Free e'.1 e'.2) := by
          rintro ⟨hnodup, hfree₁⟩
          refine h ⟨List.nodup_cons.mpr ⟨fun hmem => ?_, hnodup⟩, List.forall_mem_cons.mpr
            ⟨hfree, fun e' he' r hr => hfree₁ e' he' r (hgrown.rules.subset hr)⟩⟩
          exact hfree₁ e hmem _ (scan_rules_subset rfl hscan Scan.leave_mem_rules) rfl
        obtain ⟨key, hkey, hconflict⟩ := ih (hc.extends hgrown)
          (fun e' he' => hgrown.states _ (hreserved e' (List.mem_cons_of_mem e he'))) hrest
        exact ⟨key, List.mem_cons_of_mem e hkey,
          .after (a := ()) rfl (.after hscan (hconflict.bind _))⟩
      · exact ⟨e, List.mem_cons_self, .after (a := ()) rfl (.bind
          (scan_conflictsAt_of_busy (hc.extends hset) rfl hfree hs) _)⟩

end Build

/-! ## Instructions -/

namespace Instruction

/-- A scan or a transfer that makes sense at the cursor: the cursor is fresh and of the right shape,
a scan moves and has something to stop on, just one value from several paths, and a transfer has a
layout that passes its check. -/
def Fits (c : Compiler) : Instruction → Prop
  | scan s _ | seek s | paint s _ | erase s | deliver s _ | carry s _ =>
    (∃ v q, c.cursor = .ofCondition (.single v q)) ∧ s.direction.moves = true ∧ s.terminals ≠ []
  | scanPairs s _ | seekPairs s =>
    (∃ vs qs, c.cursor = .ofCondition (.pairs vs qs)) ∧ s.direction.moves = true ∧
      ∃ t, s.stops = [t]
  | seekEach s =>
    (∃ v qs, c.cursor = .ofCondition (.branch v qs)) ∧ s.direction.moves = true ∧
      ∃ t, s.stops = [t]
  | copyBlock l | moveBlock l =>
    ∃ v q, c.cursor = .ofCondition (.single v q) ∧ l.check v c.machine.tape.blank = .ok ()
  | manual _ | move _ | moveAmong .. | join _ | moveEach _ | halt => False

/-- An instruction contradicts itself at the value of the cursor, if it makes up the state of the
cursor: it scans in this way, or it carries the value away and puts the same value in its place. -/
def ClashesAt (c : Compiler) (v : Symbol) : Instruction → Prop
  | scan s w => s.Clashes w v
  | seek s | deliver s _ | carry s none => s.Clashes .keep v
  | paint s symbol => s.Clashes (.paint (symbol.getD c.machine.tape.blank)) v
  | erase s => s.Clashes (.paint c.machine.tape.blank) v
  | carry _ (some x) => x = v
  | scanPairs .. | seekPairs _ | seekEach _ | copyBlock _ | moveBlock _ | manual _ | move _
  | moveAmong .. | join _ | moveEach _ | halt => False

end Instruction

namespace Compiler

variable {c c' : Compiler} {i : Instruction}

/-- The paths of the cursor differ, there is no rule for any of them, and the instruction does not
contradict itself. -/
structure Admits (c : Compiler) (i : Instruction) : Prop where
  nodup : c.cursor.current.entries.Nodup
  unsaid : ∀ e ∈ c.cursor.current.entries, c.machine.table.lookup e.1 e.2 = none
  agrees : ∀ e ∈ c.cursor.current.entries, e.2 = c.states.pop.1 → ¬i.ClashesAt c e.1

theorem admits_of_single {v q : Symbol} (hcursor : c.cursor = .ofCondition (.single v q)) :
    c.Admits i ↔ c.machine.table.Free v q ∧ (q = c.states.pop.1 → ¬i.ClashesAt c v) := by
  have hentries : c.cursor.current.entries = [(v, q)] := by rw [hcursor]; rfl
  constructor
  · rintro ⟨-, hunsaid, hagrees⟩
    rw [hentries] at hunsaid hagrees
    exact ⟨Table.lookup_eq_none_iff.mp (hunsaid _ List.mem_cons_self),
      hagrees _ List.mem_cons_self⟩
  · rintro ⟨hfree, hagrees⟩
    refine ⟨?_, ?_, ?_⟩ <;> rw [hentries]
    · simp
    · simpa using Table.lookup_eq_none_iff.mpr hfree
    · simpa using hagrees

/-- An instruction that is one scan is admitted from a clear cursor. -/
theorem admits_iff_clear {v q : Symbol} {s : Scan} {w : Edit} (hc : c.KnowsTable)
    (hcursor : c.cursor = .ofCondition (.single v q)) (hi : i.ClashesAt c v = s.Clashes w v) :
    c.Admits i ↔ c.Clear v q s w := by
  rw [admits_of_single hcursor, hi]
  exact ⟨fun h => ⟨hcursor, hc, h.1, h.2⟩, fun h => ⟨h.free, h.agrees⟩⟩

/-- Several paths start in reserved states, so that no instruction makes up one of them. -/
theorem admits_of_paths (hc : c.Reachable) (hshape : c.cursor.current.shape ≠ .single) :
    c.Admits i ↔ c.cursor.current.entries.Nodup ∧
      ∀ e ∈ c.cursor.current.entries, c.machine.table.Free e.1 e.2 := by
  refine ⟨fun h => ⟨h.nodup, fun e he => Table.lookup_eq_none_iff.mp (h.unsaid e he)⟩,
    fun h => ⟨h.1, fun e he => Table.lookup_eq_none_iff.mpr (h.2 e he), fun e he heq => ?_⟩⟩
  exact absurd heq (NameSupply.ne_pop_of_isReserved (hc.entries_reserved hshape e he))

section Paths

variable {s : Scan} {w : Edit} {t : Symbol} (hc : c.Reachable) (hd : s.direction.moves = true)
  (hstop : s.stops = [t])

include hc hd hstop

/-- Scans from each path of the cursor. -/
theorem hinges_paths (hshape : c.cursor.current.shape ≠ .single) :
    Build.Hinges (Build.scanEach s w c.cursor.current.entries >>= fun arrived =>
      Build.setCursor (.branch t arrived)) c (c.Admits i) c.cursor.current.entries := by
  have hs : s.check = .ok () := by
    refine Scan.check_eq_ok.mpr ⟨hd, fun hnil => ?_⟩
    simp [Scan.stops, hnil] at hstop
  exact .congr (.bind (Build.hinges_scanEach hs hc.knowsTable (hc.entries_reserved hshape))
    fun _ => ⟨(), _, rfl⟩) (admits_of_paths hc hshape)

theorem hinges_scanPairs {vs qs : List Symbol} (hcursor : c.cursor = .ofCondition (.pairs vs qs)) :
    Build.Hinges (Build.scanPairs s w) c (c.Admits i) c.cursor.current.entries := by
  have hpaths := hinges_paths (s := { s with interior := s.interior ++ vs }) (w := w) (i := i) hc hd
    hstop (by rw [hcursor]; exact nofun)
  have hpairs : Build.pairs "parallelise" c = .ok (vs, qs) c :=
    Build.ofExcept_eq_ok.mpr ⟨by rw [hcursor]; rfl, rfl⟩
  refine .atomic (.after hpairs (.after
    (Build.ofExcept_eq_ok.mpr ⟨Scan.onlyStop_eq_ok.mpr hstop, rfl⟩) ?_))
  rw [hcursor] at hpaths ⊢
  exact hpaths

theorem hinges_seekEach {v : Symbol} {qs : List Symbol}
    (hcursor : c.cursor = .ofCondition (.branch v qs)) :
    Build.Hinges (Build.seekEach s) c (c.Admits i) c.cursor.current.entries := by
  have hpaths := hinges_paths (s := s) (w := .keep) (i := i) hc hd hstop
    (by rw [hcursor]; exact nofun)
  refine .atomic (.after (Build.branch_apply hcursor) (.after
    (Build.ofExcept_eq_ok.mpr ⟨Scan.onlyStop_eq_ok.mpr hstop, rfl⟩) ?_))
  rw [hcursor] at hpaths ⊢
  exact hpaths

end Paths

/-- Whether a fitting instruction succeeds, hinges on whether it is admitted. -/
theorem hinges_build (hc : c.Reachable) (hi : i.Fits c) :
    Build.Hinges i.build c (c.Admits i) c.cursor.current.entries := by
  have hknows := hc.knowsTable
  have hsingle {v q : Symbol} (h : c.cursor = .ofCondition (.single v q)) :
      c.cursor.current.entries = [(v, q)] := by rw [h]; rfl
  cases i with
  | scan s w =>
    obtain ⟨⟨v, q, hcursor⟩, hs⟩ := hi
    rw [hsingle hcursor]
    exact .congr (.bind_pure (Build.hinges_scan hknows hcursor (Scan.check_eq_ok.mpr hs)) _)
      (admits_iff_clear hknows hcursor rfl)
  | seek s =>
    obtain ⟨⟨v, q, hcursor⟩, hs⟩ := hi
    rw [hsingle hcursor]
    exact .congr (.bind_pure (Build.hinges_scan hknows hcursor (Scan.check_eq_ok.mpr hs)) _)
      (admits_iff_clear hknows hcursor rfl)
  | paint s symbol =>
    obtain ⟨⟨v, q, hcursor⟩, hs⟩ := hi
    rw [hsingle hcursor]
    exact .congr (.bind_pure
      (Build.hinges_paint hknows hcursor (Scan.check_eq_ok.mpr hs) symbol) _)
      (admits_iff_clear hknows hcursor rfl)
  | erase s =>
    obtain ⟨⟨v, q, hcursor⟩, hs⟩ := hi
    rw [hsingle hcursor]
    exact .congr (.bind_pure
      (Build.hinges_paint hknows hcursor (Scan.check_eq_ok.mpr hs) none) _)
      (admits_iff_clear hknows hcursor rfl)
  | deliver s value =>
    obtain ⟨⟨v, q, hcursor⟩, hs⟩ := hi
    rw [hsingle hcursor]
    exact .congr (Build.hinges_deliver hknows hcursor (Scan.check_eq_ok.mpr hs) value)
      (admits_iff_clear hknows hcursor rfl)
  | carry s replacement =>
    obtain ⟨⟨v, q, hcursor⟩, hs⟩ := hi
    rw [hsingle hcursor]
    cases replacement with
    | none =>
      exact .congr (.atomic (.bind_pure
        (Build.hinges_scan hknows hcursor (Scan.check_eq_ok.mpr hs)) _))
        (admits_iff_clear hknows hcursor rfl)
    | some x =>
      exact .congr (Build.hinges_carry hknows hcursor (Scan.check_eq_ok.mpr hs) x)
        (admits_of_single hcursor)
  | scanPairs s w =>
    obtain ⟨⟨vs, qs, hcursor⟩, hd, t, hstop⟩ := hi
    exact hinges_scanPairs hc hd hstop hcursor
  | seekPairs s =>
    obtain ⟨⟨vs, qs, hcursor⟩, hd, t, hstop⟩ := hi
    exact hinges_scanPairs hc hd hstop hcursor
  | seekEach s =>
    obtain ⟨⟨v, qs, hcursor⟩, hd, t, hstop⟩ := hi
    exact hinges_seekEach hc hd hstop hcursor
  | copyBlock l =>
    obtain ⟨v, q, hcursor, hcheck⟩ := hi
    rw [hsingle hcursor]
    exact .congr (Build.hinges_transfer false hknows hcursor hcheck)
      ((admits_of_single hcursor).trans (and_iff_left fun _ => id))
  | moveBlock l =>
    obtain ⟨v, q, hcursor, hcheck⟩ := hi
    rw [hsingle hcursor]
    exact .congr (Build.hinges_transfer true hknows hcursor hcheck)
      ((admits_of_single hcursor).trans (and_iff_left fun _ => id))
  | _ => exact hi.elim

end Compiler

/-! ## How many rules a scan adds -/

namespace Scan

variable {s : Scan} {w : Edit} {v q going arrived : Symbol}

theorem length_crossed (s : Scan) :
    s.crossed.length = (s.interior.toFinset \ s.terminals.toFinset).card := by
  rw [← List.toFinset_card_of_nodup s.nodup_crossed]
  congr 1
  ext x
  simp [mem_crossed]

theorem length_stops (s : Scan) : s.stops.length = s.terminals.toFinset.card := by
  rw [← List.toFinset_card_of_nodup s.nodup_stops]
  congr 1
  ext x
  simp [mem_stops]

/-- The rules by which a scan goes on and stops are all different. -/
theorem nodup_tail_rules (s : Scan) (w : Edit) (v q going arrived : Symbol) :
    (s.rules w v q going arrived).tail.Nodup := by
  have hvalues : ((s.rules w v q going arrived).tail.map Rule.value).Nodup := by
    simp only [rules, List.tail_cons, List.map_append, List.map_map, Function.comp_def,
      List.map_id']
    rw [List.nodup_append]
    refine ⟨s.nodup_crossed, s.nodup_stops, fun x hx y hy hxy => ?_⟩
    exact (mem_crossed.mp hx).2 (mem_stops.mp (hxy ▸ hy))
  exact hvalues.of_map Rule.value

/-- The rule by which a scan leaves its first cell is one of those by which it goes on, if they agree
and are for the same state. -/
theorem leave_mem_tail_rules (hd : s.direction.moves = true) :
    ⟨v, q, s.first w v, going, s.direction⟩ ∈ (s.rules w v q going arrived).tail ↔
      q = going ∧ v ∈ s.crossed ∧ w.interior v = s.first w v := by
  rw [rules, List.tail_cons, List.mem_append, List.mem_map, List.mem_map]
  constructor
  · rintro (⟨u, hu, heq⟩ | ⟨u, -, heq⟩)
    · simp only [Rule.mk.injEq] at heq
      obtain ⟨rfl, rfl, hwrite, -⟩ := heq
      exact ⟨rfl, hu, hwrite⟩
    · have hstay : .stay = s.direction := congrArg Rule.action heq
      rw [← hstay] at hd
      cases hd
  · rintro ⟨rfl, hv, hwrite⟩
    exact .inl ⟨v, hv, by rw [hwrite]⟩

end Scan

namespace Build

variable {c c' : Compiler} {s : Scan} {w : Edit} {v q arrived : Symbol}

/-- The rules that a scan adds are its own, each of them once. -/
theorem size_of_scan (hc : c.KnowsTable) (hcursor : c.cursor = .ofCondition (.single v q))
    (h : scan s w c = .ok arrived c') :
    c'.machine.table.size =
      c.machine.table.size + (s.rules w v q c.states.pop.1 arrived).toFinset.card := by
  have hmem := (scan_ok hcursor h).2.2
  obtain ⟨new, hnew⟩ := ((atomic_scan s w).ok h).rules
  have hnodup : (c.machine.table.rules ++ new).Nodup := by
    rw [hnew]
    exact c'.machine.table.distinct.of_map Rule.key
  rw [List.nodup_append] at hnodup
  -- No rule of the scan was there: all of them mention the state that it makes up.
  have hstranger : ∀ r ∈ s.rules w v q c.states.pop.1 arrived, r ∉ c.machine.table.rules := by
    intro r hr hold
    rcases List.mem_cons.mp hr with rfl | hr
    · exact NameSupply.ne_pop_of_isReserved (hc _ hold).next rfl
    · refine hc.pop_ne_state hold ?_
      rcases List.mem_append.mp hr with hr | hr <;> obtain ⟨u, -, rfl⟩ := List.mem_map.mp hr <;> rfl
  have hsame : new.toFinset = (s.rules w v q c.states.pop.1 arrived).toFinset := by
    ext r
    rw [List.mem_toFinset, List.mem_toFinset]
    constructor
    · intro hr
      have hr' : r ∈ c'.machine.table.rules := hnew ▸ List.mem_append_right _ hr
      exact ((hmem r).mp hr').resolve_left fun hold => hnodup.2.2 r hold r hr rfl
    · intro hr
      have hr' := (hmem r).mpr (.inr hr)
      rw [← hnew, List.mem_append] at hr'
      exact hr'.resolve_left (hstranger r hr)
  rw [← hsame, List.toFinset_card_of_nodup hnodup.2.1, Table.size, Table.size, ← hnew,
    List.length_append]

/-- A scan that has succeeded did not contradict itself. -/
theorem not_clashes_of_scan (hc : c.KnowsTable) (hcursor : c.cursor = .ofCondition (.single v q))
    (h : scan s w c = .ok arrived c') (hq : q = c.states.pop.1) : ¬s.Clashes w v := by
  intro hclashes
  have hs : s.check = .ok () := by
    obtain ⟨⟨⟩, c₁, hcheck, -⟩ := bind_eq_ok.mp (atomic_eq_ok.mp h)
    exact (ofExcept_eq_ok.mp hcheck).1
  have hfree : c.machine.table.Free v q := fun r hr hkey =>
    hc.pop_ne_state hr ((congrArg Prod.snd hkey).trans hq)
  obtain ⟨existing, rejected, c'', herror, -⟩ :=
    scan_conflictsAt_of_clashes hc hcursor hfree hs hq hclashes
  rw [h] at herror
  cases herror

/-- A scan adds one rule for its first cell, one for each value over which it goes on, and one for
each on which it stops. If it makes up the state of the cursor and goes on over the value of the
cursor, the rule for this value is the first one. -/
theorem size_of_scan_eq (hc : c.KnowsTable) (hcursor : c.cursor = .ofCondition (.single v q))
    (h : scan s w c = .ok arrived c') :
    c'.machine.table.size + (if q = c.states.pop.1 ∧ v ∈ s.interior then 1 else 0) =
      c.machine.table.size + (1 + (s.interior.toFinset \ s.terminals.toFinset).card +
        s.terminals.toFinset.card) := by
  let leave : Rule := ⟨v, q, s.first w v, c.states.pop.1, s.direction⟩
  have hleave : leave ∈ (s.rules w v q c.states.pop.1 arrived).tail ↔
      q = c.states.pop.1 ∧ v ∈ s.crossed ∧ w.interior v = s.first w v :=
    Scan.leave_mem_tail_rules (scan_ok hcursor h).1
  have hrules : (s.rules w v q c.states.pop.1 arrived).toFinset =
      insert leave (s.rules w v q c.states.pop.1 arrived).tail.toFinset := by
    rw [Scan.rules, List.tail_cons, List.toFinset_cons]
  have htail : (s.rules w v q c.states.pop.1 arrived).tail.toFinset.card =
      (s.interior.toFinset \ s.terminals.toFinset).card + s.terminals.toFinset.card := by
    rw [List.toFinset_card_of_nodup (s.nodup_tail_rules w v q _ arrived), ← s.length_crossed,
      ← s.length_stops, Scan.rules, List.tail_cons, List.length_append, List.length_map,
      List.length_map]
  rw [size_of_scan hc hcursor h, hrules]
  by_cases hfirst : q = c.states.pop.1 ∧ v ∈ s.interior
  · have hagrees := not_clashes_of_scan hc hcursor h hfirst.1
    simp only [Scan.Clashes, hfirst.2, true_and, not_or, not_not] at hagrees
    have hmem := hleave.mpr ⟨hfirst.1, Scan.mem_crossed.mpr ⟨hfirst.2, hagrees.1⟩, hagrees.2⟩
    rw [if_pos hfirst, Finset.card_insert_of_mem (List.mem_toFinset.mpr hmem), htail]
    omega
  · have hnotMem : leave ∉ (s.rules w v q c.states.pop.1 arrived).tail := fun hmem =>
      hfirst ⟨(hleave.mp hmem).1, (Scan.mem_crossed.mp (hleave.mp hmem).2.1).1⟩
    rw [if_neg hfirst, Finset.card_insert_of_notMem (mt List.mem_toFinset.mp hnotMem), htail]
    omega

end Build

namespace Compiler

variable {c : Compiler} {i : Instruction}

/-- **Scans and transfers fail by conflicts only.** A fitting instruction succeeds exactly if the
paths of the cursor differ, there is no rule for any of them, and it does not contradict itself at a
state that it makes up although the cursor names it. Otherwise it fails by a conflict at one of the
paths, and nothing has changed. A scan that succeeds adds one rule for its first cell, one for each
value over which it goes on and one for each on which it stops, unless the first two coincide. -/
theorem scans_fail_by_conflict_only (hc : c.Reachable) (hi : i.Fits c) :
    ((∃ condition c', c.compile i = (.ok condition, c')) ↔ c.Admits i) ∧
    (¬c.Admits i → ∃ existing rejected,
      c.compile i = (.error (.conflict existing rejected), c) ∧ existing.key = rejected.key ∧
        rejected.key ∈ c.cursor.current.entries) ∧
    ∀ s w v q condition c', i = .scan s w → c.cursor.current = .single v q →
      c.compile i = (.ok condition, c') →
        c'.machine.table.size + (if q = c.states.pop.1 ∧ v ∈ s.interior then 1 else 0) =
          c.machine.table.size + (1 + (s.interior.toFinset \ s.terminals.toFinset).card +
            s.terminals.toFinset.card) := by
  have hhinges := hinges_build hc hi
  have hrefused : ¬c.Admits i → ∃ existing rejected,
      c.compile i = (.error (.conflict existing rejected), c) ∧ existing.key = rejected.key ∧
        rejected.key ∈ c.cursor.current.entries := by
    intro h
    obtain ⟨key, hkey, existing, rejected, c', herror, hexisting, hrejected⟩ := hhinges.error h
    refine ⟨existing, rejected, ?_, hexisting.trans hrejected.symm, hrejected ▸ hkey⟩
    obtain rfl := i.atomic_build.error herror
    rw [compile, herror]
  refine ⟨⟨?_, fun h => ?_⟩, hrefused, ?_⟩
  · rintro ⟨condition, c', hok⟩
    by_contra h
    obtain ⟨existing, rejected, herror, -⟩ := hrefused h
    rw [hok] at herror
    cases herror
  · obtain ⟨⟨⟩, c', hbuild⟩ := hhinges.ok h
    exact ⟨_, c', compile_eq_ok.mpr ⟨hbuild, rfl⟩⟩
  · rintro s w v q condition c' rfl hcurrent hok
    obtain ⟨⟨v', q', hcursor⟩, -⟩ := hi
    rw [hcursor] at hcurrent
    cases hcurrent
    obtain ⟨arrived, c₁, hscan, hpure⟩ := Build.bind_eq_ok.mp (compile_eq_ok.mp hok).1
    cases hpure
    exact Build.size_of_scan_eq hc.knowsTable hcursor hscan

/-- A scan adds four rules, and scans from a pair that is named twice are refused. -/
theorem scans_fail_by_conflict_only_atStart :
    atStart.Reachable ∧ (Instruction.scan toB .keep).Fits atStart ∧
      (∃ condition c', atStart.compile (.scan toB .keep) = (.ok condition, c') ∧
        c'.machine.table.size = 4) ∧
      ∃ c, c = atStart.setCursor (.pairs ["1", "1"] ["q1", "q1"]) ∧ c.Reachable ∧
        (Instruction.scanPairs toB .keep).Fits c ∧ ∃ existing rejected,
          c.compile (.scanPairs toB .keep) = (.error (.conflict existing rejected), c) ∧
            rejected.key = ("1", "q1") := by
  have hreachable : atStart.Reachable :=
    .start (.start (p := ⟨["1", "0", "1", "b"], 0, "_", "q1", []⟩) rfl)
  have hfits : (Instruction.scan toB .keep).Fits atStart := ⟨⟨"1", "q1", rfl⟩, rfl, by decide⟩
  have hfresh : "q1" ≠ atStart.states.pop.1 :=
    NameSupply.ne_pop_of_isReserved (isReserved_state_stateSupply _)
  have hadmits : atStart.Admits (.scan toB .keep) :=
    (admits_of_single (v := "1") (q := "q1") rfl).mpr
      ⟨fun _ hr => absurd hr List.not_mem_nil, fun hq => absurd hq hfresh⟩
  obtain ⟨hok, -, hsize⟩ := scans_fail_by_conflict_only hreachable hfits
  obtain ⟨condition, c', hcompile⟩ := hok.mpr hadmits
  have hfour : c'.machine.table.size = 4 := by
    have hcount := hsize toB .keep "1" "q1" condition c' rfl rfl hcompile
    rw [if_neg fun h => hfresh h.1] at hcount
    exact hcount.trans (by decide)
  have hpairs := hreachable.perform (.setCursor (.pairs ["1", "1"] ["q1", "q1"]))
  have hfits' : (Instruction.scanPairs toB .keep).Fits
      (atStart.setCursor (.pairs ["1", "1"] ["q1", "q1"])) := ⟨⟨_, _, rfl⟩, rfl, "b", rfl⟩
  obtain ⟨existing, rejected, herror, -, hkey⟩ :=
    (scans_fail_by_conflict_only hpairs hfits').2.1 fun h => absurd h.nodup (by decide)
  have hkey : rejected.key ∈ [("1", "q1"), ("1", "q1")] := hkey
  exact ⟨hreachable, hfits, ⟨condition, c', hcompile, hfour⟩, _, rfl, hpairs, hfits', existing,
    rejected, herror, by simpa using hkey⟩

/-- Goes right up to the next `1`. -/
def toOne : Scan := { interior := [], terminals := ["1"], direction := .right }

/-- **A scan may fail by a conflict of its own making.** There is no rule yet, but the state that the
scan makes up is the state of the cursor: what it says about stopping on `1` contradicts what it has
said about leaving the `1` of the cursor. -/
theorem scan_contradicts_itself :
    unreserved.Reachable ∧ (Instruction.scan toOne .keep).Fits unreserved ∧
      unreserved.cursor = .ofCondition (.single "1" "q2") ∧
      unreserved.machine.table.rules = [] ∧
      (unreserved.compile (.scan toOne .keep)).1 =
        .error (.conflict ⟨"1", "q2", "1", "q2", .right⟩ ⟨"1", "q2", "1", "q3", .stay⟩) := by
  have hreachable : unreserved.Reachable :=
    .perform (.perform (.start (.start (p := ⟨["1", "1"], 0, "_", "q1", []⟩) rfl)) _) _
  refine ⟨hreachable, ⟨⟨"1", "q2", rfl⟩, rfl, by decide⟩, rfl, rfl, ?_⟩
  decide +kernel

end Compiler

end TapeCompiler
