import Mathlib.Control.Monad.Basic
import TapeCompiler.Proofs.Progress
import TapeCompiler.Proofs.Steps

/-!
# Compiling leaves earlier rules alone

An instruction adds rules behind those that are there. A machine that gets along with the old table
does not notice: while it does not fail, it finds the same rules in the new one.

A scan or a transfer does so in a narrow place. The rules that it adds are for the situations that
the cursor describes, or for states that have not been in use, and the cursor goes on to such a
state. `Compiler.Advances` says this of two compilers and `Build.Local` of an operation. It is kept
by sequence: what the second operation adds at its cursor is for a state that was not in use before
the first.
-/

namespace TapeCompiler

/-! ## Runs in a longer table -/

namespace Machine

variable {m : Machine} {t : Table}

/-- A step that does not fail is the same in a longer table. -/
theorem step_withTable (ht : m.table.rules <+: t.rules) (hok : ∀ e, m.step.1 ≠ .failed e) :
    { m with table := t }.step = (m.step.1, { m.step.2 with table := t }) := by
  rcases m.step_cases with ⟨hm, hs⟩ | ⟨-, -, hs⟩ | ⟨r, hm, hfind, hs⟩
  · rw [hs]
    exact step_of_halted hm
  · rw [hs] at hok
    exact absurd rfl (hok _)
  · rw [hs]
    exact step_of_find?_eq_some (m := { m with table := t }) hm (Table.find?_of_prefix ht hfind)

/-- Steps none of which fails are the same in a longer table. -/
theorem steps_withTable {n : Nat} (ht : m.table.rules <+: t.rules)
    (hok : ∀ outcome ∈ (m.steps true n).1, ∀ e, outcome ≠ .failed e) :
    { m with table := t }.steps true n =
      ((m.steps true n).1, { (m.steps true n).2 with table := t }) := by
  induction n generalizing m with
  | zero => rfl
  | succ n ih =>
    rw [steps_succ] at hok ⊢
    have hstep := step_withTable ht (hok _ List.mem_cons_self)
    have hrest := ih (m := m.step.2) (by rw [table_step]; exact ht) fun outcome hmem =>
      hok outcome (List.mem_cons_of_mem _ hmem)
    rw [steps_succ, hstep, hrest]

end Machine

/-! ## Going on from the cursor -/

namespace Compiler

variable {c c' c'' : Compiler}

/-- From `c` to `c'` rules have been added only for what the cursor of `c` describes and for states
that were not reserved, and the cursor is still at such a place. -/
structure Advances (c c' : Compiler) : Prop where
  adds : c.Adds c' c.cursor.current.entries
  lands : ∀ k ∈ c'.cursor.current.entries,
    k ∈ c.cursor.current.entries ∨ c.states.isReserved k.2 = false

namespace Advances

/-- An operation that touches neither the table nor the cursor. -/
theorem of_eq (h : c.Extends c') (htable : c'.machine.table = c.machine.table)
    (hcursor : c'.cursor = c.cursor) : c.Advances c' :=
  ⟨.of_rules_eq h htable, fun k hk => .inl (by rw [← hcursor]; exact hk)⟩

/-- What is added at the second cursor was not in use at the first. -/
theorem trans (h : c.Advances c') (h' : c'.Advances c'') : c.Advances c'' where
  adds := h.adds.trans h'.adds h.lands
  lands k hk := by
    rcases h'.lands k hk with hk | hfree
    · exact h.lands k hk
    · exact .inr (h.adds.grows.not_reserved hfree)

end Advances

end Compiler

namespace Build

open Compiler

variable {α β : Type} {c c' : Compiler} {operation : String}

/-- An operation that, if it succeeds, goes on from the cursor. -/
structure Local (x : Build α) : Prop where
  advances : ∀ {c c' : Compiler} {a : α}, x c = .ok a c' → c.Advances c'

namespace Local

theorem bind {x : Build α} {f : α → Build β} (hx : Local x) (hf : ∀ a, Local (f a)) :
    Local (x >>= f) where
  advances h := by
    obtain ⟨a, c', hx', hf'⟩ := bind_eq_ok.mp h
    exact (hx.advances hx').trans ((hf a).advances hf')

theorem atomic {x : Build α} (hx : Local x) : Local (atomic x) where
  advances h := hx.advances (atomic_eq_ok.mp h)

/-- Operations that touch neither the table nor the cursor may stand anywhere. -/
theorem of_aside {x : Build α} (hx : Growing x)
    (haside : ∀ {c c' : Compiler} {a}, x c = .ok a c' →
      c'.machine.table = c.machine.table ∧ c'.cursor = c.cursor) : Local x where
  advances h := .of_eq (hx.ok h) (haside h).1 (haside h).2

theorem of_pure (a : α) : Local (pure a : Build α) :=
  .of_aside (.of_pure a) fun h => by cases h; exact ⟨rfl, rfl⟩

theorem of_ofExcept (result : Except Error α) : Local (ofExcept result) :=
  .of_aside (.of_ofExcept result) fun h => by
    obtain ⟨-, rfl⟩ := ofExcept_eq_ok.mp h
    exact ⟨rfl, rfl⟩

end Local

theorem local_single (operation : String) : Local (single operation) :=
  .of_aside (growing_single operation) fun h => by
    obtain ⟨-, rfl⟩ := cursor_of_single h
    exact ⟨rfl, rfl⟩

theorem local_blank : Local blank :=
  .of_aside growing_blank fun h => by cases h; exact ⟨rfl, rfl⟩

theorem local_reserve (values states : List Symbol) : Local (reserve values states) :=
  .of_aside (growing_reserve values states) fun h => by cases h; exact ⟨rfl, rfl⟩

theorem local_newValue : Local newValue :=
  .of_aside growing_newValue fun h => by cases h; exact ⟨rfl, rfl⟩

theorem local_newValues (n : Nat) : Local (newValues n) :=
  .of_aside (growing_newValues n) fun h => by cases h; exact ⟨rfl, rfl⟩

/-! ## Moves and scans -/

theorem cursor_of_move {m : Move} {next : Symbol} (h : move m c = .ok next c') :
    ∃ v q, c.cursor = .ofCondition (.single v q) := by
  obtain ⟨⟨v, q⟩, c₁, hs, -⟩ := bind_eq_ok.mp (atomic_eq_ok.mp h)
  exact ⟨v, q, (cursor_of_single hs).1⟩

theorem not_reserved_of_move {m : Move} {next : Symbol} (hfresh : m.next = some .fresh)
    (h : move m c = .ok next c') : c.states.isReserved next = false := by
  obtain ⟨v, q, hcursor⟩ := cursor_of_move h
  rw [(move_ok hcursor hfresh h).1]
  exact c.states.isReserved_pop

theorem local_move {m : Move} (hfresh : m.next = some .fresh) : Local (move m) where
  advances {c c' next} h := by
    obtain ⟨v, q, hcursor⟩ := cursor_of_move h
    obtain ⟨-, hcursor', hrules⟩ := move_ok hcursor hfresh h
    refine ⟨⟨(atomic_move m).ok h, fun r hr => ?_⟩, fun k hk => .inr ?_⟩
    · rcases (hrules r).mp hr with hr | rfl
      · exact .inl hr
      · rw [hcursor]
        exact .inr (.inl List.mem_cons_self)
    · rw [hcursor'] at hk
      rw [List.mem_singleton.mp hk]
      exact not_reserved_of_move hfresh h

/-- A scan starts from a single cursor, and its state of arrival was not reserved. -/
theorem cursor_of_scan {s : Scan} {w : Edit} {arrived : Symbol} (h : scan s w c = .ok arrived c') :
    (∃ v q, c.cursor = .ofCondition (.single v q)) ∧ c.states.isReserved arrived = false := by
  rw [scan] at h
  obtain ⟨⟨⟩, c₁, hk, h⟩ := bind_eq_ok.mp (atomic_eq_ok.mp h)
  obtain ⟨-, rfl⟩ := ofExcept_eq_ok.mp hk
  obtain ⟨⟨v, q⟩, c₂, hs, h⟩ := bind_eq_ok.mp h
  obtain ⟨hcursor, rfl⟩ := cursor_of_single hs
  obtain ⟨going, c₃, hm, h⟩ := bind_eq_ok.mp h
  obtain ⟨⟨⟩, c₄, he, h⟩ := bind_eq_ok.mp h
  obtain ⟨arrived', c₅, hn, h⟩ := bind_eq_ok.mp h
  cases hn
  obtain ⟨⟨⟩, c₆, he', h⟩ := bind_eq_ok.mp h
  cases h
  have hgrown := ((atomic_move _).ok hm).trans ((growing_emitAll _).ok he)
  exact ⟨⟨v, q, hcursor⟩, hgrown.not_reserved c₄.states.isReserved_pop⟩

theorem local_scan (s : Scan) (w : Edit) : Local (scan s w) where
  advances {c c' arrived} h := by
    obtain ⟨⟨v, q, hcursor⟩, hfree⟩ := cursor_of_scan h
    refine ⟨?_, fun k hk => .inr ?_⟩
    · rw [hcursor]
      exact scan_adds hcursor h
    · rw [(scan_ok hcursor h).2.1] at hk
      rw [(Condition.mem_entries_meeting.mp hk).2]
      exact hfree

theorem local_seek (s : Scan) : Local (seek s) := local_scan s .keep

theorem local_paint (s : Scan) (symbol : Option Symbol) : Local (paint s symbol) :=
  .bind local_blank fun _ => local_scan s _

/-- Rules for the situations of the cursor, all of which lead to made-up states. -/
theorem advances_of_emitAll {c₁ c₂ : Compiler} {rs : List Rule} (hpop : c.Extends c₁)
    (htable : c₁.machine.table = c.machine.table) (he : emitAll rs c₁ = .ok () c₂)
    (hkeys : ∀ r ∈ rs, r.key ∈ c.cursor.current.entries) (hset : c₂.Extends c')
    (htable' : c'.machine.table = c₂.machine.table)
    (hlands : ∀ q ∈ c'.cursor.current.entries, c.states.isReserved q.2 = false) :
    c.Advances c' := by
  have hadds : c.Adds c₂ c.cursor.current.entries := by
    refine (Adds.of_rules_eq hpop htable).trans (emitAll_adds he) fun k hk => .inl ?_
    obtain ⟨r, hr, rfl⟩ := List.mem_map.mp hk
    exact hkeys r hr
  refine ⟨⟨hadds.grows.trans hset, ?_⟩, fun k hk => .inr (hlands k hk)⟩
  rw [htable']
  exact hadds.new

theorem local_deliver (s : Scan) (value : Option Symbol) : Local (deliver s value) := by
  refine .atomic (.bind (local_seek s) fun _ => ?_)
  cases value with
  | none => exact .of_pure ()
  | some value =>
    refine ⟨fun {c c' _} h => ?_⟩
    obtain ⟨arrived, c₁, hk, h⟩ := bind_eq_ok.mp h
    cases hk
    obtain ⟨target, c₂, hn, h⟩ := bind_eq_ok.mp h
    have hpop := growing_newState.ok hn
    cases hn
    obtain ⟨⟨⟩, c₃, he, h⟩ := bind_eq_ok.mp h
    have hset := (growing_setCursor _).ok h
    cases h
    refine advances_of_emitAll hpop rfl he (fun r hr => ?_) hset rfl fun k hk => ?_
    · obtain ⟨e, hmem, rfl⟩ := List.mem_map.mp hr
      exact hmem
    · rw [List.mem_singleton.mp hk]
      exact c.states.isReserved_pop

theorem local_carry (s : Scan) (replacement : Option Symbol) : Local (carry s replacement) := by
  refine .atomic ?_
  cases replacement with
  | none => exact .bind (local_seek s) fun _ => .of_pure ()
  | some replacement =>
    refine .bind (local_single _) fun (value, _) => ?_
    exact .bind (local_move rfl) fun _ => local_deliver s _

/-! ## Several paths -/

theorem scanEach_adds {s : Scan} {w : Edit} {entries : List (Symbol × Symbol)}
    {arrived : List Symbol} (h : scanEach s w entries c = .ok arrived c') :
    c.Adds c' entries ∧ ∀ a ∈ arrived, c.states.isReserved a = false := by
  induction entries generalizing c arrived with
  | nil =>
    cases h
    exact ⟨.of_rules_eq (.refl _) rfl, by simp⟩
  | cons e entries ih =>
    obtain ⟨⟨⟩, c₁, hset, h⟩ := bind_eq_ok.mp h
    have hgrown := (growing_setCursor _).ok hset
    cases hset
    obtain ⟨a, c₂, hscan, h⟩ := bind_eq_ok.mp h
    obtain ⟨others, c₃, hrest, h⟩ := bind_eq_ok.mp h
    cases h
    obtain ⟨hadds', hothers⟩ := ih hrest
    have hadds : c.Adds c₂ [e] :=
      (Adds.of_rules_eq hgrown rfl).trans (scan_adds rfl hscan) fun k hk => .inl hk
    refine ⟨(hadds.mono (by simp)).trans hadds' fun k hk => ?_, fun a' ha' => ?_⟩
    · exact .inl (List.mem_cons_of_mem e hk)
    · rcases List.mem_cons.mp ha' with rfl | ha'
      · exact hgrown.not_reserved (cursor_of_scan hscan).2
      · exact hadds.grows.not_reserved (hothers a' ha')

/-- The paths of a branch lead to where the scans have arrived. -/
theorem advances_of_scanEach {s : Scan} {w : Edit} {arrived : List Symbol} {stop : Symbol}
    (h : scanEach s w c.cursor.current.entries c = .ok arrived c') :
    c.Advances (c'.setCursor (.branch stop arrived)) := by
  obtain ⟨hadds, harrived⟩ := scanEach_adds h
  refine ⟨⟨hadds.grows.trans (c'.extends_setCursor _), hadds.new⟩, fun k hk => .inr ?_⟩
  exact harrived _ (Condition.mem_entries_branch.mp hk).2

theorem local_scanPairs (s : Scan) (w : Edit) : Local (scanPairs s w) where
  advances {c c' _} h := by
    rw [scanPairs] at h
    obtain ⟨⟨values, states⟩, c₁, hp, h⟩ := bind_eq_ok.mp (atomic_eq_ok.mp h)
    obtain ⟨hcursor, rfl⟩ := cursor_of_pairs hp
    obtain ⟨stop, c₂, ho, h⟩ := bind_eq_ok.mp h
    obtain ⟨-, rfl⟩ := ofExcept_eq_ok.mp ho
    obtain ⟨arrived, c₃, he, h⟩ := bind_eq_ok.mp h
    cases h
    have hentries : c.cursor.current.entries = values.zip states := by rw [hcursor]; rfl
    exact advances_of_scanEach (hentries ▸ he)

theorem local_seekEach (s : Scan) : Local (seekEach s) where
  advances {c c' _} h := by
    rw [seekEach] at h
    obtain ⟨⟨v, states⟩, c₁, hb, h⟩ := bind_eq_ok.mp (atomic_eq_ok.mp h)
    obtain ⟨hcursor, rfl⟩ := cursor_of_branch hb
    obtain ⟨stop, c₂, ho, h⟩ := bind_eq_ok.mp h
    obtain ⟨-, rfl⟩ := ofExcept_eq_ok.mp ho
    obtain ⟨arrived, c₃, he, h⟩ := bind_eq_ok.mp h
    cases h
    have hentries : c.cursor.current.entries = states.map fun q => (v, q) := by rw [hcursor]; rfl
    exact advances_of_scanEach (hentries ▸ he)

theorem local_join {m : Move} (hnext : m.next = none) : Local (join m) where
  advances {c c' _} h := by
    rw [join, hnext] at h
    obtain ⟨⟨v, states⟩, c₁, hb, h⟩ := bind_eq_ok.mp (atomic_eq_ok.mp h)
    obtain ⟨hcursor, rfl⟩ := cursor_of_branch hb
    obtain ⟨next, c₂, hn, h⟩ := bind_eq_ok.mp h
    have hpop := growing_newState.ok hn
    cases hn
    obtain ⟨⟨⟩, c₃, he, h⟩ := bind_eq_ok.mp h
    have haim := (growing_aim _).ok h
    cases h
    refine advances_of_emitAll hpop rfl he (fun r hr => ?_) haim rfl fun k hk => ?_
    · obtain ⟨q, hq, rfl⟩ := List.mem_map.mp hr
      rw [hcursor]
      exact Condition.mem_entries_branch.mpr ⟨rfl, hq⟩
    · rw [List.mem_singleton.mp hk]
      exact c.states.isReserved_pop

theorem mem_states_of_ofPaths {expected states : List Symbol} {k : Symbol × Symbol}
    (h : k ∈ (Condition.ofPaths expected states).entries) : k.2 ∈ states := by
  cases expected with
  | nil => cases h
  | cons v vs =>
    rw [Condition.ofPaths] at h
    split at h
    · exact (Condition.mem_entries_branch.mp h).2
    · exact (List.of_mem_zip h).2

theorem local_moveEach {m : BranchMove} (hnext : m.next = .fresh) : Local (moveEach m) where
  advances {c c' _} h := by
    rw [moveEach, hnext] at h
    obtain ⟨⟨v, states⟩, c₁, hb, h⟩ := bind_eq_ok.mp (atomic_eq_ok.mp h)
    obtain ⟨hcursor, rfl⟩ := cursor_of_branch hb
    obtain ⟨writes, c₂, hw, h⟩ := bind_eq_ok.mp h
    obtain ⟨-, rfl⟩ := ofExcept_eq_ok.mp hw
    obtain ⟨expected, c₃, hx, h⟩ := bind_eq_ok.mp h
    obtain ⟨-, rfl⟩ := ofExcept_eq_ok.mp hx
    obtain ⟨nexts, c₄, hn, h⟩ := bind_eq_ok.mp h
    have htake := (growing_newStates _).ok hn
    cases hn
    obtain ⟨⟨⟩, c₅, he, h⟩ := bind_eq_ok.mp h
    have haim := (growing_aim _).ok h
    cases h
    refine advances_of_emitAll htake rfl he (fun r hr => ?_) haim rfl fun k hk => ?_
    · obtain ⟨e, hmem, rfl⟩ := List.mem_map.mp hr
      rw [hcursor]
      exact Condition.mem_entries_branch.mpr ⟨rfl, (List.of_mem_zip hmem).1⟩
    · exact NameSupply.isReserved_of_mem_take (mem_states_of_ofPaths hk)

/-! ## Transfers -/

/-- A cursor that is set first stands in for the cursor. -/
theorem Local.adds_of_setCursor {x : Build α} (hx : Local x) {condition : Condition} {a : α}
    (h : (setCursor condition >>= fun _ => x) c = .ok a c') :
    c.Adds c' condition.entries ∧ ∀ k ∈ c'.cursor.current.entries,
      k ∈ condition.entries ∨ c.states.isReserved k.2 = false := by
  obtain ⟨⟨⟩, c₁, hset, h⟩ := bind_eq_ok.mp h
  have hgrown := (growing_setCursor _).ok hset
  cases hset
  have hadvances := hx.advances h
  refine ⟨(Adds.of_rules_eq hgrown rfl).trans hadvances.adds fun k hk => .inl hk, fun k hk => ?_⟩
  exact (hadvances.lands k hk).imp_right hgrown.not_reserved

section Transfer

variable {l : Layout} {origin blank marker pass : Symbol} {placeholders restored : List Symbol}

theorem local_plantMarker : Local (plantMarker l blank marker) :=
  .bind (local_seek _) fun _ => .bind (local_seek _) fun _ => local_deliver _ _

theorem local_returnToOrigin : Local (returnToOrigin l origin) :=
  .bind (local_seek _) fun _ => .bind (local_seek _) fun _ => .of_pure ()

theorem cursor_emitAll {rs : List Rule} (h : emitAll rs c = .ok () c') :
    c'.cursor = c.cursor := by
  induction rs generalizing c with
  | nil =>
    cases h
    rfl
  | cons r rs ih =>
    obtain ⟨⟨⟩, c₁, hr, hrs⟩ := bind_eq_ok.mp h
    obtain ⟨table, -, rfl⟩ := emit_eq_ok.mp hr
    rw [ih hrs]
    rfl

/-- Rules for the situations of the cursor, which stays where it is. -/
theorem local_emitAll (f : Symbol × Symbol → Rule) (hf : ∀ e, (f e).key = e) :
    Local (current >>= fun found => emitAll (found.entries.map f)) where
  advances {c c' _} h := by
    obtain ⟨found, c₁, hk, he⟩ := bind_eq_ok.mp h
    cases hk
    have hadds := emitAll_adds he
    have hkeys : (Rule.key ∘ f) = id := funext hf
    rw [List.map_map, hkeys, List.map_id] at hadds
    refine ⟨hadds, fun k hk => .inl ?_⟩
    rw [← cursor_emitAll he]
    exact hk

theorem copyCell_adds (h : copyCell l blank marker placeholders pass c = .ok () c') :
    ∃ keys, c.Adds c' keys ∧ ∀ k ∈ keys, k.2 = pass := by
  have hlocal := Local.bind (local_scanPairs
    { interior := l.crossed, terminals := [marker], direction := l.direction }
    (.relocate (l.sources.zip placeholders))) fun _ =>
      .bind (local_moveEach (m := ⟨l.direction, some (.each l.sources), some (.same blank), .fresh⟩)
        rfl) fun _ =>
        .bind (local_join (m := { action := .stay, write := some marker }) rfl) fun _ =>
          .bind (local_seek ⟨l.crossed, placeholders, l.direction.opposite, true, false⟩) fun _ =>
            local_emitAll (fun e => ⟨e.1, e.2, e.1, pass, l.direction⟩) fun _ => rfl
  refine ⟨_, (hlocal.adds_of_setCursor h).1, fun k hk => ?_⟩
  exact (List.mem_replicate.mp (List.of_mem_zip hk).2).2

theorem eraseMarker_adds (h : eraseMarker l blank marker pass c = .ok () c') :
    c.Adds c' [(l.stop, pass)] ∧ ∀ k ∈ c'.cursor.current.entries,
      k ∈ [(l.stop, pass)] ∨ c.states.isReserved k.2 = false := by
  have hlocal := Local.bind (local_deliver
    { interior := l.crossed, terminals := [marker], direction := l.direction } (some blank))
    fun _ => .bind (local_seek ⟨l.crossed, [l.stop], l.direction.opposite, true, false⟩) fun _ =>
        .of_pure ()
  exact hlocal.adds_of_setCursor h

theorem local_restoreBlock : Local (restoreBlock l origin placeholders restored) where
  advances {c c' _} h := by
    obtain ⟨cleanup, c₁, hm, h⟩ := bind_eq_ok.mp h
    have hmove := (local_move rfl).advances hm
    have hcleanup := not_reserved_of_move rfl hm
    obtain ⟨⟨⟩, c₂, he, h⟩ := bind_eq_ok.mp h
    obtain ⟨done, c₃, hn, h⟩ := bind_eq_ok.mp h
    have hpop := growing_newState.ok hn
    cases hn
    obtain ⟨⟨⟩, c₄, he', h⟩ := bind_eq_ok.mp h
    have hset := (growing_setCursor _).ok h
    cases h
    have hadds : c.Adds c₂ c.cursor.current.entries := by
      refine hmove.adds.trans (emitAll_adds he) fun k hk => .inr ?_
      obtain ⟨r, hr, rfl⟩ := List.mem_map.mp hk
      obtain ⟨e, -, rfl⟩ := List.mem_map.mp hr
      exact hcleanup
    have hadds' : c.Adds c₄ c.cursor.current.entries := by
      have hsame : Adds _ _ [] := .of_rules_eq hpop rfl
      refine (hadds.trans hsame (by simp)).trans (emit_adds he') fun k hk => .inr ?_
      rw [List.mem_singleton.mp hk]
      exact hcleanup
    refine ⟨⟨hadds'.grows.trans hset, hadds'.new⟩, fun k hk => .inr ?_⟩
    rw [List.mem_singleton.mp hk]
    exact hadds.grows.not_reserved c₂.states.isReserved_pop

/-- The copying loop and its end: all rules for the state of the loop come after that state has been
made up. -/
theorem local_passes :
    Local (move { action := l.direction, next := some .fresh } >>= fun pass =>
      copyCell l blank marker placeholders pass >>= fun _ =>
        eraseMarker l blank marker pass >>= fun _ =>
          restoreBlock l origin placeholders restored) where
  advances {c c' _} h := by
    obtain ⟨pass, c₁, hm, h⟩ := bind_eq_ok.mp h
    have hmove := (local_move rfl).advances hm
    have hpass := not_reserved_of_move rfl hm
    obtain ⟨⟨⟩, c₂, hcopy, h⟩ := bind_eq_ok.mp h
    obtain ⟨keys, hadds, hkeys⟩ := copyCell_adds hcopy
    have hcopied : c.Adds c₂ c.cursor.current.entries := by
      refine hmove.adds.trans hadds fun k hk => .inr ?_
      rw [hkeys k hk]
      exact hpass
    obtain ⟨⟨⟩, c₃, herase, h⟩ := bind_eq_ok.mp h
    obtain ⟨hadds', hlands⟩ := eraseMarker_adds herase
    have herased : c.Advances c₃ := by
      refine ⟨hcopied.trans hadds' fun k hk => .inr ?_, fun k hk => .inr ?_⟩
      · rw [List.mem_singleton.mp hk]
        exact hpass
      · rcases hlands k hk with hk | hfree
        · rw [List.mem_singleton.mp hk]
          exact hpass
        · exact hcopied.grows.not_reserved hfree
    exact herased.trans (local_restoreBlock.advances h)

theorem local_transfer (l : Layout) (erase : Bool) : Local (transfer l erase) := by
  refine .atomic (.bind (local_single _) fun (origin, _) => .bind local_blank fun filler => ?_)
  refine .bind (.of_ofExcept _) fun _ => .bind (local_reserve _ _) fun _ => ?_
  refine .bind local_newValue fun marker => .bind (local_newValues _) fun placeholders => ?_
  exact .bind local_plantMarker fun _ => .bind local_returnToOrigin fun _ => local_passes

end Transfer

end Build

/-! ## Instructions -/

namespace Instruction

/-- Whether an instruction is a scan or made up of scans. -/
def scans : Instruction → Bool
  | scan .. | seek .. | paint .. | erase .. | deliver .. | carry .. => true
  | scanPairs .. | seekPairs .. | seekEach .. => true
  | copyBlock .. | moveBlock .. => true
  | manual .. | move .. | moveAmong .. | join .. | moveEach .. | halt => false

open Build in
theorem local_build {i : Instruction} (h : i.scans = true) : Build.Local i.build := by
  cases i with
  | scan s w => exact .bind (local_scan s w) fun _ => .of_pure ()
  | seek s => exact .bind (local_seek s) fun _ => .of_pure ()
  | paint s symbol => exact .bind (local_paint s symbol) fun _ => .of_pure ()
  | erase s => exact .bind (local_paint s none) fun _ => .of_pure ()
  | deliver s value => exact local_deliver s value
  | carry s replacement => exact local_carry s replacement
  | scanPairs s w => exact local_scanPairs s w
  | seekPairs s => exact local_scanPairs s .keep
  | seekEach s => exact local_seekEach s
  | copyBlock l => exact local_transfer l false
  | moveBlock l => exact local_transfer l true
  | manual | move | moveAmong | join | moveEach | halt => cases h

end Instruction

namespace Compiler

/-- **Compiling leaves earlier rules alone.** An instruction that succeeds adds rules behind the old
ones, so that whatever a machine does with the old table without failing it does with the new one;
and a scan or a transfer says something new only about the situations of the cursor and about states
that were not reserved. -/
theorem compile_extends_table {c c' : Compiler} {i : Instruction} {condition : Condition}
    (h : c.compile i = (.ok condition, c')) :
    c.machine.table.rules <+: c'.machine.table.rules ∧
      (∀ (m : Machine) (n : Nat), m.table = c.machine.table →
        (∀ outcome ∈ (m.steps true n).1, ∀ e, outcome ≠ .failed e) →
        { m with table := c'.machine.table }.steps true n =
          ((m.steps true n).1, { (m.steps true n).2 with table := c'.machine.table })) ∧
      (i.scans = true → ∀ v q, c'.machine.table.lookup v q ≠ c.machine.table.lookup v q →
        (v, q) ∈ c.cursor.current.entries ∨ c.states.isReserved q = false) := by
  rw [compile] at h
  cases hbuild : i.build c with
  | error e c'' =>
    rw [hbuild] at h
    cases h
  | ok _ c'' =>
    rw [hbuild] at h
    cases h
    have hrules := (i.atomic_build.ok hbuild).rules
    refine ⟨hrules, fun m n htable hok => ?_, fun hscans v q hne => ?_⟩
    · exact Machine.steps_withTable (htable ▸ hrules) hok
    · obtain ⟨r, hmem, hnew, hkey⟩ := Table.exists_mem_of_lookup_ne hrules hne
      have hadds := ((Instruction.local_build hscans).advances hbuild).adds
      have hstate : r.state = q := congrArg Prod.snd hkey
      rw [← hkey, ← hstate]
      exact (hadds.new r hmem).resolve_left hnew

/-- A compiler with a rule for zeros, on the tape `1 0 0`. -/
def besideZeros : Compiler :=
  ofMachine (.start ⟨["1", "0", "0"], 0, "_", "q1", [⟨"0", "q1", "0", "q1", .right⟩]⟩
    ⟨[⟨"0", "q1", "0", "q1", .right⟩], by decide⟩)

/-- Behind a scan over zeros, a run over zeros in the old state goes on as before. -/
theorem compile_extends_table_besideZeros :
    ∃ c', besideZeros.compile
        (.seek { interior := ["0"], terminals := ["_"], direction := .right }) =
          (.ok (.single "_" "q3"), c') ∧
      besideZeros.machine.table.rules <+: c'.machine.table.rules ∧
      ({ besideZeros.machine with table := c'.machine.table, head := 1 }.steps true 2).1 =
        [.continues, .continues] ∧
      ∀ v q, c'.machine.table.lookup v q ≠ besideZeros.machine.table.lookup v q →
        (v, q) = ("1", "q1") ∨ besideZeros.states.isReserved q = false := by
  have hresult : (besideZeros.compile
      (.seek { interior := ["0"], terminals := ["_"], direction := .right })).1 =
        .ok (.single "_" "q3") := by decide +kernel
  obtain ⟨hrules, hsteps, hlookup⟩ := compile_extends_table (Prod.ext hresult rfl)
  have hzeros : ({ besideZeros.machine with head := 1 }.steps true 2).1 =
      [.continues, .continues] := by decide +kernel
  have hsame := hsteps { besideZeros.machine with head := 1 } 2 rfl (by rw [hzeros]; simp)
  refine ⟨_, Prod.ext hresult rfl, hrules, (congrArg Prod.fst hsame).trans hzeros, ?_⟩
  exact fun v q hne => (hlookup rfl v q hne).imp_left List.mem_singleton.mp

end Compiler

end TapeCompiler
