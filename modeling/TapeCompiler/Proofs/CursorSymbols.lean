import Mathlib.Control.Monad.Basic
import TapeCompiler.Proofs.Freshness
import TapeCompiler.Proofs.Progress

/-!
# The symbols of the cursor

Setting the cursor reserves its symbols, and so do all instructions that end by setting it. Three
instructions end by aiming it instead: a move, the joining of a branch, and the moves of a branch.
The rules they add reserve the symbols of these rules, but a value that is only supposed to be under
the head afterwards is in no rule. The joining of a branch without paths adds no rule at all, so
that even the state it names is not reserved.

`Loose` keeps account of these symbols along a history. What the cursor names is reserved or loose
(`Compiler.Covers`), hence a made-up symbol that the cursor names already is a loose one.
-/

namespace TapeCompiler

/-- Symbols that a cursor may name without their being reserved. -/
structure Loose where
  values : List Symbol := []
  states : List Symbol := []

/-- The symbols given for the paths of a branch. -/
def Spread.symbols : Spread → List Symbol
  | same s => [s]
  | each ss => ss

/-- The state that a target names. -/
def Target.named? : Target → Option Symbol
  | named s => some s
  | same => none
  | fresh => none

namespace Instruction

/-- What is loose after an instruction has been carried out, where `old` was loose before. -/
def loose (c : Compiler) (old : Loose) : Instruction → Loose
  | manual _ => old
  | move m => { values := m.expect.toList }
  | join m =>
    if c.cursor.current.states = [] then
      -- No rule is added: the value is the old one unless another is given.
      { values := ((m.expect <|> m.write).map ([·])).getD old.values
        states := (m.next.bind Target.named?).toList }
    else { values := m.expect.toList }
  | moveEach m => { values := (m.expect.map Spread.symbols).getD [] }
  | moveAmong .. | halt | scan .. | seek _ | paint .. | erase _ | deliver .. | carry ..
  | scanPairs .. | seekPairs _ | seekEach _ | copyBlock _ | moveBlock _ => {}

end Instruction

/-- What is loose after a command, where `old` was loose before. An instruction that fails leaves
the cursor alone. -/
def Command.loose (c : Compiler) (old : Loose) : Command → Loose
  | compile i =>
    match (c.compile i).1 with
    | .ok _ => i.loose c old
    | .error _ => old
  | setCursor _ => {}
  | reserve .. | newState | newValue | run _ => old

namespace Compiler

/-- The compiler after a history of commands. -/
def after (c : Compiler) : List Command → Compiler
  | [] => c
  | command :: history => (c.perform command).2.after history

/-- What is loose after a history of commands, where `old` was loose before. -/
def looseAfter (c : Compiler) (old : Loose) : List Command → Loose
  | [] => old
  | command :: history => (c.perform command).2.looseAfter (command.loose c old) history

/-- What the cursor names is reserved or loose. -/
structure Covers (c : Compiler) (loose : Loose) : Prop where
  values : ∀ v ∈ c.cursor.current.values, c.values.isReserved v = true ∨ v ∈ loose.values
  states : ∀ s ∈ c.cursor.current.states, c.states.isReserved s = true ∨ s ∈ loose.states

variable {c c' : Compiler} {old : Loose}

/-- Nothing is released as long as the cursor stays where it is. -/
theorem Covers.extends (hold : c.Covers old) (h : c.Extends c')
    (hcursor : c'.cursor.current = c.cursor.current) : c'.Covers old where
  values v hv := by
    rw [hcursor] at hv
    exact (hold.values v hv).imp_left (h.values v)
  states s hs := by
    rw [hcursor] at hs
    exact (hold.states s hs).imp_left (h.states s)

theorem covers_setCursor (c : Compiler) (condition : Condition) :
    (c.setCursor condition).Covers {} where
  values _ hv := .inl (NameSupply.isReserved_reserveAll.mpr (.inl hv))
  states _ hs := .inl (NameSupply.isReserved_reserveAll.mpr (.inl hs))

/-- A single cursor names one value and one state. -/
theorem covers_of_single {loose : Loose} {v s : Symbol} (hcursor : c.cursor.current = .single v s)
    (hv : c.values.isReserved v = true ∨ v ∈ loose.values)
    (hs : c.states.isReserved s = true ∨ s ∈ loose.states) : c.Covers loose where
  values x hx := by
    rw [hcursor] at hx
    rwa [List.mem_singleton.mp hx]
  states x hx := by
    rw [hcursor] at hx
    rwa [List.mem_singleton.mp hx]

theorem covers_ofMachine (m : Machine) : (ofMachine m).Covers {} :=
  covers_of_single rfl (.inl ((knowsMachine_ofMachine m).machine.read m.head))
    (.inl (isReserved_state_stateSupply m))

end Compiler

/-! ## Instructions that set the cursor -/

namespace Build

variable {α β : Type} {c c' : Compiler}

/-- An operation after which every symbol of the cursor is reserved. -/
structure Settles (x : Build α) : Prop where
  covers : ∀ {c c' : Compiler} {a}, x c = .ok a c' → c'.Covers {}

namespace Settles

/-- The last part of a sequence decides. -/
theorem bind {x : Build α} {f : α → Build β} (hf : ∀ a, Settles (f a)) : Settles (x >>= f) where
  covers h := by
    obtain ⟨a, c₁, -, h⟩ := bind_eq_ok.mp h
    exact (hf a).covers h

theorem bind_pure {x : Build α} (hx : Settles x) (f : α → β) :
    Settles (x >>= fun a => pure (f a)) where
  covers h := by
    obtain ⟨a, c₁, h₁, h⟩ := bind_eq_ok.mp h
    cases h
    exact hx.covers h₁

theorem atomic {x : Build α} (hx : Settles x) : Settles (atomic x) where
  covers h := hx.covers (atomic_eq_ok.mp h)

end Settles

theorem settles_setCursor (condition : Condition) : Settles (setCursor condition) where
  covers {c _ _} h := by
    cases h
    exact c.covers_setCursor condition

theorem settles_scan (s : Scan) (w : Edit) : Settles (scan s w) := by
  refine .atomic (.bind fun _ => .bind fun _ => .bind fun _ => .bind fun _ => .bind fun arrived =>
    .bind fun _ => ?_)
  exact (settles_setCursor _).bind_pure _

theorem settles_seek (s : Scan) : Settles (seek s) := settles_scan s .keep

theorem settles_paint (s : Scan) (symbol : Option Symbol) : Settles (paint s symbol) :=
  .bind fun _ => settles_scan s _

theorem settles_deliver (s : Scan) (value : Option Symbol) : Settles (deliver s value) := by
  refine .atomic ?_
  cases value with
  | none => exact (settles_seek s).bind_pure _
  | some value =>
    exact .bind fun _ => .bind fun _ => .bind fun _ => .bind fun _ => settles_setCursor _

theorem settles_carry (s : Scan) (replacement : Option Symbol) : Settles (carry s replacement) := by
  refine .atomic ?_
  cases replacement with
  | none => exact (settles_seek s).bind_pure _
  | some replacement => exact .bind fun _ => .bind fun _ => settles_deliver s _

theorem settles_scanPairs (s : Scan) (w : Edit) : Settles (scanPairs s w) :=
  .atomic (.bind fun _ => .bind fun _ => .bind fun _ => settles_setCursor _)

theorem settles_seekEach (s : Scan) : Settles (seekEach s) :=
  .atomic (.bind fun _ => .bind fun _ => .bind fun _ => settles_setCursor _)

theorem settles_restoreBlock (l : Layout) (origin : Symbol) (placeholders restored : List Symbol) :
    Settles (restoreBlock l origin placeholders restored) :=
  .bind fun _ => .bind fun _ => .bind fun _ => .bind fun _ => settles_setCursor _

theorem settles_transfer (l : Layout) (erase : Bool) : Settles (transfer l erase) := by
  refine .atomic (.bind fun _ => .bind fun _ => .bind fun _ => .bind fun _ => .bind fun _ => ?_)
  refine .bind fun _ => .bind fun _ => .bind fun _ => .bind fun _ => .bind fun _ => ?_
  exact .bind fun _ => settles_restoreBlock l _ _ _

/-! ## Instructions that aim it -/

/-- A move adds a rule from the situation of the cursor, and aims the cursor behind it. -/
theorem exists_rule_of_move {m : Move} {next : Symbol} (h : move m c = .ok next c') :
    ∃ v s, ⟨v, s, m.write.getD v, next, m.action⟩ ∈ c'.machine.table.rules ∧
      c'.cursor.current = .single (m.expect.getD (m.write.getD v)) next := by
  rw [move] at h
  obtain ⟨⟨v, s⟩, c₁, -, h⟩ := bind_eq_ok.mp (atomic_eq_ok.mp h)
  obtain ⟨next', c₂, -, h⟩ := bind_eq_ok.mp h
  obtain ⟨⟨⟩, c₃, he, h⟩ := bind_eq_ok.mp h
  obtain ⟨⟨⟩, c₄, ha, h⟩ := bind_eq_ok.mp h
  cases ha
  cases h
  exact ⟨v, s, (emit_ok he _).mpr (.inr rfl), rfl⟩

/-- Behind a rule, only a value that is supposed there may be loose. -/
theorem covers_behind_rule {m : Move} {v s next : Symbol} (hknows : c.KnowsTable)
    (hrule : ⟨v, s, m.write.getD v, next, m.action⟩ ∈ c.machine.table.rules)
    (hcursor : c.cursor.current = .single (m.expect.getD (m.write.getD v)) next) :
    c.Covers { values := m.expect.toList } := by
  have hr := hknows _ hrule
  refine Compiler.covers_of_single hcursor ?_ (.inl hr.next)
  cases m.expect with
  | none => exact .inl hr.write
  | some x => exact .inr (by simp)

/-- The values after the move are reserved by hand, the state by the rule of the move. -/
theorem covers_moveAmong {m : Move} {values : List Symbol}
    (h : moveAmong m values c = .ok () c') (hknows : c'.KnowsTable) : c'.Covers {} := by
  rw [moveAmong] at h
  split at h
  · cases h
  · obtain ⟨next, c₁, hm, h⟩ := bind_eq_ok.mp (atomic_eq_ok.mp h)
    obtain ⟨⟨⟩, c₂, hr, h⟩ := bind_eq_ok.mp h
    cases hr
    cases h
    obtain ⟨v, s, hrule, -⟩ := exists_rule_of_move hm
    refine ⟨fun x hx => .inl (NameSupply.isReserved_reserveAll.mpr (.inl hx)), fun x hx => ?_⟩
    obtain rfl := List.eq_of_mem_replicate hx
    exact .inl (hknows _ hrule).next

theorem covers_halt (h : halt c = .ok () c') (hknows : c'.KnowsTable) : c'.Covers {} := by
  obtain ⟨⟨v, s⟩, c₁, hs, he⟩ := bind_eq_ok.mp (atomic_eq_ok.mp h)
  obtain ⟨hcursor, rfl⟩ := cursor_of_single hs
  have hr := hknows _ ((emit_ok he _).mpr (.inr rfl))
  obtain ⟨table, -, rfl⟩ := emit_eq_ok.mp he
  exact Compiler.covers_of_single (congrArg Cursor.current hcursor) (.inl hr.value) (.inl hr.state)

/-- The paths come together in a named state or in a made-up one. -/
theorem joinTarget_ok {t : Target} {next : Symbol} (h : joinTarget t c = .ok next c') :
    t = .named next ∨ c'.states.isReserved next = true := by
  cases t with
  | same => cases h
  | fresh =>
    cases h
    exact .inr (NameSupply.isReserved_snd_pop.mpr (.inl rfl))
  | named s =>
    cases h
    exact .inl rfl

/-- Joining a branch adds a rule for each path, and aims the cursor at the state it leads to. -/
theorem exists_rules_of_join {m : Move} (h : join m c = .ok () c') :
    ∃ v states next, c.cursor.current = .branch v states ∧
      (∀ s ∈ states, ⟨v, s, m.write.getD v, next, m.action⟩ ∈ c'.machine.table.rules) ∧
      c'.cursor.current = .single (m.expect.getD (m.write.getD v)) next ∧
      (m.next = some (.named next) ∨ c'.states.isReserved next = true) := by
  obtain ⟨⟨v, states⟩, c₁, hb, h⟩ := bind_eq_ok.mp (atomic_eq_ok.mp h)
  obtain ⟨hcursor, rfl⟩ := cursor_of_branch hb
  obtain ⟨next, c₂, ht, h⟩ := bind_eq_ok.mp h
  obtain ⟨⟨⟩, c₃, he, h⟩ := bind_eq_ok.mp h
  cases h
  refine ⟨v, states, next, congrArg Cursor.current hcursor, fun s hs => ?_, rfl, ?_⟩
  · exact (emitAll_ok he _).mpr (.inr (List.mem_map.mpr ⟨s, hs, rfl⟩))
  · rcases joinTarget_ok ht with hnamed | hmade
    · cases hn : m.next with
      | none =>
        rw [hn] at hnamed
        cases hnamed
      | some t =>
        rw [hn, Option.getD_some] at hnamed
        exact .inl (congrArg some hnamed)
    · exact .inr (((growing_emitAll _).ok he).states _ hmade)

/-- Joining a branch without paths adds no rule, but it still aims the cursor at the target. -/
theorem covers_join {m : Move} {old : Loose} (h : join m c = .ok () c') (hknows : c'.KnowsTable)
    (hold : c.Covers old) : c'.Covers ((Instruction.join m).loose c old) := by
  obtain ⟨v, states, next, hcurrent, hrules, hcursor, hnext⟩ := exists_rules_of_join h
  simp only [Instruction.loose, hcurrent, Condition.states]
  cases states with
  | nil =>
    rw [if_pos rfl]
    refine Compiler.covers_of_single hcursor ?_ ?_
    · cases m.expect with
      | some x => exact .inr (by simp)
      | none =>
        cases m.write with
        | some w => exact .inr (by simp)
        | none =>
          have hv := hold.values v (by rw [hcurrent]; exact List.mem_singleton_self v)
          exact hv.imp_left (((atomic_join m).ok h).values v)
    · rcases hnext with hnamed | hmade
      · exact .inr (by simp [hnamed, Target.named?])
      · exact .inl hmade
  | cons s states =>
    rw [if_neg (List.cons_ne_nil s states)]
    exact covers_behind_rule hknows (hrules s List.mem_cons_self) hcursor

theorem mem_symbols_of_expand {spread : Spread} {n : Nat} {part : BranchPart} {xs : List Symbol}
    (h : spread.expand n part = .ok xs) {x : Symbol} (hx : x ∈ xs) : x ∈ spread.symbols := by
  cases spread with
  | same s =>
    cases h
    exact List.mem_singleton.mpr (List.eq_of_mem_replicate hx)
  | each ss =>
    obtain ⟨rfl, -⟩ := expand_each_ok h
    exact hx

end Build

theorem Condition.values_ofPaths_subset (expected states : List Symbol) :
    (ofPaths expected states).values ⊆ expected := by
  cases expected with
  | nil => exact List.Subset.refl []
  | cons v vs =>
    rw [ofPaths]
    split
    · exact List.cons_subset_cons v (List.nil_subset vs)
    · exact List.Subset.refl _

theorem Condition.states_ofPaths (expected states : List Symbol) :
    (ofPaths expected states).states = states := by
  cases expected with
  | nil => rfl
  | cons v vs =>
    rw [ofPaths]
    split <;> rfl

namespace Build

variable {c c' : Compiler}

/-- Each path has a rule of its own, which reserves what is written on it and where it leads. -/
theorem covers_moveEach {m : BranchMove} (h : moveEach m c = .ok () c') (hknows : c'.KnowsTable) :
    c'.Covers { values := (m.expect.map Spread.symbols).getD [] } := by
  obtain ⟨⟨v, states⟩, c₁, hb, -⟩ := bind_eq_ok.mp (atomic_eq_ok.mp h)
  obtain ⟨writes, expected, nexts, hwrites, hexpected, hlength, hcursor, hrules⟩ :=
    moveEach_ok (cursor_of_branch hb).1 h
  have hlength' := length_of_expand hwrites
  have hpath : ∀ i < states.length, ∃ s w next, writes[i]? = some w ∧ nexts[i]? = some next ∧
      c'.Knows ⟨v, s, w, next, m.action⟩ := by
    intro i hi
    refine ⟨states[i], writes[i], nexts[i], List.getElem?_eq_getElem _, List.getElem?_eq_getElem _,
      hknows _ (hrules i _ _ _ ?_ ?_ ?_)⟩ <;> exact List.getElem?_eq_getElem _
  constructor
  · intro x hx
    rw [hcursor] at hx
    have hx := Condition.values_ofPaths_subset _ _ hx
    cases hm : m.expect with
    | some spread =>
      rw [hm] at hexpected
      exact .inr (mem_symbols_of_expand hexpected hx)
    | none =>
      rw [hm] at hexpected
      obtain ⟨rfl, -⟩ := expand_each_ok hexpected
      obtain ⟨i, hi⟩ := List.mem_iff_getElem?.mp hx
      have hlt := (List.getElem?_eq_some_iff.mp hi).1
      obtain ⟨s, w, next, hw, -, hr⟩ := hpath i (by omega)
      rw [hi] at hw
      cases hw
      exact .inl hr.write
  · intro x hx
    rw [hcursor] at hx
    have hx : x ∈ nexts := by
      rw [← Condition.states_ofPaths expected nexts]
      exact hx
    obtain ⟨i, hi⟩ := List.mem_iff_getElem?.mp hx
    have hlt := (List.getElem?_eq_some_iff.mp hi).1
    obtain ⟨s, w, next, -, hnext, hr⟩ := hpath i (by omega)
    rw [hi] at hnext
    cases hnext
    exact .inl hr.next

/-- A rule by hand leaves the cursor where it is, only stale. -/
theorem covers_manual {r : Rule} {old : Loose} (h : manual r c = .ok () c') (hold : c.Covers old) :
    c'.Covers old := by
  refine hold.extends ((atomic_manual r).ok h) ?_
  obtain ⟨⟨⟩, c₁, hs, he⟩ := bind_eq_ok.mp (atomic_eq_ok.mp h)
  cases hs
  obtain ⟨table, -, rfl⟩ := emit_eq_ok.mp he
  rfl

end Build

/-! ## Histories -/

theorem Instruction.covers {c c' : Compiler} {old : Loose} (i : Instruction)
    (h : i.build c = .ok () c') (hknows : c'.KnowsTable) (hold : c.Covers old) :
    c'.Covers (i.loose c old) := by
  cases i with
  | manual r => exact Build.covers_manual h hold
  | move m =>
    obtain ⟨next, c₁, hm, h⟩ := Build.bind_eq_ok.mp h
    cases h
    obtain ⟨v, s, hrule, hcursor⟩ := Build.exists_rule_of_move hm
    exact Build.covers_behind_rule hknows hrule hcursor
  | moveAmong m values => exact Build.covers_moveAmong h hknows
  | join m => exact Build.covers_join h hknows hold
  | moveEach m => exact Build.covers_moveEach h hknows
  | halt => exact Build.covers_halt h hknows
  | scan s w => exact ((Build.settles_scan s w).bind_pure _).covers h
  | seek s => exact ((Build.settles_seek s).bind_pure _).covers h
  | paint s symbol => exact ((Build.settles_paint s symbol).bind_pure _).covers h
  | erase s => exact ((Build.settles_paint s none).bind_pure _).covers h
  | deliver s value => exact (Build.settles_deliver s value).covers h
  | carry s replacement => exact (Build.settles_carry s replacement).covers h
  | scanPairs s w => exact (Build.settles_scanPairs s w).covers h
  | seekPairs s => exact (Build.settles_scanPairs s .keep).covers h
  | seekEach s => exact (Build.settles_seekEach s).covers h
  | copyBlock l => exact (Build.settles_transfer l false).covers h
  | moveBlock l => exact (Build.settles_transfer l true).covers h

namespace Compiler

variable {c : Compiler} {old : Loose}

theorem Covers.perform (hold : c.Covers old) (hc : c.KnowsTable) (command : Command) :
    (c.perform command).2.Covers (command.loose c old) := by
  cases command with
  | compile i =>
    have hknows := hc.extends (c.extends_compile i)
    simp only [Compiler.perform, Command.loose, compile] at hknows ⊢
    cases h : i.build c with
    | ok _ c' =>
      rw [h] at hknows
      exact i.covers h hknows hold
    | error e c' =>
      obtain rfl := i.atomic_build.error h
      exact hold
  | setCursor condition => exact c.covers_setCursor condition
  | reserve values states => exact hold.extends (c.extends_reserve values states) rfl
  | newState => exact hold.extends (Build.growing_newState.ok (a := c.states.pop.1) rfl) rfl
  | newValue => exact hold.extends (Build.growing_newValue.ok (a := c.values.pop.1) rfl) rfl
  | run limit => exact ⟨hold.values, hold.states⟩

theorem Covers.after (hold : c.Covers old) (hc : c.KnowsTable) (history : List Command) :
    (c.after history).Covers (c.looseAfter old history) := by
  induction history generalizing c old with
  | nil => exact hold
  | cons command history ih => exact ih (hold.perform hc command) (hc.perform command)

/-- A made-up value that the cursor names is loose. -/
theorem Covers.mem_of_newValue (h : c.Covers old) {v : Symbol}
    (hnew : (c.perform .newValue).1 = .ok (.symbol v)) (hv : v ∈ c.cursor.current.values) :
    v ∈ old.values := by
  cases hnew
  refine (h.values _ hv).resolve_left ?_
  rw [c.values.isReserved_pop]
  exact Bool.false_ne_true

/-- A made-up state that the cursor names is loose. -/
theorem Covers.mem_of_newState (h : c.Covers old) {s : Symbol}
    (hnew : (c.perform .newState).1 = .ok (.symbol s)) (hs : s ∈ c.cursor.current.states) :
    s ∈ old.states := by
  cases hnew
  refine (h.states _ hs).resolve_left ?_
  rw [c.states.isReserved_pop]
  exact Bool.false_ne_true

/-- Whatever is asked of a compiler, what its cursor names is reserved or loose, and nothing else
that the cursor names is ever made up. -/
theorem cursor_reserved_or_loose (m : Machine) (history : List Command) :
    ((ofMachine m).after history).Covers ((ofMachine m).looseAfter {} history) ∧
      (∀ v, (((ofMachine m).after history).perform .newValue).1 = .ok (.symbol v) →
        v ∈ ((ofMachine m).after history).cursor.current.values →
          v ∈ ((ofMachine m).looseAfter {} history).values) ∧
      ∀ s, (((ofMachine m).after history).perform .newState).1 = .ok (.symbol s) →
        s ∈ ((ofMachine m).after history).cursor.current.states →
          s ∈ ((ofMachine m).looseAfter {} history).states := by
  have hcovers := (covers_ofMachine m).after (knowsTable_ofMachine m) history
  exact ⟨hcovers, fun v => hcovers.mem_of_newValue, fun s => hcovers.mem_of_newState⟩

/-- A machine on a cell with `1`. -/
def onOne : Machine := .start ⟨["1"], 0, "_", "q1", []⟩ .empty

/-- **The cursor may name symbols that are made up later.** A value that is supposed under the head
after a move is the next one to be made up, and so is the state in which a branch without paths is
joined. -/
theorem cursor_symbols_made_up :
    Machine.ofProgram ⟨["1"], 0, "_", "q1", []⟩ = .ok onOne ∧
    (∃ c, c = (ofMachine onOne).after
        [.compile (.move { action := .right, expect := some "a" })] ∧
      c.cursor = .ofCondition (.single "a" "q1") ∧ c.values.isReserved "a" = false ∧
      (c.perform .newValue).1 = .ok (.symbol "a")) ∧
    ∃ c, c = (ofMachine onOne).after [.setCursor (.branch "1" []),
        .compile (.join { action := .stay, next := some (.named "q2") })] ∧
      c.cursor = .ofCondition (.single "1" "q2") ∧ c.states.isReserved "q2" = false ∧
      (c.perform .newState).1 = .ok (.symbol "q2") := by
  refine ⟨rfl, ⟨_, rfl, rfl, ?_, ?_⟩, ⟨_, rfl, rfl, ?_, ?_⟩⟩ <;> decide +kernel

end Compiler

end TapeCompiler
