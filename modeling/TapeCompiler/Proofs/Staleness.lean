import TapeCompiler.Proofs.Paths

/-!
# Cursors guard compilation

Every instruction but a rule by hand goes on from the cursor, which has to be fresh and of one shape
(`Instruction.needs?`). `Build.Needs` says so of an operation. It is decided by what the operation
looks at first, so that it does not matter how often the cursor is set behind that.

A rule by hand makes the cursor stale, and only setting the cursor makes it fresh again. In between
every other instruction fails, and the table takes in nothing but rules that are offered by hand.
-/

namespace TapeCompiler

/-- A fresh cursor of the given shape. -/
structure Cursor.Fits (c : Cursor) (shape : Shape) : Prop where
  fresh : c.fresh = true
  shape : c.current.shape = shape

/-- The shape of the cursor from which an instruction goes on. A rule by hand needs no cursor. -/
def Instruction.needs? : Instruction → Option Shape
  | manual _ => none
  | move _ | moveAmong .. | halt | scan .. | seek _ | paint .. | erase _ | deliver .. | carry ..
  | copyBlock _ | moveBlock _ => some .single
  | join _ | moveEach _ | seekEach _ => some .branch
  | scanPairs .. | seekPairs _ => some .pairs

/-- The rule that a command offers by hand. -/
def Command.byHand? : Command → Option Rule
  | compile (.manual r) => some r
  | _ => none

theorem Instruction.needs?_eq_none {i : Instruction} (h : i.needs? = none) :
    ∃ r, i = .manual r := by
  cases i <;> cases h
  exact ⟨_, rfl⟩

theorem Command.byHand?_compile {i : Instruction} (h : i.needs? ≠ none) :
    (compile i).byHand? = none := by
  cases i with
  | manual r => exact absurd rfl h
  | _ => rfl

/-- The table with a rule added, unless the rule is refused. -/
def Table.offer (t : Table) (r : Rule) : Table :=
  match t.insert r with
  | .ok t' => t'
  | .error _ => t

/-! ## What operations need -/

namespace Build

variable {α β : Type} {shape : Shape}

/-- An operation that succeeds only from a fresh cursor of the given shape. -/
structure Needs (shape : Shape) (x : Build α) : Prop where
  fits : ∀ {c c' : Compiler} {a}, x c = .ok a c' → c.cursor.Fits shape

namespace Needs

/-- The first part of a sequence decides. -/
theorem bind {x : Build α} {f : α → Build β} (hx : Needs shape x) : Needs shape (x >>= f) where
  fits h := by
    obtain ⟨a, c₁, h₁, -⟩ := bind_eq_ok.mp h
    exact hx.fits h₁

/-- A first part that changes nothing leaves it to the second. -/
theorem behind {x : Build α} {f : α → Build β} (hx : ∀ {c c' a}, x c = .ok a c' → c = c')
    (hf : ∀ a, Needs shape (f a)) : Needs shape (x >>= f) where
  fits h := by
    obtain ⟨a, c₁, h₁, h⟩ := bind_eq_ok.mp h
    rw [hx h₁]
    exact (hf a).fits h

theorem atomic {x : Build α} (hx : Needs shape x) : Needs shape (atomic x) where
  fits h := hx.fits (atomic_eq_ok.mp h)

theorem of_throw (e : Error) : Needs shape (throw e : Build α) where
  fits h := by cases h

end Needs

theorem needs_single (operation : String) : Needs .single (single operation) where
  fits h := by
    rw [(cursor_of_single h).1]
    exact ⟨rfl, rfl⟩

theorem needs_branch (operation : String) : Needs .branch (branch operation) where
  fits h := by
    rw [(cursor_of_branch h).1]
    exact ⟨rfl, rfl⟩

theorem needs_pairs (operation : String) : Needs .pairs (pairs operation) where
  fits h := by
    rw [(cursor_of_pairs h).1]
    exact ⟨rfl, rfl⟩

theorem needs_move (m : Move) : Needs .single (move m) := (needs_single _).bind.atomic

theorem needs_moveAmong (m : Move) (values : List Symbol) : Needs .single (moveAmong m values) := by
  rw [moveAmong]
  split
  · exact .of_throw _
  · exact (needs_move m).bind.atomic

theorem needs_join (m : Move) : Needs .branch (join m) := (needs_branch _).bind.atomic

theorem needs_moveEach (m : BranchMove) : Needs .branch (moveEach m) := (needs_branch _).bind.atomic

theorem needs_halt : Needs .single halt := (needs_single _).bind.atomic

/-- The scan itself is checked before the cursor. -/
theorem needs_scan (s : Scan) (w : Edit) : Needs .single (scan s w) := by
  refine Needs.atomic (.behind (fun h => (ofExcept_eq_ok.mp h).2) fun _ => ?_)
  exact (needs_single _).bind

theorem needs_paint (s : Scan) (symbol : Option Symbol) : Needs .single (paint s symbol) := by
  refine .behind (fun h => ?_) fun filler => needs_scan s _
  cases h
  rfl

theorem needs_deliver (s : Scan) (value : Option Symbol) : Needs .single (deliver s value) :=
  (needs_scan s .keep).bind.atomic

theorem needs_carry (s : Scan) (replacement : Option Symbol) :
    Needs .single (carry s replacement) := by
  refine Needs.atomic ?_
  cases replacement with
  | none => exact (needs_scan s .keep).bind
  | some replacement => exact (needs_single _).bind

theorem needs_scanPairs (s : Scan) (w : Edit) : Needs .pairs (scanPairs s w) :=
  (needs_pairs _).bind.atomic

theorem needs_seekEach (s : Scan) : Needs .branch (seekEach s) := (needs_branch _).bind.atomic

theorem needs_transfer (l : Layout) (erase : Bool) : Needs .single (transfer l erase) :=
  (needs_single _).bind.atomic

end Build

theorem Instruction.needs_build {i : Instruction} {shape : Shape} (h : i.needs? = some shape) :
    Build.Needs shape i.build := by
  cases i <;> cases h
  case move m => exact (Build.needs_move m).bind
  case moveAmong m values => exact Build.needs_moveAmong m values
  case join m => exact Build.needs_join m
  case moveEach m => exact Build.needs_moveEach m
  case halt => exact Build.needs_halt
  case scan s w => exact (Build.needs_scan s w).bind
  case seek s => exact (Build.needs_scan s .keep).bind
  case paint s symbol => exact (Build.needs_paint s symbol).bind
  case erase s => exact (Build.needs_paint s none).bind
  case deliver s value => exact Build.needs_deliver s value
  case carry s replacement => exact Build.needs_carry s replacement
  case scanPairs s w => exact Build.needs_scanPairs s w
  case seekPairs s => exact Build.needs_scanPairs s .keep
  case seekEach s => exact Build.needs_seekEach s
  case copyBlock l => exact Build.needs_transfer l false
  case moveBlock l => exact Build.needs_transfer l true

/-! ## Stale cursors -/

namespace Compiler

variable {c c' : Compiler} {i : Instruction} {r : Rule}

/-- An instruction that needs a cursor fails on a stale one, and changes nothing. -/
theorem compile_of_stale (hc : c.cursor.fresh = false) (hi : i.needs? ≠ none) :
    ∃ e, c.compile i = (.error e, c) := by
  obtain ⟨shape, hshape⟩ := Option.ne_none_iff_exists'.mp hi
  rw [compile]
  cases h : i.build c with
  | ok _ c' =>
    have hfits := (Instruction.needs_build hshape).fits h
    rw [hfits.fresh] at hc
    cases hc
  | error e c' => exact ⟨e, by rw [i.atomic_build.error h]⟩

/-- What becomes of a rule by hand: it is taken in and the cursor is stale, or nothing happens. -/
theorem compile_manual_cases (c : Compiler) (r : Rule) :
    ((c.compile (.manual r)).2.cursor.fresh = false ∧
        c.machine.table.insert r = .ok (c.compile (.manual r)).2.machine.table) ∨
      ∃ e, c.machine.table.insert r = .error e ∧ c.compile (.manual r) = (.error e, c) := by
  rw [compile, Instruction.build]
  cases h : Build.manual r c with
  | ok _ c' =>
    obtain ⟨⟨⟩, c₁, hstale, hemit⟩ := Build.bind_eq_ok.mp (Build.atomic_eq_ok.mp h)
    cases hstale
    obtain ⟨table, hinsert, rfl⟩ := Build.emit_eq_ok.mp hemit
    exact .inl ⟨rfl, hinsert⟩
  | error e c' =>
    refine .inr ⟨e, ?_, by rw [(Build.atomic_manual r).error h]⟩
    obtain ⟨c₂, hfail, -⟩ := Build.atomic_eq_error.mp h
    obtain hstale | ⟨⟨⟩, c₁, hstale, hemit⟩ := Build.bind_eq_error.mp hfail
    · cases hstale
    · cases hstale
      rw [Build.emit_apply] at hemit
      cases hinsert : c.machine.table.insert r with
      | ok table =>
        rw [hinsert] at hemit
        cases hemit
      | error e' =>
        rw [hinsert] at hemit
        cases hemit
        rfl

/-- Nothing but setting the cursor makes a stale one fresh, and nothing but a rule by hand gets into
the table meanwhile. -/
theorem perform_of_stale (hc : c.cursor.fresh = false) {command : Command}
    (hset : ∀ current, command ≠ .setCursor current) :
    (c.perform command).2.cursor.fresh = false ∧
      (c.perform command).2.machine.table =
        command.byHand?.elim c.machine.table c.machine.table.offer := by
  cases command with
  | setCursor current => exact absurd rfl (hset current)
  | reserve values states => exact ⟨hc, rfl⟩
  | newState => exact ⟨hc, rfl⟩
  | newValue => exact ⟨hc, rfl⟩
  | run limit => exact ⟨hc, c.machine.table_run limit⟩
  | compile i =>
    by_cases hi : i.needs? = none
    · obtain ⟨r, rfl⟩ := Instruction.needs?_eq_none hi
      obtain ⟨hstale, hinsert⟩ | ⟨e, hinsert, hsame⟩ := c.compile_manual_cases r
      · exact ⟨hstale, by simp [Command.byHand?, Table.offer, hinsert, perform]⟩
      · simp [Command.byHand?, Table.offer, hinsert, perform, hsame, hc]
    · obtain ⟨e, he⟩ := compile_of_stale hc hi
      simp [perform, he, hc, Command.byHand?_compile hi]

/-- A stale cursor stays so until it is set. -/
theorem after_of_stale (hc : c.cursor.fresh = false) {history : List Command}
    (hset : ∀ current, .setCursor current ∉ history) :
    (c.after history).cursor.fresh = false ∧
      (c.after history).machine.table =
        (history.filterMap Command.byHand?).foldl Table.offer c.machine.table := by
  induction history generalizing c with
  | nil => exact ⟨hc, rfl⟩
  | cons command history ih =>
    obtain ⟨hstale, htable⟩ :=
      perform_of_stale hc fun current h => hset current (h ▸ List.mem_cons_self)
    obtain ⟨hafter, hrules⟩ := ih hstale fun current h => hset current (List.mem_cons_of_mem _ h)
    refine ⟨hafter, hrules.trans ?_⟩
    rw [htable]
    cases h : command.byHand? with
    | none => rw [List.filterMap_cons_none h, Option.elim_none]
    | some r => rw [List.filterMap_cons_some h, Option.elim_some, List.foldl_cons]

/-- **A cursor that is stale or of the wrong shape blocks compilation.** An instruction that needs a
cursor succeeds only from a fresh one of its own shape. So once a rule is added by hand, until the
cursor is set, every such instruction fails and changes nothing, whatever else is asked of the
compiler: the table is what it was behind the rule, with those rules added that were offered by hand
since and not refused. -/
theorem cursor_guards_compilation (c : Compiler) :
    (∀ i shape condition c', i.needs? = some shape → c.compile i = (.ok condition, c') →
      c.cursor.fresh = true ∧ c.cursor.current.shape = shape) ∧
    (∀ r condition c', c.compile (.manual r) = (.ok condition, c') →
      ∀ history : List Command, (∀ current, .setCursor current ∉ history) →
        (∀ i, i.needs? ≠ none →
          ∃ e, (c'.after history).compile i = (.error e, c'.after history)) ∧
        (c'.after history).machine.table =
          (history.filterMap Command.byHand?).foldl Table.offer c'.machine.table) := by
  constructor
  · intro i shape condition c' hi h
    have hfits := (Instruction.needs_build hi).fits (compile_eq_ok.mp h).1
    exact ⟨hfits.fresh, hfits.shape⟩
  · intro r condition c' h history hset
    have hstale : c'.cursor.fresh = false := by
      obtain ⟨hstale, -⟩ | ⟨e, -, he⟩ := c.compile_manual_cases r
      · rwa [h] at hstale
      · rw [he] at h
        cases h
    obtain ⟨hafter, htable⟩ := after_of_stale hstale hset
    exact ⟨fun i hi => compile_of_stale hafter hi, htable⟩

/-- A history that never sets the cursor: a move, two rules by hand of which the first contradicts
the rule for `1` in `q1`, and a step of the machine. -/
def unset : List Command :=
  [.compile (.move { action := .right }), .newState,
    .compile (.manual ⟨"1", "q1", "0", "q1", .left⟩),
    .compile (.manual ⟨"_", "q2", "_", "q2", .halt⟩), .run 1]

/-- The move and the first of the two rules are refused. Behind the history no halt can be compiled,
but it can as soon as the cursor is set. -/
theorem cursor_guards_compilation_unset :
    ∃ c c' condition, ofProgram ⟨["1"], 0, "_", "q1", []⟩ = .ok c ∧
      c.compile (.manual ⟨"1", "q1", "1", "q2", .right⟩) = (.ok condition, c') ∧
      (∀ i, i.needs? ≠ none → ∃ e, (c'.after unset).compile i = (.error e, c'.after unset)) ∧
      (c'.after unset).machine.table.rules =
        [⟨"1", "q1", "1", "q2", .right⟩, ⟨"_", "q2", "_", "q2", .halt⟩] ∧
      ∃ halted c'', (c'.after (unset ++ [.setCursor (.single "1" "q2")])).compile .halt =
        (.ok halted, c'') := by
  obtain ⟨c, hc⟩ : ∃ c, ofProgram ⟨["1"], 0, "_", "q1", []⟩ = .ok c := ⟨_, rfl⟩
  obtain ⟨condition, c', hmanual⟩ : ∃ condition c',
      c.compile (.manual ⟨"1", "q1", "1", "q2", .right⟩) = (.ok condition, c') := by
    cases hc
    exact ⟨_, _, rfl⟩
  obtain ⟨hblocks, htable⟩ :=
    (cursor_guards_compilation c).2 _ _ _ hmanual unset (by simp [unset])
  refine ⟨c, c', condition, hc, hmanual, hblocks, ?_, ?_⟩
  · rw [htable]
    cases hc
    cases hmanual
    rfl
  · cases hc
    cases hmanual
    exact ⟨_, _, rfl⟩

end Compiler

end TapeCompiler
