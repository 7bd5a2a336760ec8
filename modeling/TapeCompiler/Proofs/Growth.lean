import TapeCompiler.Compiler.Command
import TapeCompiler.Proofs.Insertion
import TapeCompiler.Proofs.Reserved

/-!
# Operations only add, and failures leave nothing behind

Whatever an operation of a compiler does, and whether it ends well or not, it only adds: rules
behind those of the table, and reserved symbols. `Compiler.Extends` says so of two compilers, and
`Build.Growing` of an operation; it holds of every operation because it holds of the few from which
they are built and is kept by sequence and by rolling back.

Rolling back is therefore exact: dropping the rules behind the old ones gives back the old table,
and nothing else of the machine has been touched. The main result is that an instruction that fails
leaves the compiler as it was.
-/

namespace TapeCompiler

namespace Compiler

/-- Whether all four symbols of a rule are reserved. -/
structure Knows (c : Compiler) (r : Rule) : Prop where
  value : c.values.isReserved r.value = true
  write : c.values.isReserved r.write = true
  state : c.states.isReserved r.state = true
  next : c.states.isReserved r.next = true

/-- What an operation does to a compiler at most: of the machine only the table changes, rules are
added behind the old ones and their symbols are reserved, and what was reserved stays so. -/
structure Extends (c c' : Compiler) : Prop where
  machine : c'.machine = { c.machine with table := c'.machine.table }
  rules : c.machine.table.rules <+: c'.machine.table.rules
  states : ∀ x, c.states.isReserved x = true → c'.states.isReserved x = true
  values : ∀ x, c.values.isReserved x = true → c'.values.isReserved x = true
  added : ∀ r ∈ c'.machine.table.rules, r ∈ c.machine.table.rules ∨ c'.Knows r

namespace Extends

variable {c c' c'' : Compiler}

theorem knows (h : c.Extends c') {r : Rule} (hr : c.Knows r) : c'.Knows r :=
  ⟨h.values _ hr.value, h.values _ hr.write, h.states _ hr.state, h.states _ hr.next⟩

/-- An operation that leaves the machine alone and releases no symbol. -/
theorem of_machine_eq (hm : c'.machine = c.machine)
    (hs : ∀ x, c.states.isReserved x = true → c'.states.isReserved x = true)
    (hv : ∀ x, c.values.isReserved x = true → c'.values.isReserved x = true) : c.Extends c' := by
  have hrules : c.machine.table.rules = c'.machine.table.rules := by rw [hm]
  refine ⟨by rw [hm], hrules ▸ List.prefix_refl _, hs, hv, ?_⟩
  intro r hr
  rw [hm] at hr
  exact .inl hr

theorem refl (c : Compiler) : c.Extends c := of_machine_eq rfl (fun _ => id) fun _ => id

theorem trans (h : c.Extends c') (h' : c'.Extends c'') : c.Extends c'' where
  machine := by rw [h'.machine, h.machine]
  rules := h.rules.trans h'.rules
  states x hx := h'.states x (h.states x hx)
  values x hx := h'.values x (h.values x hx)
  added := by
    intro r hr
    rcases h'.added r hr with hr | hr
    · exact (h.added r hr).imp_right h'.knows
    · exact .inr hr

theorem subset (h : c.Extends c') {rules : List Rule} (hS : c'.machine.table.rules ⊆ rules) :
    c.machine.table.rules ⊆ rules :=
  List.Subset.trans h.rules.subset hS

/-- Rolling back undoes whatever has been added. -/
theorem rollback_eq (h : c.Extends c') : c.rollback c' = c := by
  have ht : c'.machine.truncateRules c.machine.table.size = c.machine := by
    rw [Machine.truncateRules, Table.truncate_of_prefix h.rules, h.machine]
  rw [rollback, ht]

end Extends

theorem extends_reserve (c : Compiler) (values states : List Symbol) :
    c.Extends (c.reserve values states) := by
  refine .of_machine_eq rfl ?_ ?_
  · intro x hx
    exact NameSupply.isReserved_reserveAll.mpr (.inr hx)
  · intro x hx
    exact NameSupply.isReserved_reserveAll.mpr (.inr hx)

theorem extends_cursor (c : Compiler) (cursor : Cursor) : c.Extends { c with cursor } :=
  .of_machine_eq rfl (fun _ => id) fun _ => id

theorem extends_setCursor (c : Compiler) (condition : Condition) :
    c.Extends (c.setCursor condition) :=
  (c.extends_reserve _ _).trans (extends_cursor _ _)

end Compiler

namespace Build

variable {α β : Type} {c c' c'' : Compiler} {e : Error}

/-- A sequence succeeds if both its parts do, the second from where the first ends. -/
theorem bind_eq_ok {x : Build α} {f : α → Build β} {b : β} :
    (x >>= f) c = .ok b c'' ↔ ∃ a c', x c = .ok a c' ∧ f a c' = .ok b c'' := by
  change EStateM.bind x f c = .ok b c'' ↔ _
  unfold EStateM.bind
  constructor
  · intro h
    split at h
    · rename_i a c' hx
      exact ⟨a, c', hx, h⟩
    · cases h
  · rintro ⟨a, c', hx, hf⟩
    rw [hx]
    exact hf

/-- A sequence fails if its first part does, or its second from where the first ends. -/
theorem bind_eq_error {x : Build α} {f : α → Build β} :
    (x >>= f) c = .error e c'' ↔
      x c = .error e c'' ∨ ∃ a c', x c = .ok a c' ∧ f a c' = .error e c'' := by
  change EStateM.bind x f c = .error e c'' ↔ _
  unfold EStateM.bind
  constructor
  · intro h
    split at h
    · rename_i a c' hx
      exact .inr ⟨a, c', hx, h⟩
    · rename_i e' c' hx
      cases h
      exact .inl hx
  · rintro (hx | ⟨a, c', hx, hf⟩)
    · rw [hx]
    · rw [hx]
      exact hf

theorem atomic_eq_ok {x : Build α} {a : α} : atomic x c = .ok a c' ↔ x c = .ok a c' := by
  rw [atomic]
  cases x c with
  | ok a c' => simp
  | error e c' => simp

theorem atomic_eq_error {x : Build α} :
    atomic x c = .error e c' ↔ ∃ c'', x c = .error e c'' ∧ c.rollback c'' = c' := by
  rw [atomic]
  cases x c with
  | ok a c' => simp
  | error e' c'' => simp [and_assoc]

/-- An operation that only adds, however it ends. -/
structure Growing (x : Build α) : Prop where
  ok : ∀ {c c' : Compiler} {a}, x c = .ok a c' → c.Extends c'
  error : ∀ {c c' : Compiler} {e}, x c = .error e c' → c.Extends c'

namespace Growing

/-- An operation that does not change the compiler. -/
theorem of_unchanged {x : Build α} (hok : ∀ {c c' a}, x c = .ok a c' → c' = c)
    (herror : ∀ {c c' e}, x c = .error e c' → c' = c) : Growing x where
  ok h := hok h ▸ .refl _
  error h := herror h ▸ .refl _

theorem of_pure (a : α) : Growing (pure a : Build α) :=
  of_unchanged (fun h => by cases h; rfl) fun h => by cases h

theorem of_throw (e : Error) : Growing (throw e : Build α) :=
  of_unchanged (fun h => by cases h) fun h => by cases h; rfl

theorem of_get : Growing (get : Build Compiler) :=
  of_unchanged (fun h => by cases h; rfl) fun h => by cases h

theorem of_ofExcept (result : Except Error α) : Growing (ofExcept result) := by
  cases result with
  | ok a => exact of_pure a
  | error e => exact of_throw e

theorem of_modifyGet {f : Compiler → α × Compiler} (hf : ∀ c : Compiler, c.Extends (f c).2) :
    Growing (modifyGet f : Build α) where
  ok h := by cases h; exact hf _
  error h := by cases h

theorem of_modify {f : Compiler → Compiler} (hf : ∀ c : Compiler, c.Extends (f c)) :
    Growing (modify f : Build Unit) :=
  of_modifyGet hf

theorem bind {x : Build α} {f : α → Build β} (hx : Growing x) (hf : ∀ a, Growing (f a)) :
    Growing (x >>= f) where
  ok h := by
    obtain ⟨a, c', hx', hf'⟩ := bind_eq_ok.mp h
    exact (hx.ok hx').trans ((hf a).ok hf')
  error h := by
    rcases bind_eq_error.mp h with hx' | ⟨a, c', hx', hf'⟩
    · exact hx.error hx'
    · exact (hx.ok hx').trans ((hf a).error hf')

end Growing

/-- An operation that only adds, and changes nothing if it fails. -/
structure Atomic (x : Build α) : Prop where
  ok : ∀ {c c' : Compiler} {a}, x c = .ok a c' → c.Extends c'
  error : ∀ {c c' : Compiler} {e}, x c = .error e c' → c' = c

theorem Atomic.growing {x : Build α} (hx : Atomic x) : Growing x where
  ok := hx.ok
  error h := hx.error h ▸ .refl _

/-- Rolling back makes an operation one that changes nothing if it fails, since what it has done up
to then has only added. -/
theorem Growing.atomic {x : Build α} (hx : Growing x) : Atomic (atomic x) where
  ok h := hx.ok (atomic_eq_ok.mp h)
  error h := by
    obtain ⟨c'', hx', rfl⟩ := atomic_eq_error.mp h
    exact (hx.error hx').rollback_eq

theorem Atomic.of_throw (e : Error) : Atomic (throw e : Build α) where
  ok h := by cases h
  error h := by cases h; rfl

/-- Giving another answer, or none, does not matter. -/
theorem Atomic.bind_pure {x : Build α} (hx : Atomic x) (f : α → β) :
    Atomic (x >>= fun a => pure (f a)) where
  ok := (hx.growing.bind fun _ => .of_pure _).ok
  error h := by
    rcases bind_eq_error.mp h with h | ⟨a, c'', -, h⟩
    · exact hx.error h
    · cases h

/-! ## The parts of an operation -/

theorem growing_current : Growing current := .bind .of_get fun _ => .of_pure _

theorem growing_blank : Growing blank := .bind .of_get fun _ => .of_pure _

theorem growing_single (operation : String) : Growing (single operation) :=
  .bind .of_get fun _ => .of_ofExcept _

theorem growing_branch (operation : String) : Growing (branch operation) :=
  .bind .of_get fun _ => .of_ofExcept _

theorem growing_pairs (operation : String) : Growing (pairs operation) :=
  .bind .of_get fun _ => .of_ofExcept _

theorem growing_newState : Growing newState := by
  refine .of_modifyGet fun c => .of_machine_eq rfl ?_ fun _ => id
  intro x hx
  exact NameSupply.isReserved_snd_pop.mpr (.inr hx)

theorem growing_newStates (n : Nat) : Growing (newStates n) := by
  refine .of_modifyGet fun c => .of_machine_eq rfl ?_ fun _ => id
  intro x hx
  exact NameSupply.isReserved_snd_take.mpr (.inr hx)

theorem growing_newValue : Growing newValue := by
  refine .of_modifyGet fun c => .of_machine_eq rfl (fun _ => id) ?_
  intro x hx
  exact NameSupply.isReserved_snd_pop.mpr (.inr hx)

theorem growing_newValues (n : Nat) : Growing (newValues n) := by
  refine .of_modifyGet fun c => .of_machine_eq rfl (fun _ => id) ?_
  intro x hx
  exact NameSupply.isReserved_snd_take.mpr (.inr hx)

theorem growing_reserve (values states : List Symbol) : Growing (reserve values states) :=
  .of_modify fun c => c.extends_reserve values states

theorem growing_aim (condition : Condition) : Growing (aim condition) :=
  .of_modify fun c => c.extends_cursor (.ofCondition condition)

theorem growing_setCursor (condition : Condition) : Growing (setCursor condition) :=
  .of_modify fun c => c.extends_setCursor condition

/-- Adding a rule reserves its symbols and puts the rule into the table. -/
theorem emit_apply (r : Rule) (c : Compiler) :
    emit r c =
      match c.machine.table.insert r with
      | .ok table =>
        .ok () { c.reserve [r.value, r.write] [r.state, r.next] with
          machine := { c.machine with table } }
      | .error e => .error e (c.reserve [r.value, r.write] [r.state, r.next]) := by
  have hadd : (c.reserve [r.value, r.write] [r.state, r.next]).machine.addRule r =
      (c.machine.table.insert r).map fun table => { c.machine with table } := by
    change (c.machine.table.insert r >>= _) = _
    cases c.machine.table.insert r <;> rfl
  change EStateM.bind (ofExcept ((c.reserve _ _).machine.addRule r)) _ (c.reserve _ _) = _
  rw [hadd]
  cases c.machine.table.insert r <;> rfl

theorem emit_eq_ok {r : Rule} :
    emit r c = .ok () c' ↔
      ∃ table, c.machine.table.insert r = .ok table ∧
        c' = { c.reserve [r.value, r.write] [r.state, r.next] with
          machine := { c.machine with table } } := by
  rw [emit_apply]
  cases c.machine.table.insert r with
  | ok table => simp [eq_comm]
  | error e => simp

theorem growing_emit (r : Rule) : Growing (emit r) where
  ok {c c' _} h := by
    obtain ⟨table, ht, rfl⟩ := emit_eq_ok.mp h
    have hr := c.extends_reserve [r.value, r.write] [r.state, r.next]
    refine ⟨rfl, Table.prefix_of_insert ht, hr.states, hr.values, ?_⟩
    intro r' hr'
    rcases (Table.mem_of_insert ht).mp hr' with hr' | rfl
    · exact .inl hr'
    · right
      constructor <;> exact NameSupply.isReserved_reserveAll.mpr (.inl (by simp))
  error {c c' _} h := by
    rw [emit_apply] at h
    cases ht : c.machine.table.insert r with
    | ok table =>
      rw [ht] at h
      cases h
    | error e =>
      rw [ht] at h
      cases h
      exact c.extends_reserve _ _

theorem growing_emitAll (rs : List Rule) : Growing (emitAll rs) := by
  induction rs with
  | nil => exact .of_pure ()
  | cons r rs ih => exact .bind (growing_emit r) fun _ => ih

/-! ## The operations -/

theorem atomic_manual (r : Rule) : Atomic (manual r) := by
  refine Growing.atomic (.bind (.of_modify fun c => ?_) fun _ => growing_emit r)
  exact c.extends_cursor c.cursor.staled

theorem growing_target (state : Symbol) (t : Target) : Growing (target state t) := by
  cases t with
  | same => exact .of_pure state
  | fresh => exact growing_newState
  | named s => exact .of_pure s

theorem atomic_move (m : Move) : Atomic (move m) := by
  refine Growing.atomic (.bind (growing_single _) fun (value, state) => ?_)
  refine .bind (growing_target _ _) fun next => .bind (growing_emit _) fun _ => ?_
  exact .bind (growing_aim _) fun _ => .of_pure next

theorem atomic_moveAmong (m : Move) (values : List Symbol) : Atomic (moveAmong m values) := by
  rw [moveAmong]
  split
  · exact .of_throw _
  · refine Growing.atomic (.bind (atomic_move m).growing fun next => ?_)
    exact .bind (growing_reserve _ _) fun _ => growing_aim _

theorem growing_joinTarget (t : Target) : Growing (joinTarget t) := by
  cases t with
  | same => exact .bind growing_current fun _ => .of_throw _
  | fresh => exact growing_newState
  | named s => exact .of_pure s

theorem atomic_join (m : Move) : Atomic (join m) := by
  refine Growing.atomic (.bind (growing_branch _) fun (value, states) => ?_)
  refine .bind (growing_joinTarget _) fun next => ?_
  exact .bind (growing_emitAll _) fun _ => growing_aim _

theorem growing_targets (states : List Symbol) (t : Targets) : Growing (targets states t) := by
  cases t with
  | same => exact .of_pure states
  | fresh => exact growing_newStates _
  | named ss => exact .of_ofExcept _

theorem atomic_moveEach (m : BranchMove) : Atomic (moveEach m) := by
  refine Growing.atomic (.bind (growing_branch _) fun (value, states) => ?_)
  refine .bind (.of_ofExcept _) fun writes => .bind (.of_ofExcept _) fun expected => ?_
  refine .bind (growing_targets _ _) fun nexts => ?_
  exact .bind (growing_emitAll _) fun _ => growing_aim _

theorem atomic_halt : Atomic halt :=
  Growing.atomic (.bind (growing_single _) fun (_, _) => growing_emit _)

theorem atomic_scan (s : Scan) (w : Edit) : Atomic (scan s w) := by
  refine Growing.atomic (.bind (.of_ofExcept _) fun _ => ?_)
  refine .bind (growing_single _) fun (value, _) => .bind (atomic_move _).growing fun going => ?_
  refine .bind (growing_emitAll _) fun _ => .bind growing_newState fun arrived => ?_
  exact .bind (growing_emitAll _) fun _ => .bind (growing_setCursor _) fun _ => .of_pure arrived

theorem atomic_seek (s : Scan) : Atomic (seek s) := atomic_scan s .keep

/-- Looking up the blank changes nothing, so that the scan alone decides. -/
theorem atomic_paint (s : Scan) (symbol : Option Symbol) : Atomic (paint s symbol) where
  ok {c c' a} h := by
    obtain ⟨filler, c₁, hb, hs⟩ := bind_eq_ok.mp h
    cases hb
    exact (atomic_scan s _).ok hs
  error {c c' e} h := by
    rcases bind_eq_error.mp h with hb | ⟨filler, c₁, hb, hs⟩
    · cases hb
    · cases hb
      exact (atomic_scan s _).error hs

theorem atomic_deliver (s : Scan) (value : Option Symbol) : Atomic (deliver s value) := by
  refine Growing.atomic (.bind (atomic_seek s).growing fun _ => ?_)
  cases value with
  | none => exact .of_pure ()
  | some value =>
    refine .bind growing_current fun arrived => .bind growing_newState fun target => ?_
    exact .bind (growing_emitAll _) fun _ => growing_setCursor _

theorem atomic_carry (s : Scan) (replacement : Option Symbol) : Atomic (carry s replacement) := by
  refine Growing.atomic ?_
  cases replacement with
  | none => exact .bind (atomic_seek s).growing fun _ => .of_pure ()
  | some replacement =>
    refine .bind (growing_single _) fun (value, _) => ?_
    exact .bind (atomic_move _).growing fun _ => (atomic_deliver s _).growing

theorem growing_scanEach (s : Scan) (w : Edit) (entries : List (Symbol × Symbol)) :
    Growing (scanEach s w entries) := by
  induction entries with
  | nil => exact .of_pure []
  | cons entry entries ih =>
    refine .bind (growing_setCursor _) fun _ => .bind (atomic_scan s w).growing fun arrived => ?_
    exact .bind ih fun _ => .of_pure _

theorem atomic_scanPairs (s : Scan) (w : Edit) : Atomic (scanPairs s w) := by
  refine Growing.atomic (.bind (growing_pairs _) fun (values, states) => ?_)
  refine .bind (.of_ofExcept _) fun stop => .bind (growing_scanEach _ _ _) fun arrived => ?_
  exact growing_setCursor _

theorem atomic_seekEach (s : Scan) : Atomic (seekEach s) := by
  refine Growing.atomic (.bind (growing_branch _) fun (value, states) => ?_)
  refine .bind (.of_ofExcept _) fun stop => .bind (growing_scanEach _ _ _) fun arrived => ?_
  exact growing_setCursor _

theorem growing_plantMarker (l : Layout) (blank marker : Symbol) :
    Growing (plantMarker l blank marker) := by
  refine .bind (atomic_seek _).growing fun _ => .bind (atomic_seek _).growing fun _ => ?_
  exact (atomic_deliver _ _).growing

theorem growing_returnToOrigin (l : Layout) (origin : Symbol) :
    Growing (returnToOrigin l origin) :=
  .bind (atomic_seek _).growing fun _ => .bind (atomic_seek _).growing fun _ => .of_pure ()

theorem growing_copyCell (l : Layout) (blank marker : Symbol) (placeholders : List Symbol)
    (pass : Symbol) : Growing (copyCell l blank marker placeholders pass) := by
  refine .bind (growing_setCursor _) fun _ => .bind (atomic_scanPairs _ _).growing fun _ => ?_
  refine .bind (atomic_moveEach _).growing fun _ => .bind (atomic_join _).growing fun _ => ?_
  refine .bind (atomic_seek _).growing fun _ => ?_
  exact .bind growing_current fun _ => growing_emitAll _

theorem growing_eraseMarker (l : Layout) (blank marker pass : Symbol) :
    Growing (eraseMarker l blank marker pass) := by
  refine .bind (growing_setCursor _) fun _ => .bind (atomic_deliver _ _).growing fun _ => ?_
  exact .bind (atomic_seek _).growing fun _ => .of_pure ()

theorem growing_restoreBlock (l : Layout) (origin : Symbol) (placeholders restored : List Symbol) :
    Growing (restoreBlock l origin placeholders restored) := by
  refine .bind (atomic_move _).growing fun cleanup => .bind (growing_emitAll _) fun _ => ?_
  refine .bind growing_newState fun done => .bind (growing_emit _) fun _ => ?_
  exact growing_setCursor _

theorem atomic_transfer (l : Layout) (erase : Bool) : Atomic (transfer l erase) := by
  refine Growing.atomic (.bind (growing_single _) fun (origin, _) => ?_)
  refine .bind growing_blank fun filler => .bind (.of_ofExcept _) fun _ => ?_
  refine .bind (growing_reserve _ _) fun _ => .bind growing_newValue fun marker => ?_
  refine .bind (growing_newValues _) fun placeholders => ?_
  refine .bind (growing_plantMarker _ _ _) fun _ => .bind (growing_returnToOrigin _ _) fun _ => ?_
  refine .bind (atomic_move _).growing fun pass => .bind (growing_copyCell _ _ _ _ _) fun _ => ?_
  exact .bind (growing_eraseMarker _ _ _ _) fun _ => growing_restoreBlock _ _ _ _

end Build

/-! ## Instructions -/

/-- Every instruction is atomic, whatever it is given. -/
theorem Instruction.atomic_build (i : Instruction) : Build.Atomic i.build := by
  cases i with
  | manual r => exact Build.atomic_manual r
  | move m => exact (Build.atomic_move m).bind_pure _
  | moveAmong m values => exact Build.atomic_moveAmong m values
  | join m => exact Build.atomic_join m
  | moveEach m => exact Build.atomic_moveEach m
  | halt => exact Build.atomic_halt
  | scan s w => exact (Build.atomic_scan s w).bind_pure _
  | seek s => exact (Build.atomic_seek s).bind_pure _
  | paint s symbol => exact (Build.atomic_paint s symbol).bind_pure _
  | erase s => exact (Build.atomic_paint s none).bind_pure _
  | deliver s value => exact Build.atomic_deliver s value
  | carry s replacement => exact Build.atomic_carry s replacement
  | scanPairs s w => exact Build.atomic_scanPairs s w
  | seekPairs s => exact Build.atomic_scanPairs s .keep
  | seekEach s => exact Build.atomic_seekEach s
  | copyBlock l => exact Build.atomic_transfer l false
  | moveBlock l => exact Build.atomic_transfer l true

namespace Compiler

/-- **An instruction that fails leaves the compiler as it was**: the table, all else of the machine,
both name supplies and the cursor. -/
theorem compile_error_unchanged {c c' : Compiler} {i : Instruction} {e : Error}
    (h : c.compile i = (.error e, c')) : c' = c := by
  rw [compile] at h
  cases hi : i.build c with
  | ok _ c'' =>
    rw [hi] at h
    cases h
  | error e' c'' =>
    rw [hi] at h
    cases h
    exact i.atomic_build.error hi

/-- A compiler whose cursor names one state twice. -/
def twins : Compiler :=
  (ofMachine (.start ⟨["1"], 0, "", "q1", []⟩ .empty)).setCursor (.branch "1" ["q1", "q1"])

/-- The first rule for the state has been added already when the second contradicts it. -/
theorem compile_error_unchanged_twins :
    twins.compile (.moveEach { action := .right, write := some (.each ["x", "y"]) }) =
      (.error (.conflict ⟨"1", "q1", "x", "q1", .right⟩ ⟨"1", "q1", "y", "q1", .right⟩),
        twins) := by
  have h : ∃ c', twins.compile (.moveEach { action := .right, write := some (.each ["x", "y"]) }) =
      (.error (.conflict ⟨"1", "q1", "x", "q1", .right⟩ ⟨"1", "q1", "y", "q1", .right⟩), c') :=
    ⟨_, rfl⟩
  obtain ⟨c', h⟩ := h
  rw [h, compile_error_unchanged h]

end Compiler

end TapeCompiler
