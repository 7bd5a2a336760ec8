import TapeCompiler.Proofs.Insertion
import TapeCompiler.Proofs.Paths

/-!
# Steps from a branch

A move of a branch takes each of its paths one step on. What is written on a path, which value is
expected behind it and which state is entered is given by three lists, one item for each path. The
cursor behind the move pairs the second with the third (`Condition.entries_ofPaths`), whichever form
it has, so that the path that comes from the `k`-th state arrives in the `k`-th situation.

A move that is given a list of another length is misuse. Nothing else about it is: a move whose
lists fit fails only if its rules contradict others.
-/

namespace TapeCompiler

/-! ## What a move says of each path -/

namespace Spread

variable {spread : Spread} {n : Nat}

/-- The symbols that are given one by one. -/
def list? : Spread → Option (List Symbol)
  | same _ => none
  | each ss => some ss

/-- The symbol of each of `n` paths. -/
def paths (n : Nat) : Spread → List Symbol
  | same s => List.replicate n s
  | each ss => ss

theorem length_paths (h : ∀ ss ∈ spread.list?, ss.length = n) : (spread.paths n).length = n := by
  cases spread with
  | same s => exact List.length_replicate
  | each ss => exact h ss rfl

theorem expand_of_fits {part : BranchPart} (h : ∀ ss ∈ spread.list?, ss.length = n) :
    spread.expand n part = .ok (spread.paths n) := by
  cases spread with
  | same s => rfl
  | each ss => exact if_pos (h ss rfl)

theorem expand_of_not_fits (part : BranchPart) (h : ¬∀ ss ∈ spread.list?, ss.length = n) :
    ∃ cause, spread.expand n part = .error (.misuse cause) := by
  cases spread with
  | same s => exact absurd (by simp [list?]) h
  | each ss => exact ⟨_, if_neg fun hn => h (by simpa [list?] using hn)⟩

end Spread

namespace Targets

/-- The states that are given one by one. -/
def list? : Targets → Option (List Symbol)
  | named ss => some ss
  | same | fresh => none

/-- The state that each path from `states` leads to. -/
def paths (states : List Symbol) (supply : NameSupply) : Targets → List Symbol
  | same => states
  | fresh => (supply.take states.length).1
  | named ss => ss

theorem length_paths {t : Targets} {states : List Symbol} {supply : NameSupply}
    (h : ∀ ss ∈ t.list?, ss.length = states.length) :
    (t.paths states supply).length = states.length := by
  cases t with
  | same => rfl
  | fresh => exact NameSupply.length_take _
  | named ss => exact h ss rfl

end Targets

namespace BranchMove

variable {b : BranchMove} {v : Symbol} {n : Nat}

/-- The lists that a move is given with one symbol for each path. -/
def lists (b : BranchMove) : List (List Symbol) :=
  (b.write.bind Spread.list?).toList ++ (b.expect.bind Spread.list?).toList ++ b.next.list?.toList

/-- What is written on each of `n` paths: by default the value under the head. -/
def writes (b : BranchMove) (v : Symbol) (n : Nat) : List Symbol :=
  (b.write.getD (.same v)).paths n

/-- What is expected behind each of `n` paths: by default what is written. -/
def expected (b : BranchMove) (v : Symbol) (n : Nat) : List Symbol :=
  (b.expect.getD (.each (b.writes v n))).paths n

/-- Each list has one symbol for each of `n` paths. -/
def Fits (b : BranchMove) (n : Nat) : Prop := ∀ ss ∈ b.lists, ss.length = n

theorem fits_iff : b.Fits n ↔ (∀ ss ∈ b.write.bind Spread.list?, ss.length = n) ∧
    (∀ ss ∈ b.expect.bind Spread.list?, ss.length = n) ∧ ∀ ss ∈ b.next.list?, ss.length = n := by
  simp [Fits, lists, or_imp, forall_and]

/-- The default for what is written is not a list. -/
theorem list?_write : (b.write.getD (.same v)).list? = b.write.bind Spread.list? := by
  cases b.write <;> rfl

theorem length_writes (h : ∀ ss ∈ b.write.bind Spread.list?, ss.length = n) :
    (b.writes v n).length = n :=
  Spread.length_paths (by rwa [list?_write])

/-- The default for what is expected is a list, which fits if the one it comes from does. -/
theorem forall_expect (h : ∀ ss ∈ b.write.bind Spread.list?, ss.length = n) :
    (∀ ss ∈ (b.expect.getD (.each (b.writes v n))).list?, ss.length = n) ↔
      ∀ ss ∈ b.expect.bind Spread.list?, ss.length = n := by
  cases b.expect with
  | none => simpa [Spread.list?] using length_writes h
  | some spread => rfl

theorem expand_writes (h : ∀ ss ∈ b.write.bind Spread.list?, ss.length = n) :
    (b.write.getD (.same v)).expand n .writes = .ok (b.writes v n) :=
  Spread.expand_of_fits (by rwa [list?_write])

theorem expand_expected (hwrite : ∀ ss ∈ b.write.bind Spread.list?, ss.length = n)
    (hexpect : ∀ ss ∈ b.expect.bind Spread.list?, ss.length = n) :
    (b.expect.getD (.each (b.writes v n))).expand n .expected = .ok (b.expected v n) :=
  Spread.expand_of_fits ((forall_expect hwrite).mpr hexpect)

theorem length_expected (h : b.Fits n) : (b.expected v n).length = n := by
  obtain ⟨hwrite, hexpect, -⟩ := fits_iff.mp h
  exact Spread.length_paths ((forall_expect hwrite).mpr hexpect)

end BranchMove

/-- Whatever its form, the condition of paths pairs what they expect with their states. -/
theorem Condition.entries_ofPaths {expected states : List Symbol}
    (h : expected.length = states.length) :
    (ofPaths expected states).entries = expected.zip states := by
  cases expected with
  | nil => rfl
  | cons v vs =>
    rw [ofPaths]
    split
    · rename_i hall
      have hsame : v :: vs = List.replicate states.length v := by
        refine List.eq_replicate_iff.mpr ⟨h, fun x hx => ?_⟩
        rcases List.mem_cons.mp hx with rfl | hx
        · rfl
        · exact eq_of_beq (List.all_eq_true.mp hall x hx)
      rw [hsame, entries]
      exact List.ext_getElem (by simp) (by simp)
    · rfl

theorem Condition.shape_ofPaths (expected states : List Symbol) :
    (ofPaths expected states).shape ≠ .single := by
  cases expected with
  | nil => simp [ofPaths, shape]
  | cons v vs =>
    rw [ofPaths]
    split <;> simp [shape]

/-! ## How a move ends -/

namespace Build

variable {c c' : Compiler} {v : Symbol} {states : List Symbol} {b : BranchMove} {e : Error}

section Eval

variable {α β : Type} {x : Build α} {f : α → Build β} {a : α}

theorem bind_of_ok (h : x c = .ok a c') : (x >>= f) c = f a c' := by
  change EStateM.bind x f c = _
  rw [EStateM.bind, h]

theorem bind_of_error (h : x c = .error e c') : (x >>= f) c = .error e c' := by
  change EStateM.bind x f c = _
  rw [EStateM.bind, h]

theorem ofExcept_bind_of_ok {result : Except Error α} (h : result = .ok a) :
    (ofExcept result >>= f) c = f a c :=
  bind_of_ok (ofExcept_eq_ok.mpr ⟨h, rfl⟩)

theorem ofExcept_bind_of_error {result : Except Error α} (h : result = .error e) :
    (ofExcept result >>= f) c = .error e c :=
  bind_of_error (by rw [h]; rfl)

end Eval

theorem targets_of_fits {t : Targets} (h : ∀ ss ∈ t.list?, ss.length = states.length) :
    ∃ c', targets states t c = .ok (t.paths states c.states) c' := by
  cases t with
  | same => exact ⟨_, rfl⟩
  | fresh => exact ⟨_, rfl⟩
  | named ss => exact ⟨c, ofExcept_eq_ok.mpr ⟨Spread.expand_of_fits h, rfl⟩⟩

theorem targets_of_not_fits {t : Targets} (h : ¬∀ ss ∈ t.list?, ss.length = states.length) :
    ∃ cause, targets states t c = .error (.misuse cause) c := by
  cases t with
  | same => exact absurd (by simp [Targets.list?]) h
  | fresh => exact absurd (by simp [Targets.list?]) h
  | named ss =>
    have hss : ¬∀ ss' ∈ (Spread.each ss).list?, ss'.length = states.length := h
    obtain ⟨cause, hcause⟩ := Spread.expand_of_not_fits .targets hss
    exact ⟨cause, by rw [targets, hcause]; rfl⟩

/-- Rules are refused only for a contradiction. -/
theorem kind_of_emitAll {rules : List Rule} (h : emitAll rules c = .error e c') :
    e.kind = .conflict := by
  induction rules generalizing c with
  | nil => cases h
  | cons r rules ih =>
    obtain h | ⟨⟨⟩, c₁, -, h⟩ := bind_eq_error.mp h
    · rw [emit_apply] at h
      rcases c.machine.table.insert_cases r with ⟨-, hr⟩ | ⟨-, t, hr, -⟩ | ⟨existing, -, -, -, hr⟩
      all_goals
        rw [hr] at h
        cases h
      rfl
    · exact ih h

/-- A move with a list that does not fit is misuse. -/
theorem moveEach_of_not_fits (hcursor : c.cursor = .ofCondition (.branch v states))
    (h : ¬b.Fits states.length) : ∃ cause c', moveEach b c = .error (.misuse cause) c' := by
  rw [moveEach, atomic, bind_of_ok (branch_apply hcursor)]
  dsimp only
  by_cases hwrite : ∀ ss ∈ b.write.bind Spread.list?, ss.length = states.length
  · rw [ofExcept_bind_of_ok (BranchMove.expand_writes hwrite)]
    by_cases hexpect : ∀ ss ∈ b.expect.bind Spread.list?, ss.length = states.length
    · rw [ofExcept_bind_of_ok (BranchMove.expand_expected hwrite hexpect)]
      have hnext : ¬∀ ss ∈ b.next.list?, ss.length = states.length := fun hnext =>
        h (BranchMove.fits_iff.mpr ⟨hwrite, hexpect, hnext⟩)
      obtain ⟨cause, hcause⟩ := targets_of_not_fits (c := c) hnext
      rw [bind_of_error hcause]
      exact ⟨cause, _, rfl⟩
    · rw [← BranchMove.forall_expect hwrite] at hexpect
      obtain ⟨cause, hcause⟩ := Spread.expand_of_not_fits .expected hexpect
      rw [ofExcept_bind_of_error hcause]
      exact ⟨cause, _, rfl⟩
  · rw [← BranchMove.list?_write (v := v)] at hwrite
    obtain ⟨cause, hcause⟩ := Spread.expand_of_not_fits .writes hwrite
    rw [ofExcept_bind_of_error hcause]
    exact ⟨cause, _, rfl⟩

/-- A move with lists that fit adds a rule for each path, unless one of the rules is refused. -/
theorem moveEach_of_fits (hcursor : c.cursor = .ofCondition (.branch v states))
    (h : b.Fits states.length) :
    (∃ c', moveEach b c = .ok () c' ∧
        c'.cursor = .ofCondition
          (.ofPaths (b.expected v states.length) (b.next.paths states c.states)) ∧
        ∀ (k : Nat) (q w next : Symbol), states[k]? = some q →
          (b.writes v states.length)[k]? = some w → (b.next.paths states c.states)[k]? = some next →
          ⟨v, q, w, next, b.action⟩ ∈ c'.machine.table.rules) ∨
      ∃ e c', moveEach b c = .error e c' ∧ e.kind = .conflict := by
  obtain ⟨hwrite, hexpect, hnext⟩ := BranchMove.fits_iff.mp h
  obtain ⟨c₁, htargets⟩ := targets_of_fits (c := c) hnext
  rw [moveEach, atomic, bind_of_ok (branch_apply hcursor)]
  dsimp only
  rw [ofExcept_bind_of_ok (BranchMove.expand_writes hwrite),
    ofExcept_bind_of_ok (BranchMove.expand_expected hwrite hexpect), bind_of_ok htargets]
  cases hemit : emitAll ((states.zip ((b.writes v states.length).zip
      (b.next.paths states c.states))).map fun p => ⟨v, p.1, p.2.1, p.2.2, b.action⟩) c₁ with
  | ok _ c₂ =>
    rw [bind_of_ok hemit]
    refine .inl ⟨_, rfl, rfl, fun k q w next hq hw hn => (emitAll_ok hemit _).mpr (.inr ?_)⟩
    refine List.mem_map.mpr ⟨(q, w, next), List.mem_of_getElem? (i := k) ?_, rfl⟩
    rw [List.getElem?_zip_eq_some, List.getElem?_zip_eq_some]
    exact ⟨hq, hw, hn⟩
  | error e c₂ =>
    rw [bind_of_error hemit]
    exact .inr ⟨e, _, rfl, kind_of_emitAll hemit⟩

end Build

/-! ## What a step does -/

namespace Machine

/-- `m'` is `m` after a rule has written a value, acted and entered a state. -/
structure Moved (m m' : Machine) (write next : Symbol) (action : Action) : Prop where
  table : m'.table = m.table
  halted : m'.halted = (action == .halt)
  state : m'.state = next
  head : m'.head = m.head + action.offset
  cells : ∀ i, m'.tape.read i = if i = m.head then write else m.tape.read i

/-- The machine runs, has the rules of a compiler, and is on the value `v` in the state `q`. -/
structure Meets (m : Machine) (c : Compiler) (v q : Symbol) : Prop where
  rules : ∀ r ∈ c.machine.table.rules, r ∈ m.table.rules
  running : m.halted = false
  symbol : m.symbol = v
  state : m.state = q

theorem Meets.step {m : Machine} {c : Compiler} {v q w next : Symbol} {action : Action}
    (h : m.Meets c v q) (hr : ⟨v, q, w, next, action⟩ ∈ c.machine.table.rules) :
    ∃ m', m.step = (if action = .halt then .halted else .continues, m') ∧
      m.Moved m' w next action := by
  obtain ⟨m', hstep, htable, hhalted, hstate, hhead, hcells⟩ :=
    step_of_mem (h.rules _ hr) h.running h.symbol.symm h.state.symm
  exact ⟨m', hstep, htable, hhalted, hstate, hhead, hcells⟩

end Machine

namespace Compiler

variable {c c' : Compiler} {v : Symbol} {states : List Symbol} {condition : Condition}

/-- What a compiled move of a branch says of each path. -/
theorem compile_moveEach {b : BranchMove} (hcursor : c.cursor = .ofCondition (.branch v states))
    (h : c.compile (.moveEach b) = (.ok condition, c')) :
    b.Fits states.length ∧ c'.cursor = .ofCondition condition ∧
      condition = .ofPaths (b.expected v states.length) (b.next.paths states c.states) ∧
      ∀ (k : Nat) (q w next : Symbol), states[k]? = some q →
        (b.writes v states.length)[k]? = some w → (b.next.paths states c.states)[k]? = some next →
        ⟨v, q, w, next, b.action⟩ ∈ c'.machine.table.rules := by
  obtain ⟨hbuild, rfl⟩ := compile_eq_ok.mp h
  change Build.moveEach b c = _ at hbuild
  by_cases hfits : b.Fits states.length
  · rcases Build.moveEach_of_fits hcursor hfits with ⟨c₁, hok, haim, hrules⟩ | ⟨e, c₁, herror, -⟩
    · rw [hbuild] at hok
      cases hok
      rw [haim]
      exact ⟨hfits, rfl, rfl, hrules⟩
    · rw [hbuild] at herror
      cases herror
  · obtain ⟨cause, c₁, herror⟩ := Build.moveEach_of_not_fits hcursor hfits
    rw [hbuild] at herror
    cases herror

/-- The new cursor has one situation for each path. -/
theorem entries_moveEach {b : BranchMove}
    (hcursor : c.cursor = .ofCondition (.branch v states))
    (h : c.compile (.moveEach b) = (.ok condition, c')) :
    condition.entries = (b.expected v states.length).zip (b.next.paths states c.states) ∧
      condition.entries.length = states.length := by
  obtain ⟨hfits, -, rfl, -⟩ := compile_moveEach hcursor h
  have hexpected := BranchMove.length_expected (v := v) hfits
  have hnexts : (b.next.paths states c.states).length = states.length :=
    Targets.length_paths (BranchMove.fits_iff.mp hfits).2.2
  have hentries := Condition.entries_ofPaths (hexpected.trans hnexts.symm)
  exact ⟨hentries, by rw [hentries, List.length_zip, hexpected, hnexts, Nat.min_self]⟩

/-- What the lists of a move have for the `k`-th path is in its rule and in its situation. -/
theorem exists_path_moveEach {b : BranchMove} (hcursor : c.cursor = .ofCondition (.branch v states))
    (h : c.compile (.moveEach b) = (.ok condition, c')) {k : Nat} {q : Symbol}
    (hq : states[k]? = some q) :
    ∃ w x next, (b.writes v states.length)[k]? = some w ∧
      (b.expected v states.length)[k]? = some x ∧
      (b.next.paths states c.states)[k]? = some next ∧
      condition.entries[k]? = some (x, next) ∧
      ⟨v, q, w, next, b.action⟩ ∈ c'.machine.table.rules := by
  obtain ⟨hfits, -, -, hrules⟩ := compile_moveEach hcursor h
  obtain ⟨hwrite, -, hnext⟩ := BranchMove.fits_iff.mp hfits
  have item {xs : List Symbol} (hxs : xs.length = states.length) : ∃ x, xs[k]? = some x :=
    ⟨_, List.getElem?_eq_getElem (hxs ▸ (List.getElem?_eq_some_iff.mp hq).1)⟩
  obtain ⟨w, hw⟩ := item (BranchMove.length_writes (v := v) hwrite)
  obtain ⟨x, hx⟩ := item (BranchMove.length_expected (v := v) hfits)
  obtain ⟨next, hn⟩ := item (Targets.length_paths hnext : (b.next.paths states c.states).length = _)
  refine ⟨w, x, next, hw, hx, hn, ?_, hrules k q w next hq hw hn⟩
  rw [(entries_moveEach hcursor h).1]
  exact List.getElem?_zip_eq_some.mpr ⟨hx, hn⟩

/-- A move of a branch is misuse exactly if one of its lists does not fit. -/
theorem compile_moveEach_misuse {b : BranchMove}
    (hcursor : c.cursor = .ofCondition (.branch v states)) :
    (∃ e c', c.compile (.moveEach b) = (.error e, c') ∧ e.kind = .configuration) ↔
      ¬b.Fits states.length := by
  rw [compile, Instruction.build]
  constructor
  · rintro ⟨e, c', h, hkind⟩ hfits
    rcases Build.moveEach_of_fits hcursor hfits with ⟨c₁, hok, -⟩ | ⟨e', c₁, herror, hconflict⟩
    · rw [hok] at h
      cases h
    · rw [herror] at h
      cases h
      rw [hconflict] at hkind
      cases hkind
  · intro hfits
    obtain ⟨cause, c₁, herror⟩ := Build.moveEach_of_not_fits hcursor hfits
    exact ⟨_, c₁, by rw [herror], rfl⟩

/-- **The paths of a branch stay correlated.** Let the cursor be a branch, and take the `k`-th of
its paths: a machine that has the rules of the compiler, on the value of the branch in its `k`-th
state.

A move of the branch takes it one step on: what the move has for this path is written, its action is
done and the state it has for this path is entered. If the value then under the head is the one that
is expected on this path, this is the `k`-th situation of the new cursor. Joining the branch takes
it to the one state of the new cursor, with the same value written and the same action on all paths.

Such a move is misuse exactly if a list that it is given is longer or shorter than the branch. -/
theorem branch_paths_stay_correlated (hcursor : c.cursor = .ofCondition (.branch v states)) :
    (∀ b condition c', b.action ≠ .halt → c.compile (.moveEach b) = (.ok condition, c') →
      c'.cursor = .ofCondition condition ∧ condition.shape ≠ .single ∧
      condition.entries.length = states.length ∧
      ∀ (k : Nat) q, states[k]? = some q → ∃ w x next,
        (b.writes v states.length)[k]? = some w ∧ (b.expected v states.length)[k]? = some x ∧
        (b.next.paths states c.states)[k]? = some next ∧ condition.entries[k]? = some (x, next) ∧
        ∀ m : Machine, m.Meets c' v q → ∃ m', m.step = (.continues, m') ∧
          m.Moved m' w next b.action ∧
          (m'.symbol = x → condition.entries[k]? = some (m'.symbol, m'.state))) ∧
    (∀ j condition c', c.compile (.join j) = (.ok condition, c') →
      ∃ next, condition = .single (j.expect.getD (j.write.getD v)) next ∧
        c'.cursor = .ofCondition condition ∧
        ∀ q ∈ states, ∀ m : Machine, m.Meets c' v q →
          ∃ m', m.step = (if j.action = .halt then .halted else .continues, m') ∧
            m.Moved m' (j.write.getD v) next j.action ∧
            (m'.symbol = j.expect.getD (j.write.getD v) →
              condition = .single m'.symbol m'.state)) ∧
    ∀ b : BranchMove,
      (∃ e c', c.compile (.moveEach b) = (.error e, c') ∧ e.kind = .configuration) ↔
        ∃ ss ∈ b.lists, ss.length ≠ states.length := by
  refine ⟨fun b condition c' hb h => ?_, fun j condition c' h => ?_, fun b => ?_⟩
  · obtain ⟨-, haim, hcondition, -⟩ := compile_moveEach hcursor h
    refine ⟨haim, hcondition ▸ Condition.shape_ofPaths _ _, (entries_moveEach hcursor h).2, ?_⟩
    intro k q hq
    obtain ⟨w, x, next, hw, hx, hn, hentry, hrule⟩ := exists_path_moveEach hcursor h hq
    refine ⟨w, x, next, hw, hx, hn, hentry, fun m hm => ?_⟩
    obtain ⟨m', hstep, hmoved⟩ := hm.step hrule
    rw [if_neg hb] at hstep
    refine ⟨m', hstep, hmoved, fun hsymbol => ?_⟩
    rw [hsymbol, hmoved.state]
    exact hentry
  · obtain ⟨hbuild, rfl⟩ := compile_eq_ok.mp h
    obtain ⟨next, haim, hrules⟩ := Build.join_ok hcursor hbuild
    rw [haim]
    refine ⟨next, rfl, rfl, fun q hq m hm => ?_⟩
    obtain ⟨m', hstep, hmoved⟩ := hm.step (hrules q hq)
    refine ⟨m', hstep, hmoved, fun hx => ?_⟩
    rw [hx, hmoved.state]
    rfl
  · rw [compile_moveEach_misuse hcursor]
    simp [BranchMove.Fits]

/-- A move to the right with values of its own for each of two paths. -/
def apart : BranchMove :=
  { action := .right, write := some (.each ["x", "y"]), expect := some (.each ["2", "1"]),
    next := .fresh }

/-- A compiler for a tape `1 2` whose cursor is `1` in two states. -/
def forked : Compiler :=
  (ofMachine (.start ⟨["1", "2"], 0, "_", "a", []⟩ .empty)).setCursor (.branch "1" ["a", "b"])

/-- In the state `a` the machine writes `x` and gets to `2`, which is the first situation of the new
cursor. A move with three values to write is misuse. -/
theorem branch_paths_stay_correlated_forked :
    forked.cursor = .ofCondition (.branch "1" ["a", "b"]) ∧
      (∃ condition c' m', forked.compile (.moveEach apart) = (.ok condition, c') ∧
        c'.machine.Meets c' "1" "a" ∧ c'.machine.step = (.continues, m') ∧
        m'.tape.cells = ["x", "2"] ∧ condition.entries[0]? = some (m'.symbol, m'.state)) ∧
      (∃ next c', forked.compile (.join { action := .stay }) = (.ok (.single "1" next), c')) ∧
      ∃ e c', forked.compile (.moveEach { apart with write := some (.each ["x", "y", "z"]) }) =
        (.error e, c') ∧ e.kind = .configuration := by
  have hcursor : forked.cursor = .ofCondition (.branch "1" ["a", "b"]) := rfl
  obtain ⟨hmove, hjoin, hmisuse⟩ := branch_paths_stay_correlated hcursor
  obtain ⟨condition, c', hc⟩ : ∃ condition c',
      forked.compile (.moveEach apart) = (.ok condition, c') := ⟨_, _, rfl⟩
  obtain ⟨joined, d, hd⟩ : ∃ joined d,
      forked.compile (.join { action := .stay }) = (.ok joined, d) := ⟨_, _, rfl⟩
  obtain ⟨next, rfl, -⟩ := hjoin _ _ _ hd
  refine ⟨hcursor, ?_, ⟨next, d, hd⟩, (hmisuse _).mpr ⟨["x", "y", "z"], ?_, ?_⟩⟩
  · obtain ⟨-, -, -, hpaths⟩ := hmove apart condition c' (by decide) hc
    obtain ⟨w, x, next, -, hx, -, -, hstep⟩ := hpaths 0 "a" rfl
    have hmeets : c'.machine.Meets c' "1" "a" := by
      cases hc
      exact ⟨fun _ h => h, rfl, rfl, rfl⟩
    obtain ⟨m', hm', -, hentry⟩ := hstep _ hmeets
    obtain ⟨hcells, hsymbol⟩ : m'.tape.cells = ["x", "2"] ∧ m'.symbol = "2" := by
      cases hc
      cases hm'
      exact ⟨rfl, rfl⟩
    cases hx
    exact ⟨condition, c', m', hc, hmeets, hm', hcells, hentry hsymbol⟩
  · decide
  · decide

end Compiler

end TapeCompiler
