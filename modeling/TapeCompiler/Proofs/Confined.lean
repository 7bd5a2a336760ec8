import TapeCompiler.Proofs.CursorSymbols
import TapeCompiler.Proofs.Spelling

/-!
# What a compiler brings in

The symbols of a compiled program come from four places: the program at the start, what the
instructions are given, what the edits of scans give, and the name supplies. `Compiler.Confined` says
that all symbols of a compiler have some property, those of its machine, of its cursor, and those
that it may yet make up. `Build.Keeps` says of an operation that it keeps this, and what it answers.
A compiler stays confined as long as all that its history brings in has the property
(`Compiler.Confined.after`).
-/

namespace TapeCompiler

variable {V S : Symbol → Prop}

/-! ## The symbols of a compiler -/

/-- All values of a condition have the property `V`, and all its states the property `S`. -/
structure Condition.Confined (V S : Symbol → Prop) (condition : Condition) : Prop where
  values : ∀ v ∈ condition.values, V v
  states : ∀ s ∈ condition.states, S s

namespace Condition

theorem confined_single {v s : Symbol} (hv : V v) (hs : S s) : (single v s).Confined V S :=
  ⟨by simpa [values] using hv, by simpa [states] using hs⟩

theorem confined_meeting {vs : List Symbol} {s : Symbol} (hvs : ∀ v ∈ vs, V v) (hs : S s) :
    (meeting vs s).Confined V S := by
  refine ⟨by simpa using hvs, fun x hx => ?_⟩
  unfold meeting at hx
  split at hx
  · simp only [states, List.mem_singleton] at hx
    exact hx ▸ hs
  · exact (List.mem_replicate.mp hx).2 ▸ hs

theorem Confined.entries {condition : Condition} (h : condition.Confined V S) :
    ∀ e ∈ condition.entries, V e.1 ∧ S e.2 := by
  intro e he
  cases condition with
  | single v s =>
    rw [List.mem_singleton.mp he]
    exact ⟨h.values v List.mem_cons_self, h.states s List.mem_cons_self⟩
  | branch v ss =>
    obtain ⟨hv, hs⟩ := mem_entries_branch.mp he
    exact ⟨hv ▸ h.values v List.mem_cons_self, h.states e.2 hs⟩
  | pairs vs ss =>
    obtain ⟨a, b⟩ := e
    obtain ⟨hv, hs⟩ := List.of_mem_zip he
    exact ⟨h.values a hv, h.states b hs⟩

end Condition

/-- All values of a rule have the property `V`, and its states the property `S`. -/
def Rule.Confined (V S : Symbol → Prop) (r : Rule) : Prop :=
  V r.value ∧ V r.write ∧ S r.state ∧ S r.next

/-- All values that a compiler has, or may make up, have the property `V`, and all such states the
property `S`. -/
structure Compiler.Confined (V S : Symbol → Prop) (c : Compiler) : Prop where
  machine : c.machine.Confined V S
  cursor : c.cursor.current.Confined V S
  values : c.values.Offers V
  states : c.states.Offers S

/-! ## What instructions are given -/

/-- The values that a move is given. -/
def Move.values (m : Move) : List Symbol := m.write.toList ++ m.expect.toList

/-- The state that a move is given. -/
def Move.states (m : Move) : List Symbol := (m.next.bind Target.named?).toList

/-- The values that a move of a branch is given. -/
def BranchMove.values (m : BranchMove) : List Symbol :=
  (m.write.map Spread.symbols).getD [] ++ (m.expect.map Spread.symbols).getD []

/-- The states that a move of a branch is given. -/
def BranchMove.states (m : BranchMove) : List Symbol :=
  match m.next with
  | .named ss => ss
  | .same | .fresh => []

/-- The values that a scan is given. -/
def Scan.values (s : Scan) : List Symbol := s.interior ++ s.terminals

/-- The values that an edit gives when it is used in a scan from a value. -/
def Scan.edited (s : Scan) (w : Edit) (start : Symbol) : List Symbol :=
  (if s.editStart then [w.start start] else []) ++ s.crossed.map w.interior ++
    if s.editEnd then s.stops.map w.finish else []

namespace Instruction

/-- The values that an instruction brings in at a compiler: those it is given, and those its edit
gives. -/
def values (c : Compiler) : Instruction → List Symbol
  | manual r => [r.value, r.write]
  | move m | join m => m.values
  | moveAmong m values => m.values ++ values
  | moveEach m => m.values
  | halt => []
  | scan s w => s.values ++ c.cursor.current.entries.flatMap fun e => s.edited w e.1
  | seek s | erase s | seekPairs s | seekEach s => s.values
  | paint s symbol | deliver s symbol | carry s symbol => s.values ++ symbol.toList
  | scanPairs s w =>
    let wide := { s with interior := s.interior ++ c.cursor.current.values }
    s.values ++ c.cursor.current.entries.flatMap fun e => wide.edited w e.1
  | copyBlock l | moveBlock l => l.crossed

/-- The states that an instruction is given. -/
def states : Instruction → List Symbol
  | manual r => [r.state, r.next]
  | move m | moveAmong m _ | join m => m.states
  | moveEach m => m.states
  | halt | scan .. | seek _ | paint .. | erase _ | deliver .. | carry .. | scanPairs .. | seekPairs _
  | seekEach _ | copyBlock _ | moveBlock _ => []

end Instruction

/-! ## Operations that bring in nothing else -/

namespace Build

variable {α β : Type} {c c' : Compiler}

/-- An operation that keeps a compiler confined, if it succeeds, and what holds of its answer. -/
structure Keeps (V S : Symbol → Prop) (x : Build α) (Q : α → Prop) : Prop where
  ok : ∀ {c c' : Compiler} {a}, c.Confined V S → x c = .ok a c' → c'.Confined V S ∧ Q a

namespace Keeps

theorem bind {x : Build α} {f : α → Build β} {Q : α → Prop} {R : β → Prop} (hx : Keeps V S x Q)
    (hf : ∀ a, Q a → Keeps V S (f a) R) : Keeps V S (x >>= f) R where
  ok hc h := by
    obtain ⟨a, c₁, hx', hf'⟩ := bind_eq_ok.mp h
    obtain ⟨hc₁, ha⟩ := hx.ok hc hx'
    exact (hf a ha).ok hc₁ hf'

theorem atomic {x : Build α} {Q : α → Prop} (hx : Keeps V S x Q) : Keeps V S (atomic x) Q where
  ok hc h := hx.ok hc (atomic_eq_ok.mp h)

theorem of_pure {a : α} {Q : α → Prop} (ha : Q a) : Keeps V S (pure a) Q where
  ok hc h := by
    cases h
    exact ⟨hc, ha⟩

theorem of_ofExcept {result : Except Error α} {Q : α → Prop} (h : ∀ a, result = .ok a → Q a) :
    Keeps V S (ofExcept result) Q where
  ok hc hok := by
    obtain ⟨hresult, rfl⟩ := ofExcept_eq_ok.mp hok
    exact ⟨hc, h _ hresult⟩

end Keeps

theorem keeps_single (operation : String) :
    Keeps V S (single operation) fun p => V p.1 ∧ S p.2 where
  ok {c c' p} hc h := by
    obtain ⟨hcursor, rfl⟩ := cursor_of_single (v := p.1) (q := p.2) h
    have hcurrent := hc.cursor
    rw [hcursor] at hcurrent
    exact ⟨hc, hcurrent.values _ List.mem_cons_self, hcurrent.states _ List.mem_cons_self⟩

theorem keeps_branch (operation : String) :
    Keeps V S (branch operation) fun p => V p.1 ∧ ∀ s ∈ p.2, S s where
  ok {c c' p} hc h := by
    obtain ⟨v, ss⟩ := p
    obtain ⟨hcursor, rfl⟩ := cursor_of_branch h
    have hcurrent := hc.cursor
    rw [hcursor] at hcurrent
    exact ⟨hc, hcurrent.values _ List.mem_cons_self, hcurrent.states⟩

theorem keeps_current : Keeps V S current (Condition.Confined V S) where
  ok hc h := by
    cases h
    exact ⟨hc, hc.cursor⟩

theorem keeps_blank : Keeps V S blank V where
  ok hc h := by
    cases h
    exact ⟨hc, hc.machine.blank⟩

theorem keeps_newState : Keeps V S newState S where
  ok hc h := by
    cases h
    exact ⟨⟨hc.machine, hc.cursor, hc.values, hc.states.pop.2⟩, hc.states.pop.1⟩

theorem keeps_newStates (n : Nat) : Keeps V S (newStates n) fun ss => ∀ s ∈ ss, S s where
  ok hc h := by
    cases h
    exact ⟨⟨hc.machine, hc.cursor, hc.values, (hc.states.take n).2⟩, (hc.states.take n).1⟩

theorem keeps_newValue : Keeps V S newValue V where
  ok hc h := by
    cases h
    exact ⟨⟨hc.machine, hc.cursor, hc.values.pop.2, hc.states⟩, hc.values.pop.1⟩

theorem keeps_newValues (n : Nat) : Keeps V S (newValues n) fun vs => ∀ v ∈ vs, V v where
  ok hc h := by
    cases h
    exact ⟨⟨hc.machine, hc.cursor, (hc.values.take n).2, hc.states⟩, (hc.values.take n).1⟩

theorem keeps_reserve (values states : List Symbol) :
    Keeps V S (reserve values states) fun _ => True where
  ok hc h := by
    cases h
    exact ⟨⟨hc.machine, hc.cursor, hc.values.reserveAll _, hc.states.reserveAll _⟩, trivial⟩

theorem keeps_aim {condition : Condition} (h : condition.Confined V S) :
    Keeps V S (aim condition) fun _ => True where
  ok hc hok := by
    cases hok
    exact ⟨⟨hc.machine, h, hc.values, hc.states⟩, trivial⟩

theorem keeps_setCursor {condition : Condition} (h : condition.Confined V S) :
    Keeps V S (setCursor condition) fun _ => True where
  ok hc hok := by
    cases hok
    exact ⟨⟨hc.machine, h, hc.values.reserveAll _, hc.states.reserveAll _⟩, trivial⟩

theorem keeps_emit {r : Rule} (hr : r.Confined V S) : Keeps V S (emit r) fun _ => True where
  ok {c c' _} hc h := by
    obtain ⟨table, htable, rfl⟩ := emit_eq_ok.mp h
    have hrules : ∀ r' ∈ table.rules, r'.Confined V S := by
      intro r' hr'
      rcases (Table.mem_of_insert htable).mp hr' with hold | rfl
      · exact hc.machine.rules r' hold
      · exact hr
    exact ⟨⟨⟨hrules, hc.machine.cells, hc.machine.blank, hc.machine.state⟩, hc.cursor,
      hc.values.reserveAll _, hc.states.reserveAll _⟩, trivial⟩

theorem keeps_emitAll {rs : List Rule} (hrs : ∀ r ∈ rs, r.Confined V S) :
    Keeps V S (emitAll rs) fun _ => True := by
  induction rs with
  | nil => exact .of_pure trivial
  | cons r rs ih =>
    refine .bind (keeps_emit (hrs r List.mem_cons_self)) fun _ _ => ih fun r' hr' => ?_
    exact hrs r' (List.mem_cons_of_mem r hr')

/-! ## Moves -/

theorem keeps_manual {r : Rule} (hr : r.Confined V S) : Keeps V S (manual r) fun _ => True := by
  refine .atomic (.bind (Q := fun _ => True) ⟨fun hc h => ?_⟩ fun _ _ => keeps_emit hr)
  cases h
  exact ⟨⟨hc.machine, hc.cursor, hc.values, hc.states⟩, trivial⟩

theorem getD_of_forall {P : Symbol → Prop} {o : Option Symbol} {d : Symbol} (h : ∀ x ∈ o, P x)
    (hd : P d) : P (o.getD d) := by
  cases o with
  | none => exact hd
  | some x => exact h x rfl

section Move

variable {m : Move} (hvalues : ∀ v ∈ m.values, V v) (hstates : ∀ s ∈ m.states, S s)

include hvalues

theorem write_of_values {v : Symbol} (hv : V v) : V (m.write.getD v) := by
  refine getD_of_forall (fun x hx => hvalues x ?_) hv
  simp only [Move.values, List.mem_append, Option.mem_toList]
  exact .inl hx

theorem expect_of_values {v : Symbol} (hv : V v) : V (m.expect.getD (m.write.getD v)) := by
  refine getD_of_forall (fun x hx => hvalues x ?_) (write_of_values hvalues hv)
  simp only [Move.values, List.mem_append, Option.mem_toList]
  exact .inr hx

include hstates

theorem keeps_move : Keeps V S (move m) S := by
  refine .atomic (.bind (keeps_single _) fun (v, q) ⟨hv, hq⟩ => .bind (Q := S) ?_ fun next hnext => ?_)
  · cases hnext : m.next with
    | none => exact .of_pure hq
    | some t =>
      cases t with
      | same => exact .of_pure hq
      | fresh => exact keeps_newState
      | named s => exact .of_pure (hstates s (by simp [Move.states, hnext, Target.named?]))
  · refine .bind (keeps_emit ⟨hv, write_of_values hvalues hv, hq, hnext⟩) fun _ _ => ?_
    refine .bind (keeps_aim ?_) fun _ _ => .of_pure hnext
    exact Condition.confined_single (expect_of_values hvalues hv) hnext

theorem keeps_moveAmong {values : List Symbol} (hamong : ∀ v ∈ values, V v) :
    Keeps V S (moveAmong m values) fun _ => True := by
  rw [moveAmong]
  split
  · exact ⟨fun _ h => by cases h⟩
  · refine .atomic (.bind (keeps_move hvalues hstates) fun next hnext => ?_)
    refine .bind (keeps_reserve _ _) fun _ _ => keeps_aim ⟨hamong, fun s hs => ?_⟩
    exact (List.mem_replicate.mp hs).2 ▸ hnext

theorem keeps_join : Keeps V S (join m) fun _ => True := by
  refine .atomic (.bind (keeps_branch _) fun (v, states) ⟨hv, hss⟩ =>
    .bind (Q := S) ?_ fun next hnext => ?_)
  · cases hnext : m.next with
    | none => exact keeps_newState
    | some t =>
      cases t with
      | same => exact .bind keeps_current fun _ _ => ⟨fun _ h => by cases h⟩
      | fresh => exact keeps_newState
      | named s => exact .of_pure (hstates s (by simp [Move.states, hnext, Target.named?]))
  · refine .bind (keeps_emitAll fun r hr => ?_) fun _ _ => keeps_aim ?_
    · obtain ⟨s, hs, rfl⟩ := List.mem_map.mp hr
      exact ⟨hv, write_of_values hvalues hv, hss s hs, hnext⟩
    · exact Condition.confined_single (expect_of_values hvalues hv) hnext

end Move

theorem keeps_moveEach {m : BranchMove} (hvalues : ∀ v ∈ m.values, V v)
    (hstates : ∀ s ∈ m.states, S s) : Keeps V S (moveEach m) fun _ => True := by
  refine .atomic (.bind (keeps_branch _) fun (v, states) ⟨hv, hss⟩ => ?_)
  refine .bind (.of_ofExcept (Q := fun writes => ∀ x ∈ writes, V x) fun writes hwrites x hx => ?_)
    fun writes hwrites => .bind (.of_ofExcept (Q := fun expected => ∀ x ∈ expected, V x)
      fun expected hexpected x hx => ?_) fun expected hexpected =>
        .bind (Q := fun nexts => ∀ s ∈ nexts, S s) ?_ fun nexts hnexts => ?_
  · have hx := mem_symbols_of_expand hwrites hx
    cases hw : m.write with
    | none =>
      rw [hw] at hx
      exact List.mem_singleton.mp hx ▸ hv
    | some spread =>
      rw [hw] at hx
      exact hvalues x (by simp [BranchMove.values, hw]; exact .inl hx)
  · have hx := mem_symbols_of_expand hexpected hx
    cases he : m.expect with
    | none =>
      rw [he] at hx
      exact hwrites x hx
    | some spread =>
      rw [he] at hx
      exact hvalues x (by simp [BranchMove.values, he]; exact .inr hx)
  · cases hnext : m.next with
    | same => exact .of_pure hss
    | fresh => exact keeps_newStates _
    | named ss =>
      refine .of_ofExcept fun nexts hexpand s hs => hstates s ?_
      obtain ⟨rfl, -⟩ := expand_each_ok hexpand
      simpa [BranchMove.states, hnext] using hs
  · refine .bind (keeps_emitAll fun r hr => ?_) fun _ _ => keeps_aim ⟨fun x hx => ?_, fun s hs => ?_⟩
    · obtain ⟨⟨s, w, next⟩, he, rfl⟩ := List.mem_map.mp hr
      obtain ⟨hs, hrest⟩ := List.of_mem_zip he
      obtain ⟨hw, hnext⟩ := List.of_mem_zip hrest
      exact ⟨hv, hwrites w hw, hss s hs, hnexts next hnext⟩
    · exact hexpected x (Condition.values_ofPaths_subset _ _ hx)
    · rw [Condition.states_ofPaths] at hs
      exact hnexts s hs

theorem keeps_halt : Keeps V S halt fun _ => True :=
  .atomic (.bind (keeps_single _) fun _ ⟨hv, hq⟩ => keeps_emit ⟨hv, hv, hq, hq⟩)

end Build

/-! ## Scans -/

namespace Scan

variable {s : Scan} {w : Edit}

theorem forall_values {interior terminals : List Symbol} {direction : Action} {first last : Bool}
    (hinterior : ∀ v ∈ interior, V v) (hterminals : ∀ v ∈ terminals, V v) :
    ∀ v ∈ values ⟨interior, terminals, direction, first, last⟩, V v := by
  intro v hv
  rcases List.mem_append.mp hv with hv | hv
  · exact hinterior v hv
  · exact hterminals v hv

theorem forall_wide {more : List Symbol} (hs : ∀ v ∈ s.values, V v) (hmore : ∀ v ∈ more, V v) :
    ∀ v ∈ values { s with interior := s.interior ++ more }, V v := by
  intro v hv
  simp only [values, List.mem_append] at hv
  rcases hv with (hv | hv) | hv
  · exact hs v (List.mem_append_left _ hv)
  · exact hmore v hv
  · exact hs v (List.mem_append_right _ hv)

theorem forall_edited {v : Symbol} (hstart : V (w.start v))
    (hinterior : ∀ x ∈ s.crossed, V (w.interior x)) (hfinish : ∀ x ∈ s.stops, V (w.finish x)) :
    ∀ x ∈ s.edited w v, V x := by
  intro x hx
  simp only [edited, List.mem_append] at hx
  rcases hx with (hx | hx) | hx
  · by_cases hedit : s.editStart
    · simp only [hedit, if_true, List.mem_singleton] at hx
      exact hx ▸ hstart
    · simp [hedit] at hx
  · exact List.forall_mem_map.mpr hinterior x hx
  · by_cases hedit : s.editEnd
    · simp only [hedit, if_true] at hx
      exact List.forall_mem_map.mpr hfinish x hx
    · simp [hedit] at hx

theorem forall_crossed (hs : ∀ v ∈ s.values, V v) : ∀ v ∈ s.crossed, V v := fun v hv =>
  hs v (List.mem_append_left _ (mem_crossed.mp hv).1)

theorem forall_stops (hs : ∀ v ∈ s.values, V v) : ∀ v ∈ s.stops, V v := fun v hv =>
  hs v (List.mem_append_right _ (mem_stops.mp hv))

theorem edited_keep (hs : ∀ v ∈ s.values, V v) {v : Symbol} (hv : V v) :
    ∀ x ∈ s.edited .keep v, V x :=
  forall_edited hv (forall_crossed hs) (forall_stops hs)

theorem edited_paint {symbol : Symbol} (h : V symbol) {v : Symbol} :
    ∀ x ∈ s.edited (.paint symbol) v, V x :=
  forall_edited h (fun _ _ => h) fun _ _ => h

theorem edited_relocate {pairs : List (Symbol × Symbol)} (hpairs : ∀ p ∈ pairs, V p.2)
    (hs : ∀ v ∈ s.values, V v) {v : Symbol} (hv : V v) :
    ∀ x ∈ s.edited (.relocate pairs) v, V x := by
  refine forall_edited ?_ (forall_crossed hs) (forall_stops hs)
  refine Build.getD_of_forall (fun x hx => ?_) hv
  obtain ⟨front, back, heq, -⟩ := List.lookup_eq_some_iff.mp hx
  have hmem : (v, x) ∈ pairs.reverse := by simp [heq]
  exact hpairs (v, x) (List.mem_reverse.mp hmem)

section Edited

variable {v : Symbol} (hw : ∀ x ∈ s.edited w v, V x)

include hw

theorem first_of_edited (hv : V v) : V (s.first w v) := by
  rw [first]
  by_cases hedit : s.editStart
  · rw [if_pos hedit]
    exact hw _ (by simp [edited, hedit])
  · rw [if_neg hedit]
    exact hv

theorem interior_of_edited {x : Symbol} (hx : x ∈ s.crossed) : V (w.interior x) := by
  refine hw _ ?_
  simp only [edited, List.mem_append]
  exact .inl (.inr (List.mem_map_of_mem hx))

theorem last_of_edited {x : Symbol} (hx : x ∈ s.stops) (hv : V x) : V (s.last w x) := by
  rw [last]
  by_cases hedit : s.editEnd
  · rw [if_pos hedit]
    refine hw _ ?_
    simp only [edited, hedit, if_true, List.mem_append]
    exact .inr (List.mem_map_of_mem hx)
  · rw [if_neg hedit]
    exact hv

end Edited

end Scan

namespace Build

variable {c c' : Compiler} {s : Scan} {w : Edit} {arrived : Symbol}

/-- A scan brings in the values that it is given and those that its edit gives at the cursor. -/
theorem scan_confined (hc : c.Confined V S) (hs : ∀ v ∈ s.values, V v)
    (hw : ∀ e ∈ c.cursor.current.entries, ∀ x ∈ s.edited w e.1, V x)
    (h : scan s w c = .ok arrived c') : c'.Confined V S ∧ S arrived := by
  have hcrossed := Scan.forall_crossed hs
  have hstops := Scan.forall_stops hs
  rw [scan] at h
  obtain ⟨⟨⟩, c₁, hk, h⟩ := bind_eq_ok.mp (atomic_eq_ok.mp h)
  obtain ⟨-, rfl⟩ := ofExcept_eq_ok.mp hk
  obtain ⟨⟨v, q⟩, c₂, hsingle, h⟩ := bind_eq_ok.mp h
  obtain ⟨-, hv, -⟩ := (keeps_single _).ok hc hsingle
  obtain ⟨hcursor, rfl⟩ := cursor_of_single hsingle
  rw [hcursor] at hw
  have hw := hw (v, q) List.mem_cons_self
  have hmove : ∀ x ∈ Move.values ⟨s.direction, some (s.first w v), none, some .fresh⟩, V x := by
    simpa [Move.values] using Scan.first_of_edited hw hv
  -- From here on the operation is one that keeps any compiler confined.
  refine (Keeps.bind (keeps_move hmove (by simp [Move.states, Target.named?])) fun going hgoing =>
    .bind (keeps_emitAll fun r hr => ?_) fun _ _ => .bind keeps_newState fun arrived harrived =>
      .bind (keeps_emitAll fun r hr => ?_) fun _ _ => .bind (keeps_setCursor ?_) fun _ _ =>
        .of_pure harrived).ok hc h
  · obtain ⟨x, hx, rfl⟩ := List.mem_map.mp hr
    exact ⟨hcrossed x hx, Scan.interior_of_edited hw hx, hgoing, hgoing⟩
  · obtain ⟨x, hx, rfl⟩ := List.mem_map.mp hr
    exact ⟨hstops x hx, Scan.last_of_edited hw hx (hstops x hx), hgoing, harrived⟩
  · refine Condition.confined_meeting (fun y hy => ?_) harrived
    obtain ⟨x, hx, rfl⟩ := List.mem_map.mp (List.mem_eraseDups.mp hy)
    exact Scan.last_of_edited hw hx (hstops x hx)

theorem keeps_scan (hs : ∀ v ∈ s.values, V v) (hw : ∀ v, V v → ∀ x ∈ s.edited w v, V x) :
    Keeps V S (scan s w) S where
  ok hc h := scan_confined hc hs (fun e he => hw e.1 (hc.cursor.entries e he).1) h

theorem keeps_seek (hs : ∀ v ∈ s.values, V v) : Keeps V S (seek s) S :=
  keeps_scan hs fun _ hv => Scan.edited_keep hs hv

theorem keeps_paint (hs : ∀ v ∈ s.values, V v) {symbol : Option Symbol}
    (hsymbol : ∀ x ∈ symbol, V x) : Keeps V S (paint s symbol) S :=
  .bind keeps_blank fun _ hblank =>
    keeps_scan hs fun _ _ => Scan.edited_paint (getD_of_forall hsymbol hblank)

theorem keeps_deliver (hs : ∀ v ∈ s.values, V v) {value : Option Symbol}
    (hvalue : ∀ x ∈ value, V x) : Keeps V S (deliver s value) fun _ => True := by
  refine .atomic (.bind (keeps_seek hs) fun _ _ => ?_)
  cases value with
  | none => exact .of_pure trivial
  | some value =>
    have hvalue : V value := hvalue value rfl
    refine .bind keeps_current fun found hfound => .bind keeps_newState fun target htarget => ?_
    refine .bind (keeps_emitAll fun r hr => ?_) fun _ _ =>
      keeps_setCursor (Condition.confined_single hvalue htarget)
    obtain ⟨e, he, rfl⟩ := List.mem_map.mp hr
    obtain ⟨hv, hq⟩ := hfound.entries e he
    exact ⟨hv, hvalue, hq, htarget⟩

theorem keeps_carry (hs : ∀ v ∈ s.values, V v) {replacement : Option Symbol}
    (hreplacement : ∀ x ∈ replacement, V x) : Keeps V S (carry s replacement) fun _ => True := by
  refine .atomic ?_
  cases replacement with
  | none => exact .bind (keeps_seek hs) fun _ _ => .of_pure trivial
  | some replacement =>
    refine .bind (keeps_single _) fun (v, _) ⟨hv, _⟩ => .bind (keeps_move ?_ ?_) fun _ _ => ?_
    · simpa [Move.values] using hreplacement replacement rfl
    · simp [Move.states, Target.named?]
    · exact keeps_deliver hs (by simpa using hv)

/-! ## Several paths -/

theorem keeps_scanEach (hs : ∀ v ∈ s.values, V v) {entries : List (Symbol × Symbol)}
    (hentries : ∀ e ∈ entries, V e.1 ∧ S e.2)
    (hw : ∀ e ∈ entries, ∀ x ∈ s.edited w e.1, V x) :
    Keeps V S (scanEach s w entries) fun arrived => ∀ a ∈ arrived, S a := by
  induction entries with
  | nil => exact .of_pure (by simp)
  | cons e entries ih =>
    obtain ⟨hv, hq⟩ := hentries e List.mem_cons_self
    have hrest := ih (fun e' he' => hentries e' (List.mem_cons_of_mem e he')) fun e' he' =>
      hw e' (List.mem_cons_of_mem e he')
    refine ⟨fun hc h => ?_⟩
    obtain ⟨⟨⟩, c₁, hset, h⟩ := bind_eq_ok.mp h
    have hc₁ := ((keeps_setCursor (Condition.confined_single hv hq)).ok hc hset).1
    cases hset
    obtain ⟨a, c₂, hscan, h⟩ := bind_eq_ok.mp h
    obtain ⟨others, c₃, hothers, h⟩ := bind_eq_ok.mp h
    cases h
    have hedited : ∀ e' ∈ [e], ∀ x ∈ s.edited w e'.1, V x := by
      simpa using hw e List.mem_cons_self
    obtain ⟨hc₂, ha⟩ := scan_confined hc₁ hs hedited hscan
    obtain ⟨hc₃, hstates⟩ := hrest.ok hc₂ hothers
    exact ⟨hc₃, by simpa using ⟨ha, hstates⟩⟩

/-- Scans from several pairs bring in what they are given and what their edit gives, from the values
of the pairs and across them. -/
theorem scanPairs_confined (hc : c.Confined V S) (hs : ∀ v ∈ s.values, V v)
    (hw : ∀ e ∈ c.cursor.current.entries,
      ∀ x ∈ { s with interior := s.interior ++ c.cursor.current.values }.edited w e.1, V x)
    (h : scanPairs s w c = .ok () c') : c'.Confined V S := by
  rw [scanPairs] at h
  obtain ⟨⟨values, states⟩, c₁, hp, h⟩ := bind_eq_ok.mp (atomic_eq_ok.mp h)
  obtain ⟨hcursor, rfl⟩ := cursor_of_pairs hp
  obtain ⟨stop, c₂, ho, h⟩ := bind_eq_ok.mp h
  obtain ⟨hstop, rfl⟩ := ofExcept_eq_ok.mp ho
  have hstop : V stop := Scan.forall_stops hs stop (by simp [Scan.onlyStop_eq_ok.mp hstop])
  have hcurrent := hc.cursor
  rw [hcursor] at hcurrent hw
  have hwide := Scan.forall_wide hs hcurrent.values
  have harrive : Keeps V S (scanEach _ w (values.zip states) >>= fun arrived =>
      setCursor (.branch stop arrived)) fun _ => True :=
    .bind (keeps_scanEach hwide hcurrent.entries hw) fun arrived harrived =>
      keeps_setCursor ⟨by simpa [Condition.values] using hstop, harrived⟩
  exact (harrive.ok hc h).1

theorem keeps_scanPairs (hs : ∀ v ∈ s.values, V v)
    (hw : ∀ s : Scan, (∀ v ∈ s.values, V v) → ∀ v, V v → ∀ x ∈ s.edited w v, V x) :
    Keeps V S (scanPairs s w) fun _ => True where
  ok {c c' _} hc h := by
    refine ⟨scanPairs_confined hc hs (fun e he => hw _ ?_ e.1 (hc.cursor.entries e he).1) h, trivial⟩
    exact Scan.forall_wide hs hc.cursor.values

theorem keeps_seekEach (hs : ∀ v ∈ s.values, V v) : Keeps V S (seekEach s) fun _ => True := by
  refine .atomic (.bind (keeps_branch _) fun (v, states) ⟨hv, hss⟩ => ?_)
  have hentries : ∀ e ∈ states.map fun state => (v, state), V e.1 ∧ S e.2 := by
    intro e he
    obtain ⟨q, hq, rfl⟩ := List.mem_map.mp he
    exact ⟨hv, hss q hq⟩
  refine .bind (.of_ofExcept (Q := V) fun stop hstop => ?_) fun stop hstop =>
    .bind (keeps_scanEach hs hentries fun e he => Scan.edited_keep hs (hentries e he).1)
      fun arrived harrived => keeps_setCursor ⟨?_, harrived⟩
  · exact Scan.forall_stops hs stop (by simp [Scan.onlyStop_eq_ok.mp hstop])
  · simpa [Condition.values] using hstop

/-! ## Transfers -/

section Transfer

variable {l : Layout} {origin blank marker pass : Symbol} {placeholders restored : List Symbol}
  (hl : ∀ x ∈ l.crossed, V x)

include hl

theorem forall_sources : ∀ v ∈ l.sources, V v := fun v hv =>
  hl v (Layout.mem_crossed.mpr (.inl (Layout.mem_sources.mp hv)))

theorem stop_of_crossed : V l.stop := hl _ (Layout.mem_crossed.mpr (.inr (.inl rfl)))

theorem keeps_plantMarker (hblank : V blank) (hmarker : V marker) :
    Keeps V S (plantMarker l blank marker) fun _ => True := by
  refine .bind (keeps_seek (Scan.forall_values (forall_sources hl) ?_)) fun _ _ =>
    .bind (keeps_seek (Scan.forall_values ?_ ?_)) fun _ _ =>
      keeps_deliver (Scan.forall_values ?_ ?_) (by simpa using hmarker)
  · simpa using stop_of_crossed hl
  · exact fun v hv => hl v (Layout.mem_crossed.mpr (.inr (.inr (.inl hv))))
  · simpa using hl l.start (Layout.mem_crossed.mpr (.inr (.inr (.inr (.inl rfl)))))
  · exact fun v hv => hl v (Layout.mem_crossed.mpr (.inr (.inr (.inr (.inr hv)))))
  · simpa using hblank

theorem keeps_returnToOrigin (horigin : V origin) :
    Keeps V S (returnToOrigin l origin) fun _ => True := by
  refine .bind (keeps_seek (Scan.forall_values (fun v hv => hl v ?_) ?_)) fun _ _ =>
    .bind (keeps_seek (Scan.forall_values (forall_sources hl) ?_)) fun _ _ => .of_pure trivial
  · simp only [List.mem_append, List.mem_singleton] at hv
    rw [Layout.mem_crossed]
    tauto
  · simpa using stop_of_crossed hl
  · simpa using horigin

theorem keeps_copyCell (hblank : V blank) (hmarker : V marker)
    (hplaces : ∀ v ∈ placeholders, V v) (hpass : S pass) :
    Keeps V S (copyCell l blank marker placeholders pass) fun _ => True := by
  have hsources := forall_sources hl
  refine .bind (keeps_setCursor ⟨hsources, fun s hs => (List.mem_replicate.mp hs).2 ▸ hpass⟩)
    fun _ _ => .bind (keeps_scanPairs (Scan.forall_values hl (by simpa using hmarker)) ?_) fun _ _ =>
      .bind (keeps_moveEach ?_ (by simp [BranchMove.states])) fun _ _ =>
        .bind (keeps_join (by simpa [Move.values] using hmarker) (by simp [Move.states])) fun _ _ =>
          .bind (keeps_seek (Scan.forall_values hl hplaces)) fun _ _ =>
            .bind keeps_current fun found hfound => keeps_emitAll fun r hr => ?_
  · refine fun s hs v hv => Scan.edited_relocate (fun p hp => ?_) hs hv
    exact hplaces p.2 (List.of_mem_zip hp).2
  · simpa [BranchMove.values, Spread.symbols, or_imp, forall_and] using ⟨hsources, hblank⟩
  · obtain ⟨e, he, rfl⟩ := List.mem_map.mp hr
    obtain ⟨hv, hq⟩ := hfound.entries e he
    exact ⟨hv, hv, hq, hpass⟩

theorem keeps_eraseMarker (hblank : V blank) (hmarker : V marker) (hpass : S pass) :
    Keeps V S (eraseMarker l blank marker pass) fun _ => True := by
  have hstop := stop_of_crossed hl
  refine .bind (keeps_setCursor (Condition.confined_single hstop hpass)) fun _ _ =>
    .bind (keeps_deliver (Scan.forall_values hl ?_) (by simpa using hblank)) fun _ _ =>
      .bind (keeps_seek (Scan.forall_values hl ?_)) fun _ _ => .of_pure trivial
  · simpa using hmarker
  · simpa using hstop

end Transfer

theorem keeps_restoreBlock {l : Layout} {origin : Symbol} {placeholders restored : List Symbol}
    (horigin : V origin) (hplaces : ∀ v ∈ placeholders, V v) (hrestored : ∀ v ∈ restored, V v) :
    Keeps V S (restoreBlock l origin placeholders restored) fun _ => True := by
  refine .bind (keeps_move (by simp [Move.values]) (by simp [Move.states, Target.named?]))
    fun cleanup hcleanup => .bind (keeps_emitAll fun r hr => ?_) fun _ _ =>
      .bind keeps_newState fun done hdone =>
        .bind (keeps_emit ⟨horigin, horigin, hcleanup, hdone⟩) fun _ _ =>
          keeps_setCursor (Condition.confined_single horigin hdone)
  obtain ⟨⟨p, v⟩, he, rfl⟩ := List.mem_map.mp hr
  obtain ⟨hp, hv⟩ := List.of_mem_zip he
  exact ⟨hplaces p hp, hrestored v hv, hcleanup, hcleanup⟩

theorem keeps_transfer {l : Layout} (hl : ∀ x ∈ l.crossed, V x) (erase : Bool) :
    Keeps V S (transfer l erase) fun _ => True := by
  refine .atomic (.bind (keeps_single _) fun (origin, _) ⟨horigin, _⟩ => ?_)
  refine .bind keeps_blank fun filler hfiller => .bind (.of_ofExcept fun _ _ => trivial) fun _ _ => ?_
  refine .bind (keeps_reserve _ _) fun _ _ => .bind keeps_newValue fun marker hmarker => ?_
  refine .bind (keeps_newValues _) fun placeholders hplaces => ?_
  refine .bind (keeps_plantMarker hl hfiller hmarker) fun _ _ => ?_
  refine .bind (keeps_returnToOrigin hl horigin) fun _ _ => ?_
  refine .bind (keeps_move (by simp [Move.values]) (by simp [Move.states, Target.named?]))
    fun pass hpass => ?_
  refine .bind (keeps_copyCell hl hfiller hmarker hplaces hpass) fun _ _ => ?_
  refine .bind (keeps_eraseMarker hl hfiller hmarker hpass) fun _ _ => ?_
  refine keeps_restoreBlock horigin hplaces fun v hv => ?_
  cases erase with
  | true => exact (List.mem_replicate.mp hv).2 ▸ hfiller
  | false => exact forall_sources hl v hv

end Build

/-! ## Histories -/

/-- An instruction that brings in symbols with the properties keeps a compiler confined. -/
theorem Instruction.confined_build (i : Instruction) {c c' : Compiler} (hc : c.Confined V S)
    (hvalues : ∀ v ∈ i.values c, V v) (hstates : ∀ s ∈ i.states, S s) (h : i.build c = .ok () c') :
    c'.Confined V S := by
  have drop {α : Type} {x : Build α} {Q : α → Prop} (hx : Build.Keeps V S x Q) :
      Build.Keeps V S (x >>= fun _ => pure ()) fun _ => True :=
    .bind hx fun _ _ => .of_pure trivial
  -- Scans with an edit depend on the cursor; all other instructions keep any compiler confined.
  cases i with
  | manual r =>
    simp only [values, states, List.forall_mem_cons] at hvalues hstates
    exact ((Build.keeps_manual ⟨hvalues.1, hvalues.2.1, hstates.1, hstates.2.1⟩).ok hc h).1
  | move m => exact ((drop (Build.keeps_move hvalues hstates)).ok hc h).1
  | moveAmong m among =>
    obtain ⟨hm, hamong⟩ := List.forall_mem_append.mp hvalues
    exact ((Build.keeps_moveAmong hm hstates hamong).ok hc h).1
  | join m => exact ((Build.keeps_join hvalues hstates).ok hc h).1
  | moveEach m => exact ((Build.keeps_moveEach hvalues hstates).ok hc h).1
  | halt => exact (Build.keeps_halt.ok hc h).1
  | scan s w =>
    obtain ⟨hs, hw⟩ := List.forall_mem_append.mp hvalues
    obtain ⟨arrived, c₁, hscan, h⟩ := Build.bind_eq_ok.mp h
    cases h
    exact (Build.scan_confined hc hs (fun e he x hx => hw x (List.mem_flatMap.mpr ⟨e, he, hx⟩))
      hscan).1
  | seek s => exact ((drop (Build.keeps_seek hvalues)).ok hc h).1
  | paint s symbol =>
    obtain ⟨hs, hsymbol⟩ := List.forall_mem_append.mp hvalues
    exact ((drop (Build.keeps_paint hs (by simpa using hsymbol))).ok hc h).1
  | erase s => exact ((drop (Build.keeps_paint hvalues (by simp))).ok hc h).1
  | deliver s value =>
    obtain ⟨hs, hvalue⟩ := List.forall_mem_append.mp hvalues
    exact ((Build.keeps_deliver hs (by simpa using hvalue)).ok hc h).1
  | carry s replacement =>
    obtain ⟨hs, hreplacement⟩ := List.forall_mem_append.mp hvalues
    exact ((Build.keeps_carry hs (by simpa using hreplacement)).ok hc h).1
  | scanPairs s w =>
    obtain ⟨hs, hw⟩ := List.forall_mem_append.mp hvalues
    exact Build.scanPairs_confined hc hs
      (fun e he x hx => hw x (List.mem_flatMap.mpr ⟨e, he, hx⟩)) h
  | seekPairs s =>
    exact ((Build.keeps_scanPairs hvalues fun _ hs _ hv => Scan.edited_keep hs hv).ok hc h).1
  | seekEach s => exact ((Build.keeps_seekEach hvalues).ok hc h).1
  | copyBlock l => exact ((Build.keeps_transfer hvalues false).ok hc h).1
  | moveBlock l => exact ((Build.keeps_transfer hvalues true).ok hc h).1

/-- What a command brings in at a compiler has the properties. An instruction that fails brings in
nothing. -/
def Command.Within (V S : Symbol → Prop) (c : Compiler) : Command → Prop
  | compile i =>
    (∃ condition, (c.compile i).1 = .ok condition) →
      (∀ v ∈ i.values c, V v) ∧ ∀ s ∈ i.states, S s
  | setCursor condition => condition.Confined V S
  | reserve .. | newState | newValue | run _ => True

namespace Compiler

variable {c : Compiler}

/-- All that a history brings in has the properties. -/
def Fed (V S : Symbol → Prop) (c : Compiler) : List Command → Prop
  | [] => True
  | command :: history => command.Within V S c ∧ (c.perform command).2.Fed V S history

theorem Confined.perform (hc : c.Confined V S) {command : Command} (h : command.Within V S c) :
    (c.perform command).2.Confined V S := by
  cases command with
  | compile i =>
    simp only [Command.Within, Compiler.perform, compile] at h ⊢
    cases hb : i.build c with
    | ok _ c' =>
      rw [hb] at h
      obtain ⟨hvalues, hstates⟩ := h ⟨_, rfl⟩
      exact i.confined_build hc hvalues hstates hb
    | error e c' =>
      obtain rfl := i.atomic_build.error hb
      exact hc
  | setCursor condition => exact ((Build.keeps_setCursor h).ok (a := ()) hc rfl).1
  | reserve values states => exact ((Build.keeps_reserve values states).ok (a := ()) hc rfl).1
  | newState => exact (Build.keeps_newState.ok hc rfl).1
  | newValue => exact (Build.keeps_newValue.ok hc rfl).1
  | run limit => exact ⟨hc.machine.run limit, hc.cursor, hc.values, hc.states⟩

theorem Confined.after (hc : c.Confined V S) {history : List Command} (h : c.Fed V S history) :
    (c.after history).Confined V S := by
  induction history generalizing c with
  | nil => exact hc
  | cons command history ih => exact ih (hc.perform h.1) h.2

end Compiler

end TapeCompiler
