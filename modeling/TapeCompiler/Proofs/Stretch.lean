import TapeCompiler.Machine.Basic

/-!
# Runs along a stretch of tape

Most of what a compiled program does happens on a finite stretch of tape, on which it goes forward
and back. A `Stretch` fixes a table, a direction, where the stretch begins, and what the cells
beyond it hold; a `Spot` is a position on it with the content of its cells, listed away from the
head on both sides. `Machine.At` says that a machine is in such a situation, and `Stretch.Leads`
that the table takes every machine from one spot to another in a given number of steps, none of them
the last.

Since a spot lists the cells of both sides in the same way, it can be turned around: a run backward
is a run forward on the stretch seen from its other end.
-/

namespace TapeCompiler

namespace Action

theorem offset_mul_inj {d : Action} (hd : d.moves = true) {j k : Nat}
    (h : (j : Int) * d.offset = k * d.offset) : j = k := by
  cases d with
  | left => simp only [offset] at h; omega
  | right => simp only [offset] at h; omega
  | stay => cases hd
  | halt => cases hd

theorem ne_halt_of_moves {d : Action} (hd : d.moves = true) : d ≠ .halt := by
  rintro rfl
  cases hd

@[simp] theorem moves_opposite (d : Action) : d.opposite.moves = d.moves := by
  cases d <;> rfl

end Action

namespace Tape

variable {t t' : Tape} {d : Action} {p : Int} {xs ys : List Symbol}

/-- The cells from `p` on, in a direction, hold the word `xs`. -/
def Along (t : Tape) (d : Action) (p : Int) (xs : List Symbol) : Prop :=
  ∀ (k : Nat) (x : Symbol), xs[k]? = some x → t.read (p + k * d.offset) = x

theorem along_append :
    t.Along d p (xs ++ ys) ↔ t.Along d p xs ∧ t.Along d (p + xs.length * d.offset) ys := by
  have shift (k : Nat) : p + xs.length * d.offset + k * d.offset =
      p + ((xs.length + k : Nat) : Int) * d.offset := by
    rw [Int.natCast_add, Int.add_mul, Int.add_assoc]
  constructor
  · intro h
    refine ⟨fun k x hx => h k x ?_, fun k x hx => ?_⟩
    · rw [List.getElem?_append_left (List.getElem?_eq_some_iff.mp hx).1]
      exact hx
    · rw [shift]
      apply h
      rw [List.getElem?_append_right (Nat.le_add_right _ _), Nat.add_sub_cancel_left]
      exact hx
  · rintro ⟨hxs, hys⟩ k x hx
    by_cases hk : k < xs.length
    · rw [List.getElem?_append_left hk] at hx
      exact hxs k x hx
    · have hle := Nat.le_of_not_lt hk
      rw [List.getElem?_append_right hle] at hx
      have h := hys _ x hx
      rw [shift, Nat.add_sub_cancel' hle] at h
      exact h

theorem along_cons {x : Symbol} :
    t.Along d p (x :: xs) ↔ t.read p = x ∧ t.Along d (p + d.offset) xs := by
  have one : t.Along d p [x] ↔ t.read p = x := by
    constructor
    · intro h
      simpa using h 0 x rfl
    · intro h k y hy
      cases k with
      | zero => simpa [h] using hy
      | succ k => simp at hy
  rw [← List.singleton_append, along_append, one]
  simp

/-- The same cells from the other end. -/
theorem Along.reverse {n : Nat} (h : t.Along d p xs) (hn : xs.length = n + 1) :
    t.Along d.opposite (p + n * d.offset) xs.reverse := by
  intro k y hy
  have hk := (List.getElem?_eq_some_iff.mp hy).1
  rw [List.length_reverse, hn] at hk
  have hback : xs[n - k]? = some y := by
    rw [List.getElem?_reverse (by omega), hn] at hy
    rw [← hy]
    congr 1
  rw [← h _ y hback, Int.ofNat_sub (by omega), Int.sub_mul, Action.offset_opposite, Int.mul_neg]
  congr 1
  omega

/-- Changing one cell of a word. -/
theorem Along.write {v w : Symbol} (hd : d.moves = true) (h : t.Along d p (xs ++ v :: ys))
    (hread : ∀ i, t'.read i = if i = p + xs.length * d.offset then w else t.read i) :
    t'.Along d p (xs ++ w :: ys) := by
  have hset : xs ++ w :: ys = (xs ++ v :: ys).set xs.length w := by simp
  intro k x hx
  rw [hset, List.getElem?_set] at hx
  rw [hread]
  by_cases hk : xs.length = k
  · subst hk
    simpa using hx
  · rw [if_neg hk] at hx
    rw [if_neg]
    · exact h k x hx
    · intro heq
      exact hk (Action.offset_mul_inj hd (by omega)).symm

end Tape

namespace Machine

variable {m m' : Machine} {n k : Nat}

theorem run_succ (h : m.step = (.continues, m')) : m.run (n + 1) = m'.run n := by
  rw [run, h]

/-- A run goes on from where the machine has come to. -/
theorem run_add (h : m.run n = (.continues, m')) : m.run (n + k) = m'.run k := by
  induction n generalizing m with
  | zero =>
    cases h
    rw [Nat.zero_add]
  | succ n ih =>
    cases hs : m.step with
    | mk outcome m₁ =>
      cases outcome with
      | continues =>
        rw [run_succ hs] at h
        rw [Nat.succ_add, run_succ hs]
        exact ih h
      | halted =>
        rw [run, hs] at h
        cases h
      | failed e =>
        rw [run, hs] at h
        cases h

/-- A rule of the table applies in its situation. -/
theorem step_of_mem {r : Rule} (hr : r ∈ m.table.rules) (hm : m.halted = false)
    (hv : r.value = m.symbol) (hs : r.state = m.state) :
    ∃ m', m.step = (if r.action = .halt then .halted else .continues, m') ∧
      m'.table = m.table ∧ m'.halted = (r.action == .halt) ∧ m'.state = r.next ∧
      m'.head = m.head + r.action.offset ∧
      ∀ i, m'.tape.read i = if i = m.head then r.write else m.tape.read i := by
  have hfind : m.table.find? (m.tape.reach m.head |>.read m.head) m.state = some r := by
    rw [Tape.read_reach]
    exact Table.find?_eq_some_iff.mpr ⟨hr, hv, hs⟩
  refine ⟨{ m with tape := m.tape.reach m.head }.apply r, ?_, rfl, rfl, rfl, rfl, ?_⟩
  · simp only [step, hm, Bool.false_eq_true, if_false, symbol, hfind, apply, beq_iff_eq]
  · intro i
    have hw : ((m.tape.reach m.head).write m.head r.write).read i =
        if i = m.head then r.write else m.tape.read i := by
      rw [Tape.read_write, Tape.read_reach]
    rw [apply]
    dsimp only
    split
    · rw [Tape.read_reach, hw]
    · exact hw

/-- Without a rule for its situation a machine fails where it is. -/
theorem step_of_find?_eq_none (hm : m.halted = false)
    (h : m.table.find? m.symbol m.state = none) :
    m.step = (.failed (.missingRule m.symbol m.state m.table.rules),
      { m with tape := m.tape.reach m.head }) := by
  rw [symbol] at h
  simp only [step, hm, Bool.false_eq_true, if_false, symbol, Tape.read_reach, h]

end Machine

/-- A stretch of tape: the table of the machine that works on it, the direction that counts as
forward, the position of its first cell, and the cells beyond it. -/
structure Stretch where
  table : Table
  direction : Action
  base : Int
  outside : Int → Symbol

/-- The stretch that begins where a machine is, with all cells as they are. -/
def Machine.stretch (m : Machine) (d : Action) : Stretch := ⟨m.table, d, m.head, m.tape.read⟩

/-- A situation on a stretch. `back` lists the cells behind the head and `front` the cell under the
head and those before it, both away from the head. -/
structure Spot where
  back : List Symbol
  front : List Symbol
  state : Symbol

/-- A running machine is at a spot of a stretch. -/
structure Machine.At (m : Machine) (S : Stretch) (p : Spot) : Prop where
  table : m.table = S.table
  running : m.halted = false
  state : m.state = p.state
  head : m.head = S.base + p.back.length * S.direction.offset
  cells : m.tape.Along S.direction S.base (p.back.reverse ++ p.front)
  frame : ∀ i, (∀ k : Nat, k < p.back.length + p.front.length →
    i ≠ S.base + k * S.direction.offset) → m.tape.read i = S.outside i

namespace Machine.At

variable {m : Machine} {S : Stretch} {back front : List Symbol} {v q w next : Symbol} {a : Action}

theorem symbol_eq (h : m.At S ⟨back, v :: front, q⟩) : m.symbol = v := by
  have hc := (Tape.along_append.mp h.cells).2
  rw [List.length_reverse] at hc
  rw [symbol, h.head]
  exact (Tape.along_cons.mp hc).1

/-- A machine at the start of a word. -/
theorem of_along {d : Action} {xs : List Symbol} (hm : m.halted = false) (hq : m.state = q)
    (h : m.tape.Along d m.head xs) : m.At (m.stretch d) ⟨[], xs, q⟩ where
  table := rfl
  running := hm
  state := hq
  head := by simp [stretch]
  cells := h
  frame _ _ := rfl

/-- A rule of the table rewrites the cell under the head, and moves the head. -/
theorem step (hd : S.direction.moves = true) (h : m.At S ⟨back, v :: front, q⟩)
    (hr : ⟨v, q, w, next, a⟩ ∈ S.table.rules) :
    ∃ m', m.step = (if a = .halt then .halted else .continues, m') ∧
      m'.table = S.table ∧ m'.halted = (a == .halt) ∧ m'.state = next ∧
      m'.head = S.base + back.length * S.direction.offset + a.offset ∧
      m'.tape.Along S.direction S.base (back.reverse ++ w :: front) ∧
      ∀ i, (∀ k : Nat, k < back.length + (front.length + 1) →
        i ≠ S.base + k * S.direction.offset) → m'.tape.read i = S.outside i := by
  have hsymbol := h.symbol_eq
  obtain ⟨m', hstep, htable, hhalted, hstate, hhead, hread⟩ :=
    step_of_mem (h.table ▸ hr) h.running hsymbol.symm h.state.symm
  refine ⟨m', hstep, htable.trans h.table, hhalted, hstate, by rw [hhead, h.head], ?_, ?_⟩
  · apply h.cells.write hd
    intro i
    rw [hread, h.head, List.length_reverse]
  · intro i hi
    rw [hread, if_neg]
    · exact h.frame i hi
    · rw [h.head]
      exact hi _ (Nat.lt_add_of_pos_right (Nat.succ_pos _))

end Machine.At

/-- `m'` is `m` after it has gone `n` cells in a direction: the cells from where it was on hold the
word `xs` now, and all others hold what they did. -/
structure Machine.Rewrites (m m' : Machine) (d : Action) (n : Nat) (xs : List Symbol) : Prop where
  head : m'.head = m.head + n * d.offset
  cells : m'.tape.Along d m.head xs
  others : ∀ i, (∀ k : Nat, k < xs.length → i ≠ m.head + k * d.offset) →
    m'.tape.read i = m.tape.read i

theorem Machine.At.rewrites {m m' : Machine} {d : Action} {p : Spot}
    (h : m'.At (m.stretch d) p) :
    m.Rewrites m' d p.back.length (p.back.reverse ++ p.front) where
  head := h.head
  cells := h.cells
  others := by
    intro i hi
    apply h.frame
    intro k hk
    apply hi
    rw [List.length_append, List.length_reverse]
    exact hk

/-- Storing a cell changes none. -/
theorem Machine.Rewrites.reach {m m' : Machine} {d : Action} {n : Nat} {xs : List Symbol}
    (h : m.Rewrites m' d n xs) (i : Int) :
    m.Rewrites { m' with tape := m'.tape.reach i } d n xs where
  head := h.head
  cells := by
    intro k x hx
    rw [Tape.read_reach]
    exact h.cells k x hx
  others := by
    intro j hj
    rw [Tape.read_reach]
    exact h.others j hj

/-- A halting rule ends a run that has come to a spot, and leaves the cells as they are. -/
theorem Machine.run_halt {m m' : Machine} {d : Action} {back front : List Symbol} {v q : Symbol}
    {n : Nat} (hd : d.moves = true) (hrun : m.run n = (.continues, m'))
    (h : m'.At (m.stretch d) ⟨back, v :: front, q⟩) (hr : ⟨v, q, v, q, .halt⟩ ∈ m.table.rules) :
    ∃ m'', m.run (n + 1) = (.halted, m'') ∧
      m.Rewrites m'' d back.length (back.reverse ++ v :: front) := by
  obtain ⟨m'', hstep, -, -, -, hhead, hcells, hframe⟩ := h.step hd hr
  rw [if_pos rfl] at hstep
  refine ⟨m'', ?_, ?_, hcells, ?_⟩
  · rw [run_add hrun, run, hstep]
  · rw [hhead]
    exact Int.add_zero _
  · intro i hi
    apply hframe
    intro k hk
    apply hi
    rw [List.length_append, List.length_reverse]
    exact hk

namespace Stretch

variable {S : Stretch} {n k : Nat} {p p' p'' : Spot}

/-- The table takes every machine from one spot to another in `n` steps, after each of which it
continues. -/
def Leads (S : Stretch) (n : Nat) (p p' : Spot) : Prop :=
  ∀ m : Machine, m.At S p → ∃ m', m.run n = (.continues, m') ∧ m'.At S p'

theorem Leads.refl (S : Stretch) (p : Spot) : S.Leads 0 p p := fun m h => ⟨m, rfl, h⟩

theorem Leads.trans (h : S.Leads n p p') (h' : S.Leads k p' p'') : S.Leads (n + k) p p'' := by
  intro m hm
  obtain ⟨m', hrun, hm'⟩ := h m hm
  obtain ⟨m'', hrun', hm''⟩ := h' m' hm'
  refine ⟨m'', ?_, hm''⟩
  rw [Machine.run_add hrun, hrun']

/-- The table takes every machine from one spot to another, in a number of steps that does not
depend on the machine. -/
def Reaches (S : Stretch) (p p' : Spot) : Prop := ∃ n, S.Leads n p p'

theorem Leads.reaches (h : S.Leads n p p') : S.Reaches p p' := ⟨n, h⟩

theorem Reaches.refl (S : Stretch) (p : Spot) : S.Reaches p p := (Leads.refl S p).reaches

theorem Reaches.trans (h : S.Reaches p p') (h' : S.Reaches p' p'') : S.Reaches p p'' := by
  obtain ⟨n, hn⟩ := h
  obtain ⟨k, hk⟩ := h'
  exact (hn.trans hk).reaches

instance (S : Stretch) : Trans S.Reaches S.Reaches S.Reaches := ⟨Reaches.trans⟩

section Steps

variable {back front : List Symbol} {u v q w next : Symbol}

/-- One step forward. -/
theorem leads_forward (hd : S.direction.moves = true)
    (hr : ⟨v, q, w, next, S.direction⟩ ∈ S.table.rules) :
    S.Leads 1 ⟨back, v :: front, q⟩ ⟨w :: back, front, next⟩ := by
  intro m hm
  have hne := Action.ne_halt_of_moves hd
  obtain ⟨m', hstep, htable, hhalted, hstate, hhead, hcells, hframe⟩ := hm.step hd hr
  rw [if_neg hne] at hstep
  refine ⟨m', Machine.run_succ hstep, htable, ?_, hstate, ?_, ?_, ?_⟩
  · rw [hhalted, beq_eq_false_iff_ne]
    exact hne
  · rw [hhead, List.length_cons, Int.natCast_add, Int.add_mul]
    simp [Int.add_assoc]
  · simpa using hcells
  · intro i hi
    apply hframe
    intro k hk
    apply hi
    simp only [List.length_cons]
    omega

/-- One step in place. -/
theorem leads_stay (hd : S.direction.moves = true)
    (hr : ⟨v, q, w, next, .stay⟩ ∈ S.table.rules) :
    S.Leads 1 ⟨back, v :: front, q⟩ ⟨back, w :: front, next⟩ := by
  intro m hm
  obtain ⟨m', hstep, htable, hhalted, hstate, hhead, hcells, hframe⟩ := hm.step hd hr
  refine ⟨m', Machine.run_succ hstep, htable, hhalted, hstate, ?_, hcells, hframe⟩
  rw [hhead]
  exact Int.add_zero _

end Steps

/-- The stretch of `n + 1` cells from its other end. -/
def flip (S : Stretch) (n : Nat) : Stretch :=
  { S with direction := S.direction.opposite, base := S.base + n * S.direction.offset }

theorem flip_flip (S : Stretch) (n : Nat) : (S.flip n).flip n = S := by
  simp only [flip, Action.opposite_opposite, Action.offset_opposite, Int.mul_neg]
  congr 1
  omega

end Stretch

/-- The same situation seen from the other end of the stretch. -/
theorem Machine.At.flip {m : Machine} {S : Stretch} {back front : List Symbol} {v q : Symbol}
    (h : m.At S ⟨back, v :: front, q⟩) :
    m.At (S.flip (back.length + front.length)) ⟨front, v :: back, q⟩ where
  table := h.table
  running := h.running
  state := h.state
  head := by
    rw [h.head]
    simp only [Stretch.flip, Action.offset_opposite, Int.mul_neg, Int.natCast_add, Int.add_mul]
    omega
  cells := by
    have hc := h.cells.reverse (n := back.length + front.length) (by simp; omega)
    simpa [Stretch.flip] using hc
  frame := by
    intro i hi
    apply h.frame
    intro k hk heq
    simp only [List.length_cons] at hk
    apply hi (back.length + front.length - k)
    · simp only [List.length_cons]
      omega
    · rw [heq]
      simp only [Stretch.flip, Action.offset_opposite, Int.mul_neg]
      rw [Int.ofNat_sub (by omega), Int.sub_mul]
      omega

namespace Stretch

variable {S : Stretch} {back front back' front' : List Symbol} {u v v' q q' w next : Symbol}

/-- A run forward, seen from the other end, is a run backward. -/
theorem Leads.flip {n N : Nat}
    (h : (S.flip N).Leads n ⟨front, v :: back, q⟩ ⟨front', v' :: back', q'⟩)
    (hN : back.length + front.length = N) (hN' : back'.length + front'.length = N) :
    S.Leads n ⟨back, v :: front, q⟩ ⟨back', v' :: front', q'⟩ := by
  intro m hm
  obtain ⟨m', hrun, hm'⟩ := h m (hN ▸ hm.flip)
  have hback := hm'.flip
  rw [Nat.add_comm, hN', S.flip_flip] at hback
  exact ⟨m', hrun, hback⟩

/-! ## Passes

A pass leaves a cell, goes on over some cells in one state, and stops on a last one. What it finds
in the cells between and what it writes into them are given as functions of one word. -/

/-- Going on over a word in one state. -/
theorem leads_over {found left : Symbol → Symbol} {word : List Symbol}
    (hd : S.direction.moves = true)
    (hr : ∀ x ∈ word, ⟨found x, q, left x, q, S.direction⟩ ∈ S.table.rules) :
    S.Leads word.length ⟨back, word.map found ++ front, q⟩
      ⟨(word.map left).reverse ++ back, front, q⟩ := by
  induction word generalizing back with
  | nil => exact .refl S _
  | cons x word ih =>
    have hstep : S.Leads 1 ⟨back, found x :: (word.map found ++ front), q⟩
        ⟨left x :: back, word.map found ++ front, q⟩ :=
      leads_forward hd (hr x List.mem_cons_self)
    have h := hstep.trans (ih fun y hy => hr y (List.mem_cons_of_mem x hy))
    rw [List.length_cons, Nat.add_comm]
    simpa using h

/-- A pass forward. -/
theorem leads_pass {found left : Symbol → Symbol} {word : List Symbol}
    {t t' going arrived : Symbol} (hd : S.direction.moves = true)
    (hleave : ⟨v, q, v', going, S.direction⟩ ∈ S.table.rules)
    (hover : ∀ x ∈ word, ⟨found x, going, left x, going, S.direction⟩ ∈ S.table.rules)
    (hstop : ⟨t, going, t', arrived, .stay⟩ ∈ S.table.rules) :
    S.Leads (word.length + 2) ⟨back, v :: (word.map found ++ t :: front), q⟩
      ⟨(word.map left).reverse ++ v' :: back, t' :: front, arrived⟩ := by
  rw [show word.length + 2 = 1 + word.length + 1 by omega]
  exact ((leads_forward hd hleave).trans (leads_over hd hover)).trans (leads_stay hd hstop)

/-- A pass backward. -/
theorem leads_pass_back {found left : Symbol → Symbol} {word : List Symbol}
    {t t' going arrived : Symbol} (hd : S.direction.moves = true)
    (hleave : ⟨v, q, v', going, S.direction.opposite⟩ ∈ S.table.rules)
    (hover : ∀ x ∈ word, ⟨found x, going, left x, going, S.direction.opposite⟩ ∈ S.table.rules)
    (hstop : ⟨t, going, t', arrived, .stay⟩ ∈ S.table.rules) :
    S.Leads (word.length + 2) ⟨word.map found ++ t :: back, v :: front, q⟩
      ⟨back, t' :: ((word.map left).reverse ++ v' :: front), arrived⟩ := by
  have hd' (n : Nat) : (S.flip n).direction.moves = true := by
    rw [flip, Action.moves_opposite, hd]
  refine (leads_pass (hd' _) hleave hover hstop).flip rfl ?_
  simp only [List.length_append, List.length_cons, List.length_map, List.length_reverse]
  omega

end Stretch

end TapeCompiler
