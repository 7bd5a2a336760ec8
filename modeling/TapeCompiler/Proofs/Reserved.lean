import TapeCompiler.NameSupply.Basic

/-!
# Reserved symbols of a name supply

Each operation of a supply reserves what it is given, or what it hands out, and nothing is ever
released. The lemmas below say this exactly: a symbol is reserved afterwards if and only if it was
reserved before or is one of those the operation is about. Since only what is not reserved is handed
out, a supply never repeats itself, whatever is asked of it (`never_repeats`).
-/

namespace TapeCompiler.NameSupply

variable {s : NameSupply} {x y : Symbol}

theorem isReserved_iff :
    s.isReserved x = true ↔ x ∈ s.reserved ∨ s.protects x = true := by
  rw [isReserved, Bool.or_eq_true, List.contains_iff_mem]

@[simp] theorem isReserved_reserve :
    (s.reserve x).isReserved y = true ↔ y = x ∨ s.isReserved y = true := by
  have hp : (s.reserve x).protects y = s.protects y := rfl
  rw [isReserved_iff, isReserved_iff, hp, reserve, List.mem_insert_iff, or_assoc]

@[simp] theorem isReserved_reserveAll {xs : List Symbol} :
    (s.reserveAll xs).isReserved y = true ↔ y ∈ xs ∨ s.isReserved y = true := by
  rw [reserveAll]
  induction xs generalizing s with
  | nil => simp
  | cons x xs ih =>
    rw [List.foldl_cons, ih, isReserved_reserve, List.mem_cons, or_left_comm, or_assoc]

/-- Trying candidates moves the counters only. -/
@[simp] theorem isReserved_advance (k : Nat) : (s.advance k).isReserved y = s.isReserved y := by
  rw [advance]
  cases s.series with
  | none => rfl
  | some letters =>
    dsimp only
    split <;> rfl

@[simp] theorem isReserved_snd_pop :
    s.pop.2.isReserved y = true ↔ y = s.pop.1 ∨ s.isReserved y = true := by
  simp only [pop, isReserved_reserve, isReserved_advance]

/-- A series can be started from a label that is not the last of its letters. -/
theorem startSeries_eq_ok {s' : NameSupply} :
    s.startSeries x = .ok s' ↔ ∃ l, Label.ofSymbol? x = some l ∧ l.number ≠ Label.maxNumber ∧
      s' = { s with
        series := some l.letters
        counters := s.counters.raise l.letters l.number
        floors := s.floors.raise l.letters
          ((s.counters.raise l.letters l.number).get l.letters) }.reserve x := by
  rw [startSeries]
  cases Label.ofSymbol? x with
  | none => simp
  | some l =>
    by_cases hn : l.number = Label.maxNumber
    · simp [hn]
    · simp only [hn, if_false, Except.ok.injEq, Option.some.injEq, exists_eq_left', ne_eq,
        not_false_eq_true, true_and]
      exact eq_comm

/-- Starting a series reserves its label. -/
theorem isReserved_of_startSeries {s' : NameSupply} (h : s.startSeries x = .ok s') :
    s'.isReserved x = true := by
  obtain ⟨l, -, -, rfl⟩ := startSeries_eq_ok.mp h
  exact isReserved_reserve.mpr (.inl rfl)

theorem take_succ (n : Nat) :
    s.take (n + 1) = (s.pop.1 :: (s.pop.2.take n).1, (s.pop.2.take n).2) := rfl

@[simp] theorem length_take (n : Nat) : (s.take n).1.length = n := by
  induction n generalizing s with
  | zero => rfl
  | succ n ih => rw [take_succ, List.length_cons, ih]

@[simp] theorem isReserved_snd_take {n : Nat} :
    (s.take n).2.isReserved y = true ↔ y ∈ (s.take n).1 ∨ s.isReserved y = true := by
  induction n generalizing s with
  | zero => simp [take]
  | succ n ih =>
    rw [take_succ, ih, isReserved_snd_pop, List.mem_cons, or_left_comm, or_assoc]

/-- None of several symbols handed out was reserved before the first of them. -/
theorem isReserved_of_mem_take {n : Nat} (h : y ∈ (s.take n).1) : s.isReserved y = false := by
  induction n generalizing s with
  | zero => simp [take] at h
  | succ n ih =>
    rw [take_succ, List.mem_cons] at h
    rcases h with rfl | h
    · exact s.isReserved_pop
    · have hpop := ih h
      rw [← Bool.not_eq_true, isReserved_snd_pop] at hpop
      rw [← Bool.not_eq_true]
      exact fun hy => hpop (.inr hy)

/-- Symbols handed out together differ from each other. -/
theorem nodup_take (s : NameSupply) (n : Nat) : (s.take n).1.Nodup := by
  induction n generalizing s with
  | zero => exact List.nodup_nil
  | succ n ih =>
    rw [take_succ, List.nodup_cons]
    refine ⟨fun hmem => ?_, ih _⟩
    have hfree := isReserved_of_mem_take hmem
    rw [isReserved_snd_pop.mpr (.inl rfl)] at hfree
    cases hfree

theorem ne_pop_of_isReserved {s : NameSupply} {x : Symbol} (h : s.isReserved x = true) :
    x ≠ s.pop.1 := by
  rintro rfl
  rw [s.isReserved_pop] at h
  cases h

/-! ## Whole histories -/

theorem protects_iff :
    s.protects x = true ↔
      ∃ l, Label.ofSymbol? x = some l ∧ 0 < l.number ∧ l.number ≤ s.floors.get l.letters := by
  rw [protects]
  cases Label.ofSymbol? x <;> simp

/-- A series that is started raises a floor and releases nothing. -/
theorem isReserved_startSeries {s' : NameSupply} (h : s.startSeries x = .ok s')
    (hy : s.isReserved y = true) : s'.isReserved y = true := by
  obtain ⟨l, -, -, rfl⟩ := startSeries_eq_ok.mp h
  rw [isReserved_reserve, isReserved_iff]
  rcases isReserved_iff.mp hy with hmem | hprotects
  · exact .inr (.inl hmem)
  · obtain ⟨l', hl', hpos, hle⟩ := protects_iff.mp hprotects
    refine .inr (.inr (protects_iff.mpr ⟨l', hl', hpos, ?_⟩))
    exact Nat.le_trans hle (Tally.le_get_raise _ _ _ _)

/-- No request releases a symbol. -/
theorem isReserved_perform (request : Request) (hy : s.isReserved y = true) :
    (s.perform request).2.isReserved y = true := by
  cases request with
  | pop => exact isReserved_snd_pop.mpr (.inr hy)
  | reserve xs => exact isReserved_reserveAll.mpr (.inr hy)
  | startSeries label =>
    rw [perform]
    cases hstart : s.startSeries label with
    | error e => exact hy
    | ok s' => exact isReserved_startSeries hstart hy
  | endSeries => exact hy

/-- The supply after several requests. -/
def after (s : NameSupply) (requests : List Request) : NameSupply :=
  requests.foldl (fun s request => (s.perform request).2) s

theorem isReserved_after (requests : List Request) (hy : s.isReserved y = true) :
    (s.after requests).isReserved y = true := by
  induction requests generalizing s with
  | nil => exact hy
  | cons request requests ih => exact ih (isReserved_perform request hy)

/-- The symbols that a request uses up: what it is answered, what it reserves, or the label from
which it starts a series. A refused request uses up none. -/
def spent (s : NameSupply) (request : Request) : List Symbol :=
  match request, (s.perform request).1 with
  | .pop, .ok (some symbol) => [symbol]
  | .reserve symbols, .ok _ => symbols
  | .startSeries label, .ok _ => [label]
  | _, _ => []

/-- What a request uses up is reserved from then on. -/
theorem isReserved_of_mem_spent {request : Request} (hx : x ∈ s.spent request) :
    (s.perform request).2.isReserved x = true := by
  cases request with
  | pop =>
    have hpop : x = s.pop.1 := by simpa [spent, perform] using hx
    exact isReserved_snd_pop.mpr (.inl hpop)
  | reserve xs =>
    have hmem : x ∈ xs := by simpa [spent, perform] using hx
    exact isReserved_reserveAll.mpr (.inl hmem)
  | startSeries label =>
    simp only [spent, perform] at hx ⊢
    cases hstart : s.startSeries label with
    | error e => simp [hstart] at hx
    | ok s' =>
      have hlabel : x = label := by simpa [hstart] using hx
      rw [hlabel]
      exact isReserved_of_startSeries hstart
  | endSeries => simp [spent] at hx

/-- A request is refused without a change. -/
theorem perform_error {request : Request} {e : Error} (h : (s.perform request).1 = .error e) :
    (s.perform request).2 = s := by
  cases request with
  | startSeries label =>
    rw [perform] at h ⊢
    cases hstart : s.startSeries label with
    | error e => rfl
    | ok s' =>
      rw [hstart] at h
      cases h
  | pop | reserve _ | endSeries => cases h

/-- Reserving symbols changes nothing but the list of what is reserved. -/
theorem exists_reserveAll_eq (s : NameSupply) (xs : List Symbol) :
    ∃ reserved, s.reserveAll xs = { s with reserved := reserved } := by
  rw [reserveAll]
  induction xs generalizing s with
  | nil => exact ⟨s.reserved, rfl⟩
  | cons x xs ih => exact ih (s.reserve x)

/-- A series is refused without a change, or started behind a label. -/
theorem perform_startSeries_cases (s : NameSupply) (label : Symbol) :
    (∃ e, s.perform (.startSeries label) = (.error e, s)) ∨
    ∃ s', s.startSeries label = .ok s' ∧ s.perform (.startSeries label) = (.ok none, s') := by
  rw [perform]
  cases hstart : s.startSeries label with
  | error e => exact .inl ⟨e, rfl⟩
  | ok s' => exact .inr ⟨s', rfl, rfl⟩

/-- **A supply never repeats itself.** Whatever has been asked of it before and is asked between, a
symbol that a request has used up stays reserved and is never handed out again; and a request that
is refused changes nothing. -/
theorem never_repeats (a : Alphabet) (before between : List Request) (request : Request) :
    let s := (ofAlphabet a).after before
    let s' := s.after (request :: between)
    (∀ x ∈ s.spent request, s'.isReserved x = true ∧
      ∃ y s'', s'.perform .pop = (.ok (some y), s'') ∧ y ≠ x) ∧
    ∀ e, (s.perform request).1 = .error e → (s.perform request).2 = s := by
  intro s s'
  refine ⟨fun x hx => ?_, fun e => perform_error⟩
  have hreserved : s'.isReserved x = true := isReserved_after between (isReserved_of_mem_spent hx)
  exact ⟨hreserved, s'.pop.1, s'.pop.2, rfl, (ne_pop_of_isReserved hreserved).symm⟩

end TapeCompiler.NameSupply
