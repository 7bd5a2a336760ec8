import TapeCompiler.Proofs.Reserved

/-!
# The search for a free symbol, round by round

A supply looks for a free symbol by trying one after the other. `round` is one round of this search
and `search` repeats it until a symbol is free. That this happens is not plain to see, as a floor
keeps back infinitely many labels: leading zeros do not count. `search_ends` says that it does, and
that the symbol found and the supply left behind are those of `pop`, which is defined without a
loop.
-/

namespace TapeCompiler

namespace Tally

theorem raise_raise (t : Tally) (key : String) (m n : Nat) :
    (t.raise key m).raise key n = t.raise key (max m n) := by
  obtain ⟨entries⟩ := t
  simp only [raise, mk.injEq]
  induction entries with
  | nil => simp [raiseEntry]
  | cons e rest ih =>
    by_cases hkey : key = e.1
    · simp [raiseEntry, hkey, Nat.max_assoc]
    · simp [raiseEntry, hkey, ih]

/-- A number is not raised to one that it has reached. -/
theorem raise_of_le {t : Tally} {key : String} {n : Nat} (hpos : 0 < n) (h : n ≤ t.get key) :
    t.raise key n = t := by
  obtain ⟨entries⟩ := t
  simp only [raise, mk.injEq]
  rw [get] at h
  induction entries with
  | nil =>
    rw [List.lookup_nil, Option.getD_none] at h
    omega
  | cons e rest ih =>
    by_cases hkey : key = e.1
    · subst hkey
      rw [List.lookup_cons_self, Option.getD_some] at h
      simp only [raiseEntry, if_true, Nat.max_eq_left h]
    · rw [List.lookup_cons, beq_eq_false_iff_ne.mpr hkey] at h
      rw [raiseEntry, if_neg hkey, ih h]

end Tally

namespace NameSupply

/-- Something that a supply tries: the name over the alphabet at some position, or a label. -/
inductive Try where
  | name (position : Nat)
  | label (label : Label)
  deriving DecidableEq, Repr

/-- How it is spelled. -/
def Try.symbol (a : Alphabet) : Try → Symbol
  | .name n => a.name n
  | .label l => l.symbol

/-! ## The loop -/

/-- One round: what is tried next, and the supply that has tried it. A series that has run out of
numbers has nothing to try and is ended. -/
def round (s : NameSupply) : Option Try × NameSupply :=
  match s.series with
  | none => (some (.name s.position), { s with position := s.position + 1 })
  | some x =>
    if s.counters.get x < Label.maxNumber then
      (some (.label ⟨x, s.counters.get x + 1⟩),
        { s with counters := s.counters.raise x (s.counters.get x + 1) })
    else (none, s.endSeries)

/-- At most so many rounds, up to the first in which something free is tried. Answers all that was
tried, the free symbol, and the supply in which it is reserved. -/
def search : Nat → NameSupply → Option (List Try × Symbol × NameSupply)
  | 0, _ => none
  | n + 1, s =>
    match s.round with
    | (none, s') => search n s'
    | (some t, s') =>
      if s'.isReserved (t.symbol s.alphabet) then
        (search n s').map fun found => (t :: found.1, found.2)
      else some ([t], t.symbol s.alphabet, s'.reserve (t.symbol s.alphabet))

/-! ## What is tried -/

/-- The `k`-th of what the supply tries next. -/
def attempt (s : NameSupply) (k : Nat) : Try :=
  match s.series with
  | none => .name (s.position + k)
  | some x =>
    if k < s.room x then .label ⟨x, s.counters.get x + 1 + k⟩
    else .name (s.position + (k - s.room x))

/-- All that is tried to hand out a symbol. -/
def tries (s : NameSupply) : List Try := (List.range (s.passed + 1)).map s.attempt

/-- What a request tries: only to hand out a symbol is anything tried. -/
def triedBy (s : NameSupply) : Request → List Try
  | .pop => s.tries
  | _ => []

/-- All that is tried in a history. -/
def tried (s : NameSupply) : List Request → List Try
  | [] => []
  | request :: requests => s.triedBy request ++ (s.perform request).2.tried requests

variable {s : NameSupply} {x : String}

theorem candidate_eq_symbol (s : NameSupply) (k : Nat) :
    s.candidate k = (s.attempt k).symbol s.alphabet := by
  rw [candidate, attempt]
  cases s.series with
  | none => rfl
  | some x =>
    dsimp only
    split <;> rfl

@[simp] theorem alphabet_advance (s : NameSupply) (k : Nat) :
    (s.advance k).alphabet = s.alphabet := by
  rw [advance]
  cases s.series with
  | none => rfl
  | some x =>
    dsimp only
    split <;> rfl

theorem advance_of_series (hseries : s.series = some x) {k : Nat} (hk : k < s.room x) :
    s.advance k = { s with counters := s.counters.raise x (s.counters.get x + 1 + k) } := by
  simp only [advance, hseries, hk, if_true]

theorem advance_of_spent (hseries : s.series = some x) {k : Nat} (hk : ¬k < s.room x) :
    s.advance k =
      { s with
        series := none
        counters := s.counters.raise x Label.maxNumber
        position := s.position + (k - s.room x) + 1 } := by
  simp only [advance, hseries, hk, if_false]

/-- The number that has been tried last, and how many are left. -/
theorem counter_advance (hseries : s.series = some x) {k : Nat} (hk : k < s.room x) :
    (s.advance k).counters.get x = s.counters.get x + 1 + k ∧
      (s.advance k).room x = s.room x - (k + 1) := by
  have hget : (s.advance k).counters.get x = s.counters.get x + 1 + k := by
    rw [advance_of_series hseries hk, Tally.get_raise, if_pos rfl]
    omega
  refine ⟨hget, ?_⟩
  rw [room, hget, room]
  omega

/-- Trying some leaves the others. -/
theorem attempt_advance (s : NameSupply) (k j : Nat) :
    (s.advance k).attempt j = s.attempt (k + 1 + j) := by
  cases hseries : s.series with
  | none =>
    simp only [advance, attempt, hseries]
    congr 1
    omega
  | some x =>
    by_cases hk : k < s.room x
    · obtain ⟨hget, hroom⟩ := counter_advance hseries hk
      have hseries' : (s.advance k).series = some x := by
        rw [advance_of_series hseries hk, hseries]
      have hposition : (s.advance k).position = s.position := by
        rw [advance_of_series hseries hk]
      simp only [attempt, hseries, hseries', hget, hroom, hposition]
      -- The numbers that are left in the series come first, and then the names over the alphabet.
      by_cases hj : j < s.room x - (k + 1)
      · rw [if_pos hj, if_pos (by omega)]
        congr 2
        omega
      · rw [if_neg hj, if_neg (by omega)]
        congr 1
        omega
    · have hj : ¬k + 1 + j < s.room x := by omega
      simp only [advance, attempt, hseries, hk, hj, if_false]
      congr 1
      omega

/-- Trying some candidates leaves the others. -/
theorem candidate_advance (s : NameSupply) (k j : Nat) :
    (s.advance k).candidate j = s.candidate (k + 1 + j) := by
  rw [candidate_eq_symbol, candidate_eq_symbol, attempt_advance, alphabet_advance]

theorem advance_advance (s : NameSupply) (k j : Nat) :
    (s.advance k).advance j = s.advance (k + 1 + j) := by
  cases hseries : s.series with
  | none =>
    simp only [advance, hseries, mk.injEq, true_and, and_true]
    omega
  | some x =>
    by_cases hk : k < s.room x
    · obtain ⟨hget, hroom⟩ := counter_advance hseries hk
      have hseries' : (s.advance k).series = some x := by
        rw [advance_of_series hseries hk, hseries]
      by_cases hj : j < s.room x - (k + 1)
      · have hlast : max (s.counters.get x + 1 + k) (s.counters.get x + 1 + k + 1 + j) =
            s.counters.get x + 1 + (k + 1 + j) := by omega
        rw [advance_of_series hseries' (by omega), hget, advance_of_series hseries hk,
          advance_of_series hseries (by omega)]
        simp only [Tally.raise_raise, hlast]
      · have hlast : max (s.counters.get x + 1 + k) Label.maxNumber = Label.maxNumber := by
          rw [room] at hk
          omega
        have hnames : j - (s.room x - (k + 1)) = k + 1 + j - s.room x := by omega
        rw [advance_of_spent hseries' (by omega), hroom, advance_of_series hseries hk,
          advance_of_spent hseries (by omega)]
        simp only [Tally.raise_raise, hlast, hnames]
    · rw [advance_of_spent hseries hk, advance_of_spent hseries (by omega)]
      simp only [advance, mk.injEq, true_and, and_true]
      omega

/-! ## One round of a pop -/

theorem passed_of_free (h : s.isReserved (s.candidate 0) = false) : s.passed = 0 :=
  firstSuch_eq (by rw [h]; rfl) fun _ hj => absurd hj (Nat.not_lt_zero _)

theorem passed_of_reserved (h : s.isReserved (s.candidate 0) = true) :
    s.passed = (s.advance 0).passed + 1 := by
  have hshift (k : Nat) : (s.advance 0).isReserved ((s.advance 0).candidate k) =
      s.isReserved (s.candidate (k + 1)) := by
    rw [isReserved_advance, candidate_advance, Nat.zero_add, Nat.add_comm]
  refine firstSuch_eq ?_ fun j hj => ?_
  · rw [← hshift]
    exact firstSuch_spec (s.advance 0).exists_free
  · cases j with
    | zero => rw [h]; rfl
    | succ j =>
      rw [← hshift]
      exact eq_false_of_lt_firstSuch (Nat.lt_of_succ_lt_succ hj)

/-- If the first candidate is free, it is handed out. -/
theorem pop_of_free (h : s.isReserved (s.candidate 0) = false) :
    s.tries = [s.attempt 0] ∧ s.pop = (s.candidate 0, (s.advance 0).reserve (s.candidate 0)) := by
  rw [tries, pop, passed_of_free h]
  exact ⟨rfl, rfl⟩

/-- If it is reserved, the others are tried. -/
theorem pop_of_reserved (h : s.isReserved (s.candidate 0) = true) :
    s.tries = s.attempt 0 :: (s.advance 0).tries ∧ s.pop = (s.advance 0).pop := by
  constructor
  · rw [tries, tries, passed_of_reserved h, List.range_succ_eq_map, List.map_cons, List.map_map]
    congr 1
    refine List.map_congr_left fun k _ => ?_
    rw [attempt_advance, Nat.zero_add, Nat.add_comm]
    rfl
  · have hindex : 0 + 1 + (s.advance 0).passed = s.passed := by
      rw [passed_of_reserved h, Nat.zero_add, Nat.add_comm]
    rw [pop, pop, candidate_advance, advance_advance, hindex]

/-- A series that has run out is ended first. -/
theorem pop_endSeries (hseries : s.series = some x) (hroom : s.room x = 0) :
    s.endSeries.passed = s.passed ∧ s.endSeries.tries = s.tries ∧ s.endSeries.pop = s.pop := by
  have hattempt (k : Nat) : s.endSeries.attempt k = s.attempt k := by
    simp only [attempt, endSeries, hseries, hroom, Nat.not_lt_zero, if_false, Nat.sub_zero]
  have hcandidate (k : Nat) : s.endSeries.candidate k = s.candidate k := by
    rw [candidate_eq_symbol, candidate_eq_symbol, hattempt]
    rfl
  have hfull : s.counters.raise x Label.maxNumber = s.counters := by
    refine Tally.raise_of_le (by decide) ?_
    rw [room] at hroom
    omega
  have hadvance (k : Nat) : s.endSeries.advance k = s.advance k := by
    simp only [advance, endSeries, hseries, hroom, Nat.not_lt_zero, if_false, Nat.sub_zero, hfull]
  have hpassed : s.endSeries.passed = s.passed := by
    refine firstSuch_eq ?_ fun j hj => ?_
    · rw [hcandidate]
      exact firstSuch_spec s.exists_free
    · rw [hcandidate]
      exact eq_false_of_lt_firstSuch hj
  refine ⟨hpassed, ?_, ?_⟩
  · rw [tries, tries, hpassed]
    exact List.map_congr_left fun k _ => hattempt k
  · rw [pop, pop, hpassed, hcandidate, hadvance]

/-- A round tries the first candidate, or ends a series that has run out. -/
theorem round_cases (s : NameSupply) :
    (s.round = (some (s.attempt 0), s.advance 0) ∧ (s.advance 0).series = s.series) ∨
    ∃ x, s.series = some x ∧ s.room x = 0 ∧ s.round = (none, s.endSeries) := by
  cases hseries : s.series with
  | none =>
    left
    simp only [round, attempt, advance, hseries, Nat.add_zero, and_self]
  | some x =>
    by_cases hroom : 0 < s.room x
    · have hget : s.counters.get x < Label.maxNumber := by
        rw [room] at hroom
        omega
      left
      rw [advance_of_series hseries hroom, attempt, round, hseries]
      simp only [hget, hroom, if_true, Nat.add_zero, and_self]
    · have hget : ¬s.counters.get x < Label.maxNumber := by
        rw [room] at hroom
        omega
      right
      refine ⟨x, rfl, by omega, ?_⟩
      simp only [round, hseries, hget, if_false]

/-- The search takes `n` rounds. With less there is no answer, and with more it is the same: all
that is tried, what `pop` hands out, and the supply that it leaves. -/
def EndsAfter (s : NameSupply) (n : Nat) : Prop :=
  ∀ k, s.search k = if k < n then none else some (s.tries, s.pop)

theorem endsAfter_of_free (hround : s.round = (some (s.attempt 0), s.advance 0))
    (h : s.isReserved (s.candidate 0) = false) : s.EndsAfter 1 := by
  obtain ⟨htries, hpop⟩ := pop_of_free h
  intro k
  cases k with
  | zero => rfl
  | succ k => simp [search, hround, ← candidate_eq_symbol, h, htries, hpop]

theorem endsAfter_of_reserved (hround : s.round = (some (s.attempt 0), s.advance 0))
    (h : s.isReserved (s.candidate 0) = true) {n : Nat} (hrest : (s.advance 0).EndsAfter n) :
    s.EndsAfter (n + 1) := by
  obtain ⟨htries, hpop⟩ := pop_of_reserved h
  intro k
  cases k with
  | zero => rfl
  | succ k =>
    simp only [search, hround, isReserved_advance, ← candidate_eq_symbol, h, if_true, hrest k,
      htries, hpop, Nat.add_lt_add_iff_right]
    split <;> rfl

theorem endsAfter_of_spent (hseries : s.series = some x) (hroom : s.room x = 0)
    (hround : s.round = (none, s.endSeries)) {n : Nat} (hrest : s.endSeries.EndsAfter n) :
    s.EndsAfter (n + 1) := by
  obtain ⟨-, htries, hpop⟩ := pop_endSeries hseries hroom
  intro k
  cases k with
  | zero => rfl
  | succ k =>
    simp only [search, hround, hrest k, htries, hpop, Nat.add_lt_add_iff_right]

/-- **The search for a free symbol ends.** Over every alphabet, and whatever a supply has seen, it
takes one round for each symbol that it tries, and one more at most, to end a series. -/
theorem search_ends (s : NameSupply) :
    ∃ n, n ≤ s.tries.length + (if s.series = none then 0 else 1) ∧ s.EndsAfter n := by
  -- Each round passes over a candidate or ends the series, which is then gone.
  induction hsize : 2 * s.passed + (if s.series = none then 0 else 1) using Nat.strongRecOn
    generalizing s with
  | _ size ih =>
    rcases s.round_cases with ⟨hround, hseries⟩ | ⟨x, hseries, hroom, hround⟩
    · cases hfirst : s.isReserved (s.candidate 0) with
      | false =>
        refine ⟨1, ?_, endsAfter_of_free hround hfirst⟩
        rw [(pop_of_free hfirst).1, List.length_singleton]
        omega
      | true =>
        have hpassed := passed_of_reserved hfirst
        obtain ⟨n, hn, hends⟩ := ih _ (by rw [hseries]; omega) (s.advance 0) rfl
        refine ⟨n + 1, ?_, endsAfter_of_reserved hround hfirst hends⟩
        rw [hseries] at hn
        rw [(pop_of_reserved hfirst).1, List.length_cons]
        omega
    · obtain ⟨hpassed, htries, -⟩ := pop_endSeries hseries hroom
      have hended : s.endSeries.series = none := rfl
      have hactive : s.series ≠ none := by simp [hseries]
      rw [if_neg hactive] at hsize
      obtain ⟨n, hn, hends⟩ := ih _ (by rw [hpassed, if_pos hended]; omega) s.endSeries rfl
      refine ⟨n + 1, ?_, endsAfter_of_spent hseries hroom hround hends⟩
      rw [if_pos hended, htries] at hn
      rw [if_neg hactive]
      omega

end NameSupply

end TapeCompiler
