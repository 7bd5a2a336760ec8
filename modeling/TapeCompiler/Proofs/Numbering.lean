import Mathlib.Order.Bounds.Basic
import TapeCompiler.Proofs.Rounds
import TapeCompiler.Proofs.Spelling

/-!
# The numbers of a series

Each series of labels has a counter, the last number that it has reached, and a floor up to which
its labels are kept back. Whatever is asked of a supply, the two only rise. So the numbers handed
out in a series grow, however often it is left and started again, and no label up to one from which
it was started is ever handed out, be it as a label or as a name over the alphabet that happens to
look like one.
-/

namespace TapeCompiler

namespace Label

/-! ## Labels as they are written -/

theorem isAlpha_of_isDigit {c : Char} (h : c.isDigit = true) : c.isAlpha = false := by
  simp only [Char.isDigit, Bool.and_eq_true, decide_eq_true_eq] at h
  have hhigh : c.toNat ≤ 57 := UInt32.le_iff_toNat_le.mp h.2
  rw [← Bool.not_eq_true]
  intro halpha
  have hlow := (Text.toNat_of_isAlpha halpha).1
  omega

/-- Letters with digits behind them, leading zeros or not, spell the label with their number. -/
theorem ofSymbol?_append {x : String} (hx : Lettered x) {ds : List Char}
    (hds : ∀ c ∈ ds, c.isDigit = true) :
    ofSymbol? (x ++ String.ofList ds) =
      if Nat.ofDigitChars 10 ds 0 ≤ maxNumber then some ⟨x, Nat.ofDigitChars 10 ds 0⟩
      else none := by
  obtain ⟨htake, hdrop⟩ : (x.toList ++ ds).takeWhile Char.isAlpha = x.toList ∧
      (x.toList ++ ds).dropWhile Char.isAlpha = ds :=
    Text.span_append hx.2 fun c hc => isAlpha_of_isDigit (hds c (List.mem_of_mem_head? hc))
  have hletters : x.toList ≠ [] := by simpa using hx.1
  have hdigits : ds.all Char.isDigit = true := List.all_eq_true.mpr hds
  simp only [ofSymbol?, String.toList_append, String.toList_ofList, htake, hdrop, hdigits, ne_eq,
    hletters, not_false_eq_true, true_and, String.ofList_toList]

theorem symbol_injective {x : String} {m n : Nat} (h : symbol ⟨x, m⟩ = symbol ⟨x, n⟩) : m = n := by
  rw [symbol, symbol, String.append_right_inj, ← String.toList_inj] at h
  have hdigits : Nat.toDigits 10 m = Nat.toDigits 10 n := by
    rwa [Nat.toString_eq_repr, Nat.toString_eq_repr, Nat.toList_repr, Nat.toList_repr] at h
  rw [← Nat.ofDigitChars_toDigits (b := 10) (n := m) (by decide) (by decide), hdigits,
    Nat.ofDigitChars_toDigits (by decide) (by decide)]

end Label

namespace NameSupply

variable {s : NameSupply} {x : String} {n : Nat}

/-! ## Counters -/

/-- A label with the given letters has a number. -/
def Try.number? (x : String) : Try → Option Nat
  | .name _ => none
  | .label l => if l.letters = x then some l.number else none

/-- The numbers that a request uses in a series: those it tries, and that of the label behind which
it starts the series. -/
def numbersBy (s : NameSupply) (x : String) (request : Request) : List Nat :=
  match request, (s.perform request).1 with
  | .pop, _ => s.tries.filterMap (Try.number? x)
  | .startSeries label, .ok _ =>
    ((Label.ofSymbol? label).filter fun l => l.letters = x).toList.map Label.number
  | _, _ => []

/-- All numbers that a history uses in a series. -/
def numbers (s : NameSupply) (x : String) : List Request → List Nat
  | [] => []
  | request :: requests => s.numbersBy x request ++ (s.perform request).2.numbers x requests

/-- A pop moves the counter of the active series over what it tries, and no other. -/
theorem counter_pop (s : NameSupply) (x : String) :
    s.pop.2.counters.get x =
      if s.series = some x then s.counters.get x + min (s.passed + 1) (s.room x)
      else s.counters.get x := by
  have hpop : s.pop.2.counters = (s.advance s.passed).counters := rfl
  rw [hpop]
  cases hseries : s.series with
  | none =>
    rw [if_neg (by simp), advance, hseries]
  | some y =>
    by_cases hpassed : s.passed < s.room y
    · rw [advance_of_series hseries hpassed, Tally.get_raise]
      by_cases hx : x = y
      · subst hx
        rw [if_pos rfl, if_pos rfl]
        omega
      · rw [if_neg hx, if_neg fun h => hx (Option.some.inj h).symm]
    · rw [advance_of_spent hseries hpassed, Tally.get_raise]
      by_cases hx : x = y
      · subst hx
        rw [if_pos rfl, if_pos rfl]
        rw [room] at hpassed ⊢
        omega
      · rw [if_neg hx, if_neg fun h => hx (Option.some.inj h).symm]

/-- The numbers that are tried are those behind the counter up to where it is left. -/
theorem mem_numbers_tries :
    n ∈ s.tries.filterMap (Try.number? x) ↔
      s.counters.get x < n ∧ n ≤ s.pop.2.counters.get x := by
  have hmem : n ∈ s.tries.filterMap (Try.number? x) ↔
      ∃ k, k < s.passed + 1 ∧ (s.attempt k).number? x = some n := by
    simp [tries, List.mem_filterMap]
  rw [hmem, counter_pop]
  cases hseries : s.series with
  | none => simp [attempt, hseries, Try.number?]
  | some y =>
    by_cases hx : y = x
    · subst hx
      rw [if_pos rfl]
      constructor
      · rintro ⟨k, hk, hnumber⟩
        by_cases hroom : k < s.room y
        · simp only [attempt, hseries, hroom, if_true, Try.number?, Option.some.injEq] at hnumber
          omega
        · simp [attempt, hseries, hroom, Try.number?] at hnumber
      · rintro ⟨hlow, hhigh⟩
        refine ⟨n - (s.counters.get y + 1), by omega, ?_⟩
        have hroom : n - (s.counters.get y + 1) < s.room y := by omega
        have hnumber : s.counters.get y + 1 + (n - (s.counters.get y + 1)) = n := by omega
        simp only [attempt, hseries, hroom, if_true, Try.number?, hnumber]
    · rw [if_neg fun h => hx (Option.some.inj h)]
      constructor
      · rintro ⟨k, hk, hnumber⟩
        by_cases hroom : k < s.room y <;> simp [attempt, hseries, hroom, Try.number?, hx] at hnumber
      · omega

/-- A series is active after a pop only if the pop was from it. -/
theorem series_pop (h : s.pop.2.series = some x) : s.series = some x ∧ s.passed < s.room x := by
  have hpop : (s.advance s.passed).series = some x := h
  cases hseries : s.series with
  | none => simp [advance, hseries] at hpop
  | some y =>
    by_cases hpassed : s.passed < s.room y
    · rw [advance_of_series hseries hpassed, hseries] at hpop
      cases hpop
      exact ⟨rfl, hpassed⟩
    · rw [advance_of_spent hseries hpassed] at hpop
      cases hpop

/-- A series that is started raises its own counter, and no other, to the number of its label. -/
theorem counter_startSeries {label : Symbol} {s' : NameSupply} (h : s.startSeries label = .ok s') :
    ∃ l, Label.ofSymbol? label = some l ∧ s'.series = some l.letters ∧
      ∀ x, s'.counters.get x =
        if x = l.letters then max (s.counters.get x) l.number else s.counters.get x := by
  obtain ⟨l, hl, -, rfl⟩ := startSeries_eq_ok.mp h
  refine ⟨l, hl, rfl, fun x => (Tally.get_raise _ _ _ _).trans ?_⟩
  split
  · rename_i hx
    rw [hx]
  · rfl

/-- From `s` to `s'` a counter rises to the largest of the numbers that are used, unless it is there
already; and a series whose counter is zero is not taken up without such a number. -/
structure Raises (s s' : NameSupply) (x : String) (used : List Nat) : Prop where
  rises : s.counters.get x ≤ s'.counters.get x
  bound : ∀ n ∈ used, n ≤ s'.counters.get x
  reached : s'.counters.get x ∈ used ∨ s'.counters.get x = s.counters.get x ∧
    (s'.series = some x → s.series = some x ∨ 0 < s.counters.get x)

theorem raises_of_eq {s' : NameSupply} (hcounters : s'.counters = s.counters)
    (hseries : s'.series = some x → s.series = some x) : s.Raises s' x [] where
  rises := by rw [hcounters]
  bound := by simp
  reached := .inr ⟨by rw [hcounters], fun hactive => .inl (hseries hactive)⟩

theorem raises_pop (s : NameSupply) (x : String) :
    s.Raises s.pop.2 x (s.tries.filterMap (Try.number? x)) := by
  have hrises : s.counters.get x ≤ s.pop.2.counters.get x := by
    rw [counter_pop]
    split <;> omega
  refine ⟨hrises, fun n hn => (mem_numbers_tries.mp hn).2, ?_⟩
  rcases Nat.lt_or_eq_of_le hrises with hlt | heq
  · exact .inl (mem_numbers_tries.mpr ⟨hlt, Nat.le_refl _⟩)
  · exact .inr ⟨heq.symm, fun hseries => .inl (series_pop hseries).1⟩

theorem raises_startSeries {label : Symbol} {s' : NameSupply} (h : s.startSeries label = .ok s')
    (x : String) :
    s.Raises s' x
      (((Label.ofSymbol? label).filter fun l => l.letters = x).toList.map Label.number) := by
  obtain ⟨l, hl, hseries, hcounter⟩ := counter_startSeries h
  by_cases hx : l.letters = x
  · have hget : s'.counters.get x = max (s.counters.get x) l.number := by
      rw [hcounter, if_pos hx.symm]
    have hused : (((Label.ofSymbol? label).filter fun l => l.letters = x).toList.map
        Label.number) = [l.number] := by
      simp [hl, hx]
    rw [hused]
    refine ⟨by omega, by simp [hget], ?_⟩
    rw [List.mem_singleton]
    omega
  · have hget : s'.counters.get x = s.counters.get x := by
      rw [hcounter, if_neg (Ne.symm hx)]
    refine ⟨by omega, by simp [hl, hx], .inr ⟨hget, fun hactive => ?_⟩⟩
    rw [hseries] at hactive
    exact absurd (Option.some.inj hactive) hx

/-- A request raises the counters to the numbers that it uses. -/
theorem raises_perform (s : NameSupply) (x : String) (request : Request) :
    s.Raises (s.perform request).2 x (s.numbersBy x request) := by
  cases request with
  | pop => exact s.raises_pop x
  | reserve xs =>
    obtain ⟨reserved, hreserve⟩ := s.exists_reserveAll_eq xs
    rw [perform, hreserve]
    exact raises_of_eq rfl id
  | startSeries label =>
    rcases s.perform_startSeries_cases label with ⟨e, hperform⟩ | ⟨s', hstart, hperform⟩
    · simp only [numbersBy, hperform]
      exact raises_of_eq rfl id
    · simp only [numbersBy, hperform]
      exact raises_startSeries hstart x
  | endSeries =>
    refine raises_of_eq rfl fun hactive => ?_
    cases hactive

theorem counter_le_after (s : NameSupply) (x : String) (requests : List Request) :
    s.counters.get x ≤ (s.after requests).counters.get x := by
  induction requests generalizing s with
  | nil => exact Nat.le_refl _
  | cons request requests ih => exact Nat.le_trans (s.raises_perform x request).rises (ih _)

/-- The counter of a series is the largest of the numbers that have been used in it; a counter that
no number has raised is at zero, and its series has not been active. -/
structure Tallied (s : NameSupply) (x : String) (used : List Nat) : Prop where
  le : ∀ n ∈ used, n ≤ s.counters.get x
  reached : s.counters.get x ∈ used ∨ s.counters.get x = 0 ∧ s.series ≠ some x

/-- The counter of an active series is a number that has been used. -/
theorem Tallied.counter_mem {used : List Nat} (h : s.Tallied x used) (hseries : s.series = some x) :
    s.counters.get x ∈ used :=
  h.reached.resolve_right fun hidle => hidle.2 hseries

theorem Tallied.perform {used : List Nat} (h : s.Tallied x used) (request : Request) :
    (s.perform request).2.Tallied x (used ++ s.numbersBy x request) := by
  obtain ⟨hrises, hnew, hreached⟩ := s.raises_perform x request
  constructor
  · intro n hn
    rcases List.mem_append.mp hn with hn | hn
    · exact Nat.le_trans (h.le n hn) hrises
    · exact hnew n hn
  · rcases hreached with hmem | ⟨heq, hseries⟩
    · exact .inl (List.mem_append_right _ hmem)
    · rcases h.reached with hmem | ⟨hzero, hinactive⟩
      · rw [heq]
        exact .inl (List.mem_append_left _ hmem)
      · refine .inr ⟨heq.trans hzero, fun hactive => ?_⟩
        rcases hseries hactive with hactive | hpos
        · exact hinactive hactive
        · omega

theorem Tallied.after {used : List Nat} (h : s.Tallied x used) (requests : List Request) :
    (s.after requests).Tallied x (used ++ s.numbers x requests) := by
  induction requests generalizing s used with
  | nil =>
    rw [numbers, List.append_nil]
    exact h
  | cons request requests ih =>
    rw [numbers, ← List.append_assoc]
    exact ih (h.perform request)

/-! ## What is handed out in a series -/

/-- A pop hands out the label with the number `n` of the series `x`, from that series. -/
def Draws (s : NameSupply) (x : String) (n : Nat) : Prop :=
  s.pop.1 = Label.symbol ⟨x, n⟩ ∧ s.pop.2.series = some x

theorem draws_of_lt_room (hseries : s.series = some x) (hpassed : s.passed < s.room x) :
    s.Draws x (s.counters.get x + 1 + s.passed) := by
  constructor
  · simp only [pop, candidate, hseries, hpassed, if_true]
  · have hpop : s.pop.2.series = (s.advance s.passed).series := rfl
    rw [hpop, advance_of_series hseries hpassed, hseries]

theorem Draws.number_eq (h : s.Draws x n) :
    s.series = some x ∧ s.passed < s.room x ∧ n = s.counters.get x + 1 + s.passed := by
  obtain ⟨hseries, hpassed⟩ := series_pop h.2
  have hlabel := (draws_of_lt_room hseries hpassed).1
  exact ⟨hseries, hpassed, Label.symbol_injective (h.1.symm.trans hlabel)⟩

/-- It is where the counter is left. -/
theorem Draws.counter_eq (h : s.Draws x n) : s.pop.2.counters.get x = n := by
  obtain ⟨hactive, hroom, hn⟩ := h.number_eq
  rw [counter_pop, if_pos hactive]
  omega

/-- Numbers behind the counter over which a pop passes are taken. -/
theorem isReserved_of_passed (hseries : s.series = some x) {j : Nat} (hlow : s.counters.get x < j)
    (hj : j ≤ s.counters.get x + s.passed) (hmax : j ≤ Label.maxNumber) :
    s.isReserved (Label.symbol ⟨x, j⟩) = true := by
  have hpassed : j - (s.counters.get x + 1) < s.passed := by omega
  have hroom : j - (s.counters.get x + 1) < s.room x := by
    rw [room]
    omega
  have hnumber : s.counters.get x + 1 + (j - (s.counters.get x + 1)) = j := by omega
  have hreserved := eq_false_of_lt_firstSuch hpassed
  simp only [candidate, hseries, hroom, if_true, hnumber] at hreserved
  simpa using hreserved

/-- The numbers of a series that are greater than all that were used and whose labels are not
reserved. -/
def freeNumbers (s : NameSupply) (x : String) (used : List Nat) : Set Nat :=
  {j | (∀ i ∈ used, i < j) ∧ s.isReserved (Label.symbol ⟨x, j⟩) = false}

/-- No free number is passed over. -/
theorem Tallied.lt_of_mem_freeNumbers {used : List Nat} (h : s.Tallied x used)
    (hseries : s.series = some x) {j : Nat} (hj : j ∈ s.freeNumbers x used)
    (hmax : j ≤ Label.maxNumber) : s.counters.get x + s.passed < j := by
  by_contra hpassed
  have hlow : s.counters.get x < j := hj.1 _ (h.counter_mem hseries)
  have hreserved := isReserved_of_passed hseries hlow (Nat.le_of_not_lt hpassed) hmax
  rw [hj.2] at hreserved
  cases hreserved

/-- What is handed out in a series is the least free number. -/
theorem Draws.isLeast {used : List Nat} (h : s.Draws x n) (htallied : s.Tallied x used) :
    IsLeast (s.freeNumbers x used) n := by
  obtain ⟨hseries, hroom, hn⟩ := h.number_eq
  refine ⟨⟨fun i hi => ?_, ?_⟩, fun j hj => ?_⟩
  · have hlast := htallied.le i hi
    omega
  · rw [← h.1]
    exact s.isReserved_pop
  · rw [room] at hroom
    by_cases hmax : j ≤ Label.maxNumber
    · have := htallied.lt_of_mem_freeNumbers hseries hj hmax
      omega
    · omega

/-- An active series hands out one of its labels, unless it has no free number left and is ended. -/
theorem Tallied.draws_or_ended {used : List Nat} (h : s.Tallied x used)
    (hseries : s.series = some x) :
    (∃ n, s.Draws x n) ∨
      s.pop.2.series = none ∧ ∀ j ∈ s.freeNumbers x used, Label.maxNumber < j := by
  by_cases hpassed : s.passed < s.room x
  · exact .inl ⟨_, draws_of_lt_room hseries hpassed⟩
  · have hpop : s.pop.2.series = (s.advance s.passed).series := rfl
    refine .inr ⟨by rw [hpop, advance_of_spent hseries hpassed], fun j hj => ?_⟩
    by_contra hmax
    have := h.lt_of_mem_freeNumbers hseries hj (Nat.le_of_not_lt hmax)
    rw [room] at hpassed
    omega

/-- Whatever happens before, it is behind the counter. -/
theorem Draws.counter_lt (requests : List Request) (h : (s.after requests).Draws x n) :
    s.counters.get x < n := by
  have hrises := s.counter_le_after x requests
  have hn := h.number_eq.2.2
  omega

/-- A series that is started keeps back all its labels up to the one behind which it starts. -/
theorem isReserved_of_le_start {label y : Symbol} {s' : NameSupply} {l l' : Label}
    (h : s.startSeries label = .ok s') (hl : Label.ofSymbol? label = some l)
    (hy : Label.ofSymbol? y = some l') (hletters : l'.letters = l.letters) (hpos : 0 < l'.number)
    (hle : l'.number ≤ l.number) : s'.isReserved y = true := by
  obtain ⟨l'', hl'', -, rfl⟩ := startSeries_eq_ok.mp h
  cases hl.symm.trans hl''
  rw [isReserved_reserve, isReserved_iff]
  refine .inr (.inr (protects_iff.mpr ⟨l', hy, hpos, ?_⟩))
  simp only [hletters, Tally.get_raise, if_true]
  omega

/-- A series that is started behind letters and digits is that of the letters. -/
theorem startSeries_of_perform (hx : Label.Lettered x) {ds : List Char}
    (hds : ∀ c ∈ ds, c.isDigit = true)
    (h : (s.perform (.startSeries (x ++ String.ofList ds))).1 = .ok none) :
    s.startSeries (x ++ String.ofList ds) =
        .ok (s.perform (.startSeries (x ++ String.ofList ds))).2 ∧
      Label.ofSymbol? (x ++ String.ofList ds) = some ⟨x, Nat.ofDigitChars 10 ds 0⟩ ∧
      Nat.ofDigitChars 10 ds 0 ≤ Label.maxNumber := by
  rcases s.perform_startSeries_cases (x ++ String.ofList ds) with
    ⟨e, hperform⟩ | ⟨s', hstart, hperform⟩
  · rw [hperform] at h
    cases h
  · obtain ⟨l, hl, -⟩ := counter_startSeries hstart
    have hspelled := Label.ofSymbol?_append hx hds
    by_cases hmax : Nat.ofDigitChars 10 ds 0 ≤ Label.maxNumber
    · rw [if_pos hmax] at hspelled
      rw [hperform]
      exact ⟨hstart, hspelled, hmax⟩
    · rw [if_neg hmax, hl] at hspelled
      cases hspelled

/-- **The numbers of a series climb, and the labels below are kept back.** Whatever a supply has
been asked for, an active series hands out one of its labels, unless it is ended as it has no free
number left. The number is the least one that is greater than all that were tried in the series or
from which it was started, and whose label is not reserved; so a number handed out later is greater,
also if the series was left and started again between. Once a series has been started behind a
label, later numbers are greater than that of the label, and letters with a positive number up to
that one behind them, leading zeros or not, are never handed out. -/
theorem series_numbers_climb (a : Alphabet) (before between : List Request) {x : String}
    (hx : Label.Lettered x) :
    let s := (ofAlphabet a).after before
    let free := s.freeNumbers x ((ofAlphabet a).numbers x before)
    (s.series = some x →
      (∃ n, s.Draws x n) ∨ s.pop.2.series = none ∧ ∀ j ∈ free, Label.maxNumber < j) ∧
    (∀ n, s.Draws x n →
      IsLeast free n ∧ ∀ m, (s.after (.pop :: between)).Draws x m → n < m) ∧
    ∀ ds, (∀ c ∈ ds, c.isDigit = true) →
      (s.perform (.startSeries (x ++ String.ofList ds))).1 = .ok none →
      let s' := s.after (.startSeries (x ++ String.ofList ds) :: between)
      (∀ m, s'.Draws x m → Nat.ofDigitChars 10 ds 0 < m) ∧
      ∀ es, (∀ c ∈ es, c.isDigit = true) → 1 ≤ Nat.ofDigitChars 10 es 0 →
        Nat.ofDigitChars 10 es 0 ≤ Nat.ofDigitChars 10 ds 0 → s'.pop.1 ≠ x ++ String.ofList es := by
  intro s free
  have htallied : s.Tallied x ((ofAlphabet a).numbers x before) := by
    have hstart : (ofAlphabet a).Tallied x [] := ⟨by simp, .inr ⟨rfl, nofun⟩⟩
    exact hstart.after before
  refine ⟨htallied.draws_or_ended, fun n hn => ⟨hn.isLeast htallied, ?_⟩, ?_⟩
  · intro m hm
    rw [← hn.counter_eq]
    exact Draws.counter_lt between hm
  · intro ds hds hok s'
    obtain ⟨hstart, hl, hmax⟩ := startSeries_of_perform hx hds hok
    refine ⟨fun m hm => ?_, fun es hes hpos hle => ?_⟩
    · obtain ⟨l, hl', -, hcounter⟩ := counter_startSeries hstart
      cases hl.symm.trans hl'
      have hseeded := (hcounter x).trans (if_pos rfl)
      have hlater := Draws.counter_lt between hm
      rw [hseeded] at hlater
      exact Nat.lt_of_le_of_lt (Nat.le_max_right _ _) hlater
    · have hspelled : Label.ofSymbol? (x ++ String.ofList es) =
          some ⟨x, Nat.ofDigitChars 10 es 0⟩ := by
        rw [Label.ofSymbol?_append hx hes, if_pos (Nat.le_trans hle hmax)]
      have hreserved := isReserved_of_le_start hstart hl hspelled rfl hpos hle
      exact (ne_pop_of_isReserved (isReserved_after between hreserved)).symm

/-- A series behind `q5` in which two labels are reserved. -/
def behindFive : List Request := [.startSeries "q5", .reserve ["q6", "q7"]]

/-- The series is left, and started again from below. -/
def restarted : List Request := [.endSeries, .startSeries "q002"]

/-- First `q8` is handed out, and `q9` when the series has been started again; once it is started
behind `q12`, even `q007` is kept back. -/
theorem series_numbers_climb_restarted :
    let s := (ofAlphabet .standard).after behindFive
    Label.Lettered "q" ∧ s.Draws "q" 8 ∧
      IsLeast (s.freeNumbers "q" ((ofAlphabet .standard).numbers "q" behindFive)) 8 ∧
      (s.after (.pop :: restarted)).Draws "q" 9 ∧ 8 < 9 ∧
      (s.perform (.startSeries ("q" ++ String.ofList ['1', '2']))).1 = .ok none ∧
      (s.after (.startSeries ("q" ++ String.ofList ['1', '2']) :: restarted)).pop.1 ≠
        "q" ++ String.ofList ['0', '0', '7'] := by
  intro s
  have hletters : Label.Lettered "q" := ⟨by decide, by simp⟩
  have hcandidate : ((s.advance 0).advance 0).candidate 0 = "q8" := by decide
  have hpop : s.pop = ("q8", (((s.advance 0).advance 0).advance 0).reserve "q8") := by
    rw [(pop_of_reserved (by decide)).2, (pop_of_reserved (by decide)).2,
      (pop_of_free (by decide)).2, hcandidate]
  have hdraws : s.Draws "q" 8 := by
    rw [Draws, hpop]
    decide
  have hdraws' : (s.after (.pop :: restarted)).Draws "q" 9 := by
    have hafter : s.after (.pop :: restarted) = s.pop.2.after restarted := rfl
    rw [hafter, hpop, Draws, (pop_of_free (by decide)).2]
    decide
  have hstarts : (s.perform (.startSeries ("q" ++ String.ofList ['1', '2']))).1 = .ok none := rfl
  obtain ⟨-, hclimbs, hkept⟩ := series_numbers_climb .standard behindFive restarted hletters
  exact ⟨hletters, hdraws, (hclimbs 8 hdraws).1, hdraws', (hclimbs 8 hdraws).2 9 hdraws', hstarts,
    (hkept _ (by simp) hstarts).2 _ (by simp) (by decide) (by decide)⟩

end NameSupply

end TapeCompiler
