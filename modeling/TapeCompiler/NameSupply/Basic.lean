import TapeCompiler.Error
import TapeCompiler.NameSupply.Alphabet
import TapeCompiler.NameSupply.Label
import TapeCompiler.NameSupply.Tally
import TapeCompiler.Search

/-!
# Supplies of fresh names

A supply hands out symbols that it has never seen. It lists the names over its alphabet one after
the other, or, while a series of labels is active, the labels of that series with growing numbers;
when a series has run out of numbers it goes back to the names over the alphabet. Reserved symbols,
and labels below a number from which a series was started, are passed over.

`candidate` is the list of what the supply would try next, and `pop` takes the first entry of it
that is not reserved. `exists_free` says that there always is one: a name of one repeated character
that is longer than all reserved symbols comes up at the latest at the `horizon`.
-/

namespace TapeCompiler

/-- A source of fresh symbols. -/
structure NameSupply where
  alphabet : Alphabet
  /-- How many names over the alphabet have been tried. -/
  position : Nat
  /-- The letters of the active series of labels. -/
  series : Option String
  /-- The last number tried in each series. -/
  counters : Tally
  /-- The number up to which the labels of each series are reserved. -/
  floors : Tally
  reserved : List Symbol
  deriving DecidableEq, Repr

namespace NameSupply

/-- A supply that has seen nothing yet. -/
def ofAlphabet (a : Alphabet) : NameSupply := ⟨a, 0, none, .zero, .zero, []⟩

/-- A supply over the characters of a text. -/
def ofString (text : String) : Except Error NameSupply :=
  match Alphabet.ofString? text with
  | some a => .ok (ofAlphabet a)
  | none => .error (.misuse (.alphabet text))

/-- A supply over the small letters and the digits. -/
def standard : NameSupply := ofAlphabet .standard

/-- Keeps a symbol from being handed out. -/
def reserve (s : NameSupply) (symbol : Symbol) : NameSupply :=
  { s with reserved := s.reserved.insert symbol }

/-- Keeps symbols from being handed out. -/
def reserveAll (s : NameSupply) (symbols : List Symbol) : NameSupply := symbols.foldl reserve s

/-- Whether a symbol is a label with a positive number up to the floor of its series. -/
def protects (s : NameSupply) (symbol : Symbol) : Bool :=
  match Label.ofSymbol? symbol with
  | some l => 0 < l.number && l.number ≤ s.floors.get l.letters
  | none => false

/-- Whether a symbol is never handed out. -/
def isReserved (s : NameSupply) (symbol : Symbol) : Bool :=
  s.reserved.contains symbol || s.protects symbol

/-- Starts, or resumes, the series of a label. Its numbers go on behind that of the label, and
behind all that the series has used. -/
def startSeries (s : NameSupply) (symbol : Symbol) : Except Error NameSupply :=
  match Label.ofSymbol? symbol with
  | none => .error (.misuse (.label symbol))
  | some l =>
    if l.number = Label.maxNumber then .error (.misuse (.lastLabel symbol))
    else
      let counters := s.counters.raise l.letters l.number
      let floors := s.floors.raise l.letters (counters.get l.letters)
      .ok ({ s with series := some l.letters, counters, floors }.reserve symbol)

/-- Goes back to the names over the alphabet. -/
def endSeries (s : NameSupply) : NameSupply := { s with series := none }

/-- How many numbers are left in a series. -/
def room (s : NameSupply) (letters : String) : Nat := Label.maxNumber - s.counters.get letters

/-- How many labels are tried before the first name over the alphabet. -/
def ahead (s : NameSupply) : Nat :=
  match s.series with
  | none => 0
  | some x => s.room x

/-- The `k`-th of the symbols that the supply tries next. -/
def candidate (s : NameSupply) (k : Nat) : Symbol :=
  match s.series with
  | none => s.alphabet.name (s.position + k)
  | some x =>
    if k < s.room x then Label.symbol ⟨x, s.counters.get x + 1 + k⟩
    else s.alphabet.name (s.position + (k - s.room x))

/-- The supply after it has tried the candidates up to the `k`-th. -/
def advance (s : NameSupply) (k : Nat) : NameSupply :=
  match s.series with
  | none => { s with position := s.position + k + 1 }
  | some x =>
    if k < s.room x then { s with counters := s.counters.raise x (s.counters.get x + 1 + k) }
    else
      { s with
        series := none
        counters := s.counters.raise x Label.maxNumber
        position := s.position + (k - s.room x) + 1 }

/-- From some candidate on, every name over the alphabet is tried. -/
theorem exists_candidate_eq (s : NameSupply) (n : Nat) (h : s.position ≤ n) :
    ∃ k ≤ s.ahead + n, s.candidate k = s.alphabet.name n := by
  unfold ahead candidate
  cases s.series with
  | none =>
    refine ⟨n - s.position, Nat.le_trans (Nat.sub_le _ _) (Nat.le_add_left _ _), ?_⟩
    simp only [Nat.add_sub_cancel' h]
  | some x =>
    refine ⟨s.room x + (n - s.position), Nat.add_le_add_left (Nat.sub_le _ _) _, ?_⟩
    simp only [Nat.not_lt.mpr (Nat.le_add_right _ _), if_false, Nat.add_sub_cancel_left,
      Nat.add_sub_cancel' h]

/-- A word longer than all reserved symbols, all of whose characters are alike, is free. -/
theorem isReserved_replicate (s : NameSupply) (c : Char) (k : Nat)
    (h : ∀ x ∈ s.reserved, x.length ≤ k) :
    s.isReserved (String.ofList (List.replicate (k + 1) c)) = false := by
  rw [isReserved, Bool.or_eq_false_iff]
  constructor
  · rw [← Bool.not_eq_true, List.contains_iff_mem]
    intro hm
    have hl := h _ hm
    rw [String.length_ofList, List.length_replicate] at hl
    omega
  · unfold protects
    cases hl : Label.ofSymbol? (String.ofList (List.replicate (k + 1) c)) with
    | none => rfl
    | some l => simp [Label.number_eq_zero_of_replicate hl]

/-- The length of the longest reserved symbol. -/
def longest (s : NameSupply) : Nat := s.reserved.foldr (fun x b => max x.length b) 0

theorem length_le_longest (s : NameSupply) : ∀ x ∈ s.reserved, x.length ≤ s.longest := by
  rw [longest]
  induction s.reserved with
  | nil => exact fun x hx => absurd hx List.not_mem_nil
  | cons y l ih =>
    intro x hx
    rcases List.mem_cons.mp hx with rfl | hx
    · exact Nat.le_max_left _ _
    · exact Nat.le_trans (ih x hx) (Nat.le_max_right _ _)

/-- A place in the list of candidates up to which one is free. -/
def horizon (s : NameSupply) : Nat := s.ahead + s.alphabet.runPlace (max s.position s.longest)

/-- Some candidate is free. -/
theorem exists_free (s : NameSupply) :
    ∃ k ≤ s.horizon, (!s.isReserved (s.candidate k)) = true := by
  have hposition := Nat.le_trans (Nat.le_max_left s.position s.longest) (s.alphabet.le_runPlace _)
  obtain ⟨k, hle, hk⟩ := s.exists_candidate_eq _ hposition
  refine ⟨k, hle, ?_⟩
  rw [hk, Alphabet.name, s.alphabet.spell_runPlace, List.reverse_replicate, Bool.not_eq_true']
  exact s.isReserved_replicate _ _ fun x hx =>
    Nat.le_trans (s.length_le_longest x hx) (Nat.le_max_right _ _)

/-- The number of candidates that are passed over. -/
def passed (s : NameSupply) : Nat :=
  firstSuch (fun k => !s.isReserved (s.candidate k)) s.horizon s.exists_free

/-- Hands out the first free candidate and reserves it. -/
def pop (s : NameSupply) : Symbol × NameSupply :=
  let k := s.passed
  (s.candidate k, (s.advance k).reserve (s.candidate k))

/-- Hands out several symbols. -/
def take (s : NameSupply) : Nat → List Symbol × NameSupply
  | 0 => ([], s)
  | n + 1 =>
    let (symbol, s) := s.pop
    let (rest, s) := s.take n
    (symbol :: rest, s)

/-- What is handed out was not reserved. -/
theorem isReserved_pop (s : NameSupply) : s.isReserved s.pop.1 = false := by
  have h := firstSuch_spec s.exists_free
  rw [Bool.not_eq_true'] at h
  exact h

/-- Requests to a supply. -/
inductive Request where
  | pop
  | reserve (symbols : List Symbol)
  | startSeries (label : Symbol)
  | endSeries
  deriving DecidableEq, Repr

/-- Carries out a request; only `pop` has an answer. A refused request changes nothing. -/
def perform (s : NameSupply) : Request → Except Error (Option Symbol) × NameSupply
  | .pop => (.ok (some s.pop.1), s.pop.2)
  | .reserve symbols => (.ok none, s.reserveAll symbols)
  | .startSeries label =>
    match s.startSeries label with
    | .ok s' => (.ok none, s')
    | .error e => (.error e, s)
  | .endSeries => (.ok none, s.endSeries)

end NameSupply

end TapeCompiler
