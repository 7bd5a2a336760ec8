import Mathlib.Data.List.Shortlex
import TapeCompiler.Proofs.Spelling

/-!
# The order of names

The names over an alphabet are listed by length and, within a length, in the order of the alphabet:
the shortlex order. None is left out and none occurs twice. They can be read off an odometer whose
first digit counts the characters a name may start with and whose other digits count all characters
(`Alphabet.turn`).

A supply goes through this list from the start and never back. Whatever is asked of it between, the
names that it tries are one part of the list after the other.
-/

namespace TapeCompiler

/-! ## Positions in lists -/

theorem idxOf_cons_lt_iff {l : List Char} {b c d : Char} :
    (b :: l).idxOf c < (b :: l).idxOf d ↔ d ≠ b ∧ (c = b ∨ l.idxOf c < l.idxOf d) := by
  by_cases hd : d = b
  · subst hd
    simp
  · by_cases hc : c = b
    · subst hc
      simp [List.idxOf_cons_ne, Ne.symm hd, hd]
    · simp [List.idxOf_cons_ne, Ne.symm hd, Ne.symm hc, hd, hc]

/-- Leaving some entries out keeps the order of the others. -/
theorem idxOf_filter_lt_iff {p : Char → Bool} {l : List Char} {c d : Char} (hc : p c = true)
    (hd : p d = true) : (l.filter p).idxOf c < (l.filter p).idxOf d ↔ l.idxOf c < l.idxOf d := by
  induction l with
  | nil => rfl
  | cons b l ih =>
    rw [idxOf_cons_lt_iff]
    by_cases hb : p b = true
    · rw [List.filter_cons_of_pos hb, idxOf_cons_lt_iff, ih]
    · have hcb : c ≠ b := fun h => hb (h ▸ hc)
      have hdb : d ≠ b := fun h => hb (h ▸ hd)
      rw [List.filter_cons_of_neg hb, ih]
      simp [hcb, hdb]

/-- Characters stand in the order of their first occurrences. -/
theorem idxOf_eraseDups_lt_iff (l : List Char) (c d : Char) :
    l.eraseDups.idxOf c < l.eraseDups.idxOf d ↔ l.idxOf c < l.idxOf d := by
  induction hlength : l.length using Nat.strongRecOn generalizing l with
  | _ n ih =>
    cases l with
    | nil => rfl
    | cons b l =>
      have hshorter : (l.filter fun x => !x == b).length < n := by
        have := List.length_filter_le (fun x => !x == b) l
        rw [List.length_cons] at hlength
        omega
      rw [List.eraseDups_cons, idxOf_cons_lt_iff, idxOf_cons_lt_iff, ih _ hshorter _ rfl]
      by_cases hd : d = b
      · simp [hd]
      · by_cases hc : c = b
        · simp [hc]
        · rw [idxOf_filter_lt_iff (by simpa using hc) (by simpa using hd)]

namespace Alphabet

variable {a : Alphabet} {m n : Nat}

/-! ## The shortlex order -/

/-- One character stands before another. -/
def Before (a : Alphabet) (c d : Char) : Prop := a.chars.idxOf c < a.chars.idxOf d

instance : Std.Asymm a.Before := ⟨fun _ _ h h' => Nat.lt_asymm h h'⟩

theorem before_chars {i j : Nat} (hj : j < a.chars.length) (h : i < j) :
    a.Before a.chars[i] a.chars[j] := by
  rw [Before, a.nodup.idxOf_getElem, a.nodup.idxOf_getElem]
  exact h

theorem before_leading {i j : Nat} (hj : j < a.leading.length) (h : i < j) :
    a.Before a.leading[i] a.leading[j] := by
  have hnodup : a.leading.Nodup := a.nodup.filter _
  have hstart (k : Nat) (hk : k < a.leading.length) : (!a.leading[k].isDigit) = true :=
    (List.mem_filter.mp (List.getElem_mem hk)).2
  rw [Before, ← idxOf_filter_lt_iff (p := fun c => !c.isDigit) (hstart i (by omega)) (hstart j hj)]
  change a.leading.idxOf _ < a.leading.idxOf _
  rw [hnodup.idxOf_getElem, hnodup.idxOf_getElem]
  exact h

/-- The names behind those of one character extend earlier ones. -/
theorem exists_spell_append (h : ¬n < a.leading.length) :
    ∃ k i, ∃ hi : i < a.chars.length, n = a.leading.length + (a.chars.length * k + i) ∧
      a.spell n = a.chars[i] :: a.spell k := by
  have hi := Nat.mod_lt (n - a.leading.length) a.chars_pos
  refine ⟨(n - a.leading.length) / a.chars.length, _, hi, ?_, ?_⟩
  · rw [Nat.div_add_mod]
    omega
  · rw [spell, dif_neg h]

/-- Words of one length keep their order, whatever is put behind them. -/
theorem lex_append {r : Char → Char → Prop} {u v : List Char} (h : List.Lex r u v)
    (hlength : u.length = v.length) (u' v' : List Char) : List.Lex r (u ++ u') (v ++ v') := by
  induction h with
  | nil => cases hlength
  | cons h ih => exact .cons (ih (Nat.succ.inj hlength))
  | rel h => exact .rel h

/-- A later name is longer, or as long and later in the order of the alphabet. -/
theorem shortlex_spell (h : m < n) :
    List.Shortlex a.Before (a.spell m).reverse (a.spell n).reverse := by
  induction n using Nat.strongRecOn generalizing m with
  | _ n ih =>
    by_cases hn : n < a.leading.length
    · have hm : m < a.leading.length := Nat.lt_trans h hn
      rw [a.spell_of_lt hn, a.spell_of_lt hm, List.reverse_singleton, List.reverse_singleton,
        List.shortlex_singleton_iff]
      exact before_leading hn h
    · obtain ⟨n', j, hj, hnj, hspell⟩ := exists_spell_append hn
      have hpos : 0 < (a.spell n').length := List.length_pos_iff.mpr (a.spell_ne_nil n')
      by_cases hm : m < a.leading.length
      · refine .of_length_lt ?_
        rw [a.spell_of_lt hm, hspell]
        simpa using hpos
      · obtain ⟨m', i, hi, hmi, hspell'⟩ := exists_spell_append hm
        rw [hspell, hspell', List.reverse_cons, List.reverse_cons]
        rcases Nat.lt_trichotomy m' n' with hlt | rfl | hgt
        · have hsmaller : n' < n := by
            have := Nat.le_mul_of_pos_left n' a.chars_pos
            have := a.leading_pos
            omega
          rcases List.shortlex_def.mp (ih n' hsmaller hlt) with hlength | ⟨hlength, hlex⟩
          · refine .of_length_lt ?_
            simpa using hlength
          · exact .of_lex (by simpa using hlength) (lex_append hlex hlength _ _)
        · refine List.Shortlex.append_left ?_ _
          rw [List.shortlex_singleton_iff]
          exact before_chars hj (by omega)
        · have hgap : a.chars.length * n' + a.chars.length ≤ a.chars.length * m' := by
            rw [← Nat.mul_succ]
            exact Nat.mul_le_mul_left _ hgt
          omega

theorem lt_iff_shortlex_name (a : Alphabet) (m n : Nat) :
    m < n ↔ List.Shortlex a.Before (a.name m).toList (a.name n).toList := by
  simp only [name, String.toList_ofList]
  refine ⟨shortlex_spell, fun h => ?_⟩
  rcases Nat.lt_trichotomy m n with hlt | rfl | hgt
  · exact hlt
  · exact absurd h (Std.Asymm.asymm _ _ h)
  · exact absurd h (Std.Asymm.asymm _ _ (shortlex_spell hgt))

theorem name_injective (a : Alphabet) : Function.Injective a.name := by
  intro m n h
  have hirrefl (k : Nat) : ¬List.Shortlex a.Before (a.name k).toList (a.name k).toList :=
    fun hk => Nat.lt_irrefl k ((a.lt_iff_shortlex_name k k).mpr hk)
  rcases Nat.lt_trichotomy m n with hlt | heq | hgt
  · rw [a.lt_iff_shortlex_name, h] at hlt
    exact absurd hlt (hirrefl n)
  · exact heq
  · rw [a.lt_iff_shortlex_name, h] at hgt
    exact absurd hgt (hirrefl n)

/-! ## All names -/

theorem leading_of_mem_getLast? {c : Char} (h : c ∈ (a.spell n).getLast?) : c ∈ a.leading := by
  fun_induction spell a n with
  | case1 n hn =>
    rw [List.getLast?_singleton, Option.mem_some_iff] at h
    rw [← h]
    exact List.getElem_mem hn
  | case2 n hn rest hrest ih =>
    rw [List.getLast?_cons_of_ne_nil (a.spell_ne_nil _)] at h
    exact ih h

/-- Every word over the alphabet that ends with a character a name may start with is spelled. -/
theorem exists_spell_eq {w : List Char} (hne : w ≠ []) (hchars : ∀ c ∈ w, c ∈ a.chars)
    (hlast : ∀ c ∈ w.getLast?, c.isDigit = false) : ∃ n, a.spell n = w := by
  induction w with
  | nil => exact absurd rfl hne
  | cons c w ih =>
    cases w with
    | nil =>
      have hleading : c ∈ a.leading :=
        List.mem_filter.mpr ⟨hchars c (by simp), by simpa using hlast c (by simp)⟩
      obtain ⟨n, hn, rfl⟩ := List.getElem_of_mem hleading
      exact ⟨n, a.spell_of_lt hn⟩
    | cons d w =>
      obtain ⟨n, hn⟩ := ih (by simp) (fun c hc => hchars c (List.mem_cons_of_mem _ hc))
        (fun c hc => hlast c (by rw [List.getLast?_cons_cons]; exact hc))
      obtain ⟨i, hi, rfl⟩ := List.getElem_of_mem (hchars c (by simp))
      exact ⟨_, by rw [a.spell_append n hi, hn]⟩

/-- The names are the words over the alphabet that do not start with a digit. -/
theorem exists_name_eq_iff (a : Alphabet) (w : String) :
    (∃ n, a.name n = w) ↔ w ≠ "" ∧ (∀ c ∈ w.toList, c ∈ a.chars) ∧
      ∀ c ∈ w.toList.head?, c.isDigit = false := by
  constructor
  · rintro ⟨n, rfl⟩
    simp only [name, String.toList_ofList, List.mem_reverse, List.head?_reverse]
    refine ⟨fun hnil => a.spell_ne_nil n ?_, fun c => mem_chars_of_mem_spell, fun c hc => ?_⟩
    · simpa using congrArg String.toList hnil
    · simpa using (List.mem_filter.mp (leading_of_mem_getLast? hc)).2
  · rintro ⟨hne, hchars, hfirst⟩
    obtain ⟨n, hn⟩ := exists_spell_eq (a := a) (w := w.toList.reverse) (by simpa using hne)
      (fun c hc => hchars c (List.mem_reverse.mp hc))
      (fun c hc => hfirst c (by rwa [List.getLast?_reverse] at hc))
    exact ⟨n, by rw [name, hn, List.reverse_reverse, String.ofList_toList]⟩

/-! ## The odometer -/

/-- The next reading of an odometer, last digit first. The first digit, which is the last of the
list, counts the characters that a name may start with and the others count all characters. When all
digits are at their end there is one more. -/
def turn (a : Alphabet) : List Nat → List Nat
  | [] => [0]
  | [d] => if d + 1 < a.leading.length then [d + 1] else [0, 0]
  | d :: e :: ds => if d + 1 < a.chars.length then (d + 1) :: e :: ds else 0 :: a.turn (e :: ds)

/-- The characters of a reading, last first. -/
def shown (a : Alphabet) : List Nat → List Char
  | [] => []
  | [d] => a.leading[d]?.toList
  | d :: e :: ds => a.chars[d]?.toList ++ a.shown (e :: ds)

/-- The position of a reading in the list of names. -/
def place (a : Alphabet) : List Nat → Nat
  | [] => 0
  | [d] => d
  | d :: e :: ds => a.leading.length + (a.chars.length * a.place (e :: ds) + d)

/-- All digits are within their ranges. -/
def InRange (a : Alphabet) : List Nat → Prop
  | [] => False
  | [d] => d < a.leading.length
  | d :: e :: ds => d < a.chars.length ∧ a.InRange (e :: ds)

theorem shown_eq_spell {ds : List Nat} (h : a.InRange ds) : a.shown ds = a.spell (a.place ds) := by
  fun_induction shown a ds with
  | case1 => cases h
  | case2 d =>
    rw [place, a.spell_of_lt h, List.getElem?_eq_getElem h, Option.toList_some]
  | case3 d e ds ih =>
    rw [place, a.spell_append _ h.1, ih h.2, List.getElem?_eq_getElem h.1, Option.toList_some,
      List.singleton_append]

theorem InRange.cons {d : Nat} {ds : List Nat} (hd : d < a.chars.length) (h : a.InRange ds) :
    a.InRange (d :: ds) ∧
      a.place (d :: ds) = a.leading.length + (a.chars.length * a.place ds + d) := by
  cases ds with
  | nil => cases h
  | cons e ds => exact ⟨⟨hd, h⟩, rfl⟩

/-- A turn leads to the next place. -/
theorem place_turn {ds : List Nat} (h : a.InRange ds) :
    a.InRange (a.turn ds) ∧ a.place (a.turn ds) = a.place ds + 1 := by
  fun_induction turn a ds with
  | case1 => cases h
  | case2 d hd => exact ⟨hd, rfl⟩
  | case3 d hd =>
    -- All names of one character are through, and the first of two is next.
    have hlast : d + 1 = a.leading.length := Nat.le_antisymm h (Nat.le_of_not_lt hd)
    exact ⟨⟨a.chars_pos, a.leading_pos⟩, by simp [place, hlast]⟩
  | case4 d e ds hd => exact ⟨⟨hd, h.2⟩, by rw [place, place]; omega⟩
  | case5 d e ds hd ih =>
    have hlast : d + 1 = a.chars.length := Nat.le_antisymm h.1 (Nat.le_of_not_lt hd)
    obtain ⟨hrange, hplace⟩ := ih h.2
    obtain ⟨hrange', hplace'⟩ := hrange.cons a.chars_pos
    refine ⟨hrange', ?_⟩
    rw [hplace', hplace, place, Nat.mul_succ]
    omega

/-- After `n` turns from its first reading the odometer shows the `n`-th name. -/
theorem name_eq_shown (a : Alphabet) (n : Nat) :
    a.name n = String.ofList (a.shown (a.turn^[n] [0])).reverse := by
  have hturns : a.InRange (a.turn^[n] [0]) ∧ a.place (a.turn^[n] [0]) = n := by
    induction n with
    | zero => exact ⟨a.leading_pos, rfl⟩
    | succ n ih =>
      obtain ⟨hrange, hplace⟩ := place_turn ih.1
      rw [Function.iterate_succ_apply', hplace, ih.2]
      exact ⟨hrange, rfl⟩
  rw [name, shown_eq_spell hturns.1, hturns.2]

end Alphabet

/-! ## The names that a supply tries -/

namespace NameSupply

variable {s : NameSupply}

/-- The position of a name in the list of names. -/
def Try.position? : Try → Option Nat
  | .name n => some n
  | .label _ => none

/-- What is tried and not reserved is handed out. -/
theorem pop_eq_iff_of_mem_tries {t : Try} (ht : t ∈ s.tries) :
    s.pop.1 = t.symbol s.alphabet ↔ s.isReserved (t.symbol s.alphabet) = false := by
  constructor
  · intro hpop
    rw [← hpop]
    exact s.isReserved_pop
  · intro hfree
    obtain ⟨k, hk, rfl⟩ := List.mem_map.mp ht
    rw [← candidate_eq_symbol] at hfree ⊢
    rcases Nat.lt_succ_iff_lt_or_eq.mp (List.mem_range.mp hk) with hlt | rfl
    · have hreserved := eq_false_of_lt_firstSuch hlt
      rw [hfree] at hreserved
      cases hreserved
    · rfl

/-- The labels of an active series are no names. -/
theorem filterMap_labels {x : String} (hseries : s.series = some x) {n : Nat} (hn : n ≤ s.room x) :
    ((List.range n).map s.attempt).filterMap Try.position? = [] := by
  rw [List.filterMap_eq_nil_iff]
  intro t ht
  obtain ⟨k, hk, rfl⟩ := List.mem_map.mp ht
  have hroom : k < s.room x := Nat.lt_of_lt_of_le (List.mem_range.mp hk) hn
  simp only [attempt, hseries, hroom, if_true, Try.position?]

/-- The names that are tried to hand out a symbol are those from the position of the supply up to
the one in which it is left. -/
theorem positions_tries (s : NameSupply) :
    ∃ n, s.pop.2.position = s.position + n ∧
      s.tries.filterMap Try.position? = List.range' s.position n := by
  have hposition : s.pop.2.position = (s.advance s.passed).position := rfl
  cases hseries : s.series with
  | none =>
    refine ⟨s.passed + 1, ?_, ?_⟩
    · simp only [hposition, advance, hseries, Nat.add_assoc]
    · rw [tries, List.filterMap_map, List.range'_eq_map_range, ← List.filterMap_eq_map]
      congr 1
      funext k
      simp only [Function.comp_apply, attempt, hseries, Try.position?]
  | some x =>
    by_cases hpassed : s.passed < s.room x
    · refine ⟨0, ?_, filterMap_labels hseries hpassed⟩
      rw [hposition, advance_of_series hseries hpassed]
      rfl
    · -- The labels that are left come first, and then names.
      have hsplit : s.passed + 1 = s.room x + (s.passed - s.room x + 1) := by omega
      refine ⟨s.passed - s.room x + 1, ?_, ?_⟩
      · rw [hposition, advance_of_spent hseries hpassed, Nat.add_assoc]
      · rw [tries, hsplit, List.range_add, List.map_append, List.filterMap_append,
          filterMap_labels hseries (Nat.le_refl _), List.nil_append, List.map_map,
          List.filterMap_map, List.range'_eq_map_range, ← List.filterMap_eq_map]
        congr 1
        funext k
        have hname : ¬s.room x + k < s.room x := by omega
        simp only [Function.comp_apply, attempt, hseries, hname, if_false, Try.position?,
          Nat.add_sub_cancel_left]

/-- Only a pop tries anything, and only a pop moves the position. -/
theorem perform_of_ne_pop (s : NameSupply) {request : Request} (h : request ≠ .pop) :
    s.triedBy request = [] ∧ (s.perform request).2.alphabet = s.alphabet ∧
      (s.perform request).2.position = s.position := by
  cases request with
  | pop => exact absurd rfl h
  | reserve xs =>
    obtain ⟨reserved, hreserve⟩ := s.exists_reserveAll_eq xs
    rw [perform, hreserve]
    exact ⟨rfl, rfl, rfl⟩
  | startSeries label =>
    rcases s.perform_startSeries_cases label with ⟨e, hperform⟩ | ⟨s', hstart, hperform⟩
    · rw [hperform]
      exact ⟨rfl, rfl, rfl⟩
    · obtain ⟨l, -, -, rfl⟩ := startSeries_eq_ok.mp hstart
      rw [hperform]
      exact ⟨rfl, rfl, rfl⟩
  | endSeries => exact ⟨rfl, rfl, rfl⟩

/-- The names that any request tries follow one another. -/
theorem positions_triedBy (s : NameSupply) (request : Request) :
    ∃ n, (s.perform request).2.position = s.position + n ∧
      (s.triedBy request).filterMap Try.position? = List.range' s.position n := by
  by_cases hpop : request = .pop
  · subst hpop
    exact s.positions_tries
  · obtain ⟨htried, -, hposition⟩ := s.perform_of_ne_pop hpop
    exact ⟨0, hposition, by rw [htried]; rfl⟩

/-- And so do those that are tried in a history. -/
theorem positions_tried (s : NameSupply) (requests : List Request) :
    ∃ n, (s.after requests).position = s.position + n ∧
      (s.tried requests).filterMap Try.position? = List.range' s.position n := by
  induction requests generalizing s with
  | nil => exact ⟨0, rfl, rfl⟩
  | cons request requests ih =>
    obtain ⟨n, hposition, hnames⟩ := s.positions_triedBy request
    obtain ⟨n', hposition', hnames'⟩ := ih (s.perform request).2
    refine ⟨n + n', ?_, ?_⟩
    · rw [← Nat.add_assoc, ← hposition, ← hposition']
      rfl
    · rw [tried, List.filterMap_append, hnames, hnames', hposition, List.range'_append_1]

theorem alphabet_perform (s : NameSupply) (request : Request) :
    (s.perform request).2.alphabet = s.alphabet := by
  by_cases hpop : request = .pop
  · subst hpop
    exact s.alphabet_advance s.passed
  · exact (s.perform_of_ne_pop hpop).2.1

theorem alphabet_after (s : NameSupply) (requests : List Request) :
    (s.after requests).alphabet = s.alphabet := by
  induction requests generalizing s with
  | nil => rfl
  | cons request requests ih => exact (ih _).trans (s.alphabet_perform request)

/-- The alphabet of a supply over a text has each character at its first occurrence. -/
theorem exists_alphabet_of_ofString {text : String} (h : ofString text = .ok s) :
    ∃ a : Alphabet, a.chars = text.toList.eraseDups ∧ s = ofAlphabet a := by
  rw [ofString] at h
  cases ha : Alphabet.ofString? text with
  | none =>
    rw [ha] at h
    cases h
  | some a =>
    rw [ha] at h
    cases h
    rw [Alphabet.ofString?] at ha
    split at ha
    · cases ha
      exact ⟨_, rfl, rfl⟩
    · cases ha

/-- A word that may be handed out as a name: one or more characters of a text, of which the first is
no digit. -/
def IsName (text w : String) : Prop :=
  w ≠ "" ∧ (∀ c ∈ w.toList, c ∈ text.toList) ∧ ∀ c ∈ w.toList.head?, c.isDigit = false

/-- One word stands before another: it is shorter, or as long and earlier in the lexicographic order
of the characters by their first occurrences in a text. -/
def Precedes (text v w : String) : Prop :=
  List.Shortlex (fun c d => text.toList.idxOf c < text.toList.idxOf d) v.toList w.toList

/-- **A supply lists every name once, in order.** Over the characters of any text that it accepts,
the names are all words that do not start with a digit, by length and then in the order in which the
characters occur in the text, as an odometer shows them. In any history the names that are tried are
those at `0, 1, 2, …` without a gap or a repetition, and each is handed out exactly if it is not
reserved when it is tried. -/
theorem lists_names_in_order {text : String} {s₀ : NameSupply} (h : ofString text = .ok s₀) :
    (∀ w, (∃ n, s₀.alphabet.name n = w) ↔ IsName text w) ∧
    Function.Injective s₀.alphabet.name ∧
    (∀ m n, m < n ↔ Precedes text (s₀.alphabet.name m) (s₀.alphabet.name n)) ∧
    (∀ n, s₀.alphabet.name n =
      String.ofList (s₀.alphabet.shown (s₀.alphabet.turn^[n] [0])).reverse) ∧
    ∀ requests, let s := s₀.after requests
      (s₀.tried requests).filterMap Try.position? = List.range s.position ∧
      ∀ n, .name n ∈ s.tries →
        (s.pop.1 = s₀.alphabet.name n ↔ s.isReserved (s₀.alphabet.name n) = false) := by
  obtain ⟨a, hchars, rfl⟩ := exists_alphabet_of_ofString h
  have horder : a.Before = fun c d => text.toList.idxOf c < text.toList.idxOf d := by
    funext c d
    rw [Alphabet.Before, hchars, idxOf_eraseDups_lt_iff]
  refine ⟨fun w => ?_, a.name_injective, fun m n => ?_, a.name_eq_shown, fun requests => ?_⟩
  · have hwords := a.exists_name_eq_iff w
    simp only [hchars, List.mem_eraseDups] at hwords
    exact hwords
  · rw [Precedes, ← horder]
    exact a.lt_iff_shortlex_name m n
  · intro s
    obtain ⟨n, hposition, hnames⟩ := (ofAlphabet a).positions_tried requests
    refine ⟨?_, fun n hn => ?_⟩
    · have hcount : s.position = n := hposition.trans (Nat.zero_add n)
      rw [hnames, hcount, List.range_eq_range']
      rfl
    · have halphabet : s.alphabet = a := (ofAlphabet a).alphabet_after requests
      have hreturned := pop_eq_iff_of_mem_tries hn
      rw [halphabet] at hreturned
      exact hreturned

/-- Two characters, each given twice, of which one is a digit: the names that are tried are `a`,
`a1` and `aa`, with a label handed out between the first and the second. -/
theorem lists_names_in_order_twice :
    ∃ s₀, ofString "11aa" = .ok s₀ ∧
      (∃ n, s₀.alphabet.name n = "a1a") ∧ ¬(∃ n, s₀.alphabet.name n = "1a") ∧
      Precedes "11aa" "a1" "aa" ∧
      (s₀.tried [.pop, .startSeries "a7", .pop, .endSeries, .reserve ["a1"], .pop]).filterMap
        Try.position? = [0, 1, 2] := by
  obtain ⟨s₀, hs₀⟩ : ∃ s₀, ofString "11aa" = .ok s₀ := ⟨_, rfl⟩
  obtain ⟨hnames, -, horder, -, hhistory⟩ := lists_names_in_order hs₀
  have hfirst : s₀.alphabet.name 1 = "a1" := by
    cases hs₀
    decide +kernel
  have hsecond : s₀.alphabet.name 2 = "aa" := by
    cases hs₀
    decide +kernel
  have hposition : (s₀.after [.pop, .startSeries "a7", .pop, .endSeries, .reserve ["a1"],
      .pop]).position = 3 := by
    cases hs₀
    decide +kernel
  refine ⟨s₀, hs₀, (hnames _).mpr ⟨by decide, by simp, by simp⟩, fun hname => ?_, ?_, ?_⟩
  · exact absurd (((hnames _).mp hname).2.2 '1' rfl) (by decide)
  · rw [← hfirst, ← hsecond]
    exact (horder 1 2).mp (by decide)
  · rw [(hhistory _).1, hposition]
    rfl

end NameSupply

end TapeCompiler
