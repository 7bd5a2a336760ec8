import TapeCompiler.Json.Read
import TapeCompiler.Json.Write
import TapeCompiler.Proofs.Tokens

/-!
# Strings and integers of JSON text

A written string is taken back character by character: what stands for a character inside the quotes
is taken as this character, whatever follows. A written integer is taken back up to a character that
cannot be part of a number, as long as it is one of 64 bits.

`Json.Takes` says of any scanner that it takes a text as a value. What follows a value in a written
document is always a comma, a line end or nothing.
-/

namespace TapeCompiler.Json

variable {α : Type} {rest : List Char}

/-- What can follow a value: nothing, a comma or a line end. -/
def Closes (rest : List Char) : Prop := ∀ c ∈ rest.head?, c = ',' ∨ c = '\n'

/-- A text does not begin with space, nor with the end of a list. -/
def Opens (text : List Char) : Prop := ∃ c cs, text = c :: cs ∧ isSpace c = false ∧ c ≠ ']'

/-- A scanner takes a text as a value, whatever space is in front of it. -/
structure Takes (scan : Scanner α) (text : List Char) (a : α) : Prop where
  opens : Opens text
  takes : ∀ lead rest, (∀ c ∈ lead, isSpace c = true) → Closes rest →
    scan (lead ++ (text ++ rest)) = .ok (a, rest)

theorem skipSpace_lead {lead : List Char} (hlead : ∀ c ∈ lead, isSpace c = true) {c : Char}
    (hc : isSpace c = false) : skipSpace (lead ++ c :: rest) = c :: rest :=
  (Text.span_append hlead (by simpa using hc)).2

/-! ## Strings -/

theorem hexDigit?_hexChar {n : Nat} (h : n < 16) : hexDigit? (hexChar n) = some n := by
  revert n
  decide

/-- The escape of a control character stands for its code. -/
theorem hexUnit?_hexChar {n : Nat} (h : n < 0x20) :
    hexUnit? '0' '0' (hexChar (n / 16)) (hexChar (n % 16)) = some n := by
  have hzero : hexDigit? '0' = some 0 := by decide
  rw [hexUnit?, hzero, hexDigit?_hexChar (by omega), hexDigit?_hexChar (by omega)]
  simp only [Option.some.injEq]
  omega

/-- What stands for a character inside a string is taken as this character. -/
theorem scanString_escapeChar (c : Char) (rest : List Char) :
    scanString (escapeChar c ++ rest) = consChar c (scanString rest) := by
  by_cases hquote : c = '"'
  · subst hquote
    rfl
  by_cases hbackslash : c = '\\'
  · subst hbackslash
    rfl
  by_cases hb : c = '\x08'
  · subst hb
    rfl
  by_cases hf : c = '\x0c'
  · subst hf
    rfl
  by_cases hn : c = '\n'
  · subst hn
    rfl
  by_cases hr : c = '\r'
  · subst hr
    rfl
  by_cases ht : c = '\t'
  · subst ht
    rfl
  by_cases hcontrol : c.toNat < 0x20
  · have hlow : isLowSurrogate c.toNat = false := by simp [isLowSurrogate]; omega
    have hhigh : isHighSurrogate c.toNat = false := by simp [isHighSurrogate]; omega
    simp [escapeChar, hquote, hbackslash, hb, hf, hn, hr, ht, hcontrol, scanString,
      hexUnit?_hexChar hcontrol, hlow, hhigh, Char.ofNat_toNat]
  · simp [escapeChar, hquote, hbackslash, hb, hf, hn, hr, ht, hcontrol, scanString]

theorem scanString_escaped (s rest : List Char) :
    scanString (s.flatMap escapeChar ++ '"' :: rest) = .ok (s, rest) := by
  induction s with
  | nil => rfl
  | cons c s ih => rw [List.flatMap_cons, List.append_assoc, scanString_escapeChar, ih, consChar]

theorem toList_writeString (s : String) :
    (writeString s).toList = '"' :: (s.toList.flatMap escapeChar ++ ['"']) := by
  simp [writeString]

/-- A written string begins with its quote, behind any space. -/
theorem skipSpace_writeString {lead : List Char} (hlead : ∀ c ∈ lead, isSpace c = true) (s : String)
    (rest : List Char) :
    skipSpace (lead ++ ((writeString s).toList ++ rest)) =
      '"' :: (s.toList.flatMap escapeChar ++ '"' :: rest) := by
  have htext : (writeString s).toList ++ rest =
      '"' :: (s.toList.flatMap escapeChar ++ '"' :: rest) := by
    simp [toList_writeString]
  rw [htext]
  exact skipSpace_lead hlead (by decide)

theorem takes_text (wanted : Wanted) (s : String) :
    Takes (scanText wanted) (writeString s).toList s where
  opens := ⟨'"', _, toList_writeString s, by decide, by decide⟩
  takes lead rest hlead _ := by
    simp only [scanText, skipSpace_writeString hlead, scanString_escaped, String.ofList_toList]

/-! ## Integers -/

/-- Digits are taken as long as their number stays below the limit. -/
theorem takeDigits_append {limit n taken : Nat} {ds : List Char} (hds : ∀ c ∈ ds, c.isDigit = true)
    (hlimit : Nat.ofDigitChars 10 ds n ≤ limit) (hrest : ∀ c ∈ rest.head?, c.isDigit = false) :
    takeDigits limit n taken (ds ++ rest) = (Nat.ofDigitChars 10 ds n, taken + ds.length, rest) := by
  induction ds generalizing n taken with
  | nil =>
    cases rest with
    | nil => rfl
    | cons c rest => simp [takeDigits, hrest c rfl, Nat.ofDigitChars]
  | cons d ds ih =>
    rw [Nat.ofDigitChars_cons] at hlimit ⊢
    have hle : n * 10 + (d.toNat - '0'.toNat) ≤ limit := by
      rw [Nat.mul_comm]
      apply Nat.le_trans _ hlimit
      rw [Nat.ofDigitChars_eq_ofDigitChars_zero]
      have hpow : 0 < 10 ^ ds.length := Nat.pow_pos (by decide)
      have := Nat.le_mul_of_pos_left (10 * n + (d.toNat - '0'.toNat)) hpow
      omega
    have hd := hds d List.mem_cons_self
    have hnext : takeDigits limit (10 * n + (d.toNat - '0'.toNat)) (taken + 1) (ds ++ rest) = _ :=
      ih (fun c hc => hds c (List.mem_cons_of_mem d hc)) hlimit
    rw [List.cons_append, takeDigits, hd, Nat.mul_comm n 10]
    rw [Nat.mul_comm] at hle
    simp only [Bool.true_and, decide_eq_true_eq, hle, if_true, hnext, List.length_cons]
    congr 2
    omega

/-- Only the numeral of zero begins with a zero. -/
theorem toDigits_ne_zero_cons {n : Nat} (hn : n ≠ 0) (ds : List Char) :
    Nat.toDigits 10 n ≠ '0' :: ds := by
  induction n using Nat.strongRecOn generalizing ds with
  | ind n ih =>
    rw [Nat.toDigits_eq_if (by decide)]
    by_cases hlt : n < 10
    · have hdigit : ∀ n < 10, n ≠ 0 → Nat.digitChar n ≠ '0' := by decide
      simp [hlt, hdigit n hlt hn]
    · rw [if_neg hlt]
      intro heq
      cases hdigits : Nat.toDigits 10 (n / 10) with
      | nil => exact Nat.toDigits_ne_nil hdigits
      | cons c cs =>
        rw [hdigits, List.cons_append] at heq
        rw [(List.cons.inj heq).1] at hdigits
        exact ih (n / 10) (by omega) (by omega) cs hdigits

theorem not_special_of_isDigit {c : Char} (h : c.isDigit = true) :
    isSpace c = false ∧ c ≠ '-' ∧ c ≠ ']' := by
  refine ⟨?_, ?_, ?_⟩
  · rw [Bool.eq_false_iff]
    intro hspace
    simp only [isSpace, Bool.or_eq_true, beq_iff_eq] at hspace
    rcases hspace with ((rfl | rfl) | rfl) | rfl <;> exact absurd h (by decide)
  all_goals
    rintro rfl
    exact absurd h (by decide)

theorem Closes.not_digit (h : Closes rest) : ∀ c ∈ rest.head?, c.isDigit = false := by
  intro c hc
  rcases h c hc with rfl | rfl <;> decide

/-- A number ends where a value does. -/
theorem Closes.scanTail (h : Closes rest) (positive : Bool) (n : Nat) :
    scanTail positive n rest =
      if positive then .ok (.integer n, rest)
      else if n = 0 ∨ 0x8000000000000000 < n then .ok (.float (-(UInt64.ofNat n).toFloat), rest)
      else .ok (.integer (-n), rest) := by
  cases rest with
  | nil => rfl
  | cons c rest => rcases h c rfl with rfl | rfl <;> rfl

/-- The numeral of a number of 64 bits is taken whole. -/
theorem scanNumber_toDigits {n : Nat} (hn : n ≤ maxWord) (positive : Bool) (h : Closes rest) :
    scanNumber positive (Nat.toDigits 10 n ++ rest) = scanTail positive n rest := by
  by_cases hzero : n = 0
  · subst hzero
    rw [Nat.toDigits_zero, List.singleton_append]
    cases rest with
    | nil => rfl
    | cons c rest => simp [scanNumber, h.not_digit c rfl]
  · have htake : takeDigits maxWord 0 0 (Nat.toDigits 10 n ++ rest) =
        (n, (Nat.toDigits 10 n).length, rest) := by
      have hvalue : Nat.ofDigitChars 10 (Nat.toDigits 10 n) 0 = n :=
        Nat.ofDigitChars_toDigits (by decide) (by decide)
      have hlimit : Nat.ofDigitChars 10 (Nat.toDigits 10 n) 0 ≤ maxWord := by rw [hvalue]; exact hn
      rw [takeDigits_append (fun c => Grammar.isDigit_toDigits) hlimit h.not_digit, hvalue,
        Nat.zero_add]
    have hspan : rest.takeWhile Char.isDigit = [] := by
      cases rest with
      | nil => rfl
      | cons c rest => simp [h.not_digit c rfl]
    cases hdigits : Nat.toDigits 10 n with
    | nil => exact absurd hdigits Nat.toDigits_ne_nil
    | cons d ds =>
      have hd : d.isDigit = true := Grammar.isDigit_toDigits (hdigits ▸ List.mem_cons_self)
      have hne : d ≠ '0' := fun hd => toDigits_ne_zero_cons hzero ds (hd ▸ hdigits)
      rw [hdigits, List.cons_append] at htake
      simp [scanNumber, hd, htake, hspan]

/-- The numeral of a number is taken whole, with its sign. -/
theorem takes_integer {i : Int} (hi : Program.Representable i) :
    Takes scanInteger (toString i).toList i where
  opens := by
    rw [Grammar.toList_numeral]
    split
    · cases hdigits : Nat.toDigits 10 i.toNat with
      | nil => exact absurd hdigits Nat.toDigits_ne_nil
      | cons d ds =>
        have hd : d.isDigit = true := Grammar.isDigit_toDigits (hdigits ▸ List.mem_cons_self)
        exact ⟨d, ds, rfl, (not_special_of_isDigit hd).1, (not_special_of_isDigit hd).2.2⟩
    · exact ⟨'-', _, rfl, by decide, by decide⟩
  takes lead rest hlead hrest := by
    have hword : i.natAbs ≤ maxWord := by
      obtain ⟨hmin, hmax⟩ := hi
      rw [maxWord]
      omega
    rw [Grammar.toList_numeral]
    by_cases hsign : 0 ≤ i
    · have hnumber := scanNumber_toDigits (n := i.toNat) (by omega) true hrest
      rw [if_pos hsign]
      cases hdigits : Nat.toDigits 10 i.toNat with
      | nil => exact absurd hdigits Nat.toDigits_ne_nil
      | cons d ds =>
        have hd : d.isDigit = true := Grammar.isDigit_toDigits (hdigits ▸ List.mem_cons_self)
        obtain ⟨hspace, hminus, -⟩ := not_special_of_isDigit hd
        rw [hdigits] at hnumber
        have hskip : skipSpace (lead ++ d :: (ds ++ rest)) = d :: (ds ++ rest) :=
          skipSpace_lead hlead hspace
        rw [List.cons_append] at hnumber ⊢
        simp only [scanInteger, hskip]
        simp [hd, hnumber, hrest.scanTail, toInteger, Int.toNat_of_nonneg hsign, hi]
    · have hnumber := scanNumber_toDigits (n := (-i).toNat) (by omega) false hrest
      have hskip : skipSpace (lead ++ '-' :: (Nat.toDigits 10 (-i).toNat ++ rest)) =
          '-' :: (Nat.toDigits 10 (-i).toNat ++ rest) := skipSpace_lead hlead (by decide)
      rw [if_neg hsign, List.cons_append]
      have hnegative : ¬((-i).toNat = 0 ∨ 0x8000000000000000 < (-i).toNat) := by
        obtain ⟨hmin, -⟩ := hi
        omega
      have hvalue : -((-i).toNat : Int) = i := by omega
      simp only [scanInteger, hskip, hnumber, hrest.scanTail, Bool.false_eq_true, if_false,
        if_neg hnegative, hvalue, toInteger, if_pos hi]

end TapeCompiler.Json
