import TapeCompiler.Program.Encode
import TapeCompiler.Program.Parse

/-!
# Tokens

A token is a symbol that can be written as it is: nothing in it can be taken for white space or for
one of the delimiters. Every numeral is a token. The texts of tokens are put together with
separators, and are found again as the longest runs of characters of their class.
-/

namespace TapeCompiler

/-- A symbol that can be written as it is: it is not empty, and holds no white space, comma or
colon. -/
def Symbol.Token (s : Symbol) : Prop :=
  s ≠ "" ∧ ∀ c ∈ s.toList, Text.isSpace c = false ∧ c ≠ ',' ∧ c ≠ ':'

theorem Symbol.isToken_iff {s : Symbol} : Symbol.isToken s = true ↔ Symbol.Token s := by
  simp only [isToken, Token, Bool.and_eq_true, decide_eq_true_eq, ne_eq, String.toList_eq_nil_iff,
    List.all_eq_true, Bool.not_eq_true', Bool.or_eq_false_iff, beq_eq_false_iff_ne]
  constructor
  · rintro ⟨hs, hchars⟩
    exact ⟨hs, fun c hc => ⟨(hchars c hc).1.1, (hchars c hc).2, (hchars c hc).1.2⟩⟩
  · rintro ⟨hs, hchars⟩
    exact ⟨hs, fun c hc => ⟨⟨(hchars c hc).1, (hchars c hc).2.2⟩, (hchars c hc).2.1⟩⟩

theorem Symbol.isTokenOrEmpty_iff {s : Symbol} :
    Symbol.isTokenOrEmpty s = true ↔ s = "" ∨ Symbol.Token s := by
  rw [isTokenOrEmpty, Bool.or_eq_true, isToken_iff, decide_eq_true_eq, String.toList_eq_nil_iff]

namespace Text

open Grammar

/-- White space holds all that can not be in a symbol but the two delimiters. -/
theorem isSymbolChar_of_token {c : Char} (h : isSpace c = false ∧ c ≠ ',' ∧ c ≠ ':') :
    isSymbolChar c = true := by
  have hne : c ≠ ' ' ∧ c ≠ '\t' ∧ c ≠ '\n' ∧ c ≠ '\r' := by
    refine ⟨?_, ?_, ?_, ?_⟩ <;> rintro rfl <;> exact absurd h.1 (by decide)
  simp [isSymbolChar, hne, h.2]

theorem not_isPadding {c : Char} (h : isSpace c = false) : isPadding c = false := by
  rw [← Bool.not_eq_true] at h ⊢
  exact fun hc => h (isSpace_of_isPadding hc)

/-- A list written with a separator, as its first member and the others behind a separator each. -/
theorem intercalate_eq_flatMap {α : Type} (sep l : List α) (ls : List (List α)) :
    sep.intercalate (l :: ls) = l ++ ls.flatMap (sep ++ ·) := by
  induction ls generalizing l with
  | nil => simp [List.intercalate]
  | cons l' ls ih =>
    rw [List.intercalate_cons_cons, ih, List.flatMap_cons, List.append_assoc, List.append_assoc]

theorem intercalate_cons {α : Type} (x : α) (l : List α) (ls : List (List α)) :
    [x].intercalate (l :: ls) = l ++ ls.flatMap (x :: ·) :=
  intercalate_eq_flatMap [x] l ls

/-- The longest run of a class takes a word whole, and no more if the class ends behind it. -/
theorem span_append {p : Char → Bool} {word rest : List Char} (hword : ∀ c ∈ word, p c = true)
    (hrest : ∀ c ∈ rest.head?, p c = false) :
    (word ++ rest).takeWhile p = word ∧ (word ++ rest).dropWhile p = rest := by
  rw [List.takeWhile_append_of_pos hword, List.dropWhile_append_of_pos hword]
  cases rest with
  | nil => exact ⟨List.append_nil _, rfl⟩
  | cons c rest => simp [hrest c rfl]

end Text

/-! ## Numerals -/

namespace Grammar

open Text

theorem isDigit_toDigits {n : Nat} {c : Char} (hc : c ∈ Nat.toDigits 10 n) : c.isDigit = true :=
  Nat.isDigit_of_mem_toDigits (by decide) (by decide) hc

/-- A numeral as written: the digits of the absolute value, behind a minus sign if the number is
negative. -/
theorem toList_numeral (i : Int) :
    (toString i).toList =
      if 0 ≤ i then Nat.toDigits 10 i.toNat else '-' :: Nat.toDigits 10 (-i).toNat := by
  rw [Int.toString_eq_repr, Int.repr_eq_if]
  split
  · exact Nat.toList_repr
  · rw [String.toList_append, Nat.toList_repr]
    rfl

theorem isSpace_of_isDigit {c : Char} (hc : c.isDigit = true) :
    isSpace c = false ∧ c ≠ ',' ∧ c ≠ ':' := by
  refine ⟨?_, ?_, ?_⟩
  · simp only [Char.isDigit, Bool.and_eq_true, decide_eq_true_eq] at hc
    have hlow : 48 ≤ c.toNat := UInt32.le_iff_toNat_le.mp hc.1
    have hhigh : c.toNat ≤ 57 := UInt32.le_iff_toNat_le.mp hc.2
    simp only [isSpace, Bool.or_eq_false_iff, Bool.and_eq_false_iff, decide_eq_false_iff_not,
      beq_eq_false_iff_ne]
    omega
  · rintro rfl
    exact absurd hc (by decide)
  · rintro rfl
    exact absurd hc (by decide)

/-- A numeral is a token. -/
theorem token_numeral (i : Int) : Symbol.Token (toString i) := by
  have htext : (toString i).toList ≠ [] ∧
      ∀ c ∈ (toString i).toList, isSpace c = false ∧ c ≠ ',' ∧ c ≠ ':' := by
    rw [toList_numeral]
    split
    · exact ⟨Nat.toDigits_ne_nil, fun c hc => isSpace_of_isDigit (isDigit_toDigits hc)⟩
    · refine ⟨List.cons_ne_nil _ _, fun c hc => ?_⟩
      rcases List.mem_cons.mp hc with rfl | hc
      · decide
      · exact isSpace_of_isDigit (isDigit_toDigits hc)
  exact ⟨fun h => htext.1 (String.toList_eq_nil_iff.mpr h), htext.2⟩

end Grammar

end TapeCompiler
