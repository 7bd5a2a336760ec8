import TapeCompiler.Compiler.Basic
import TapeCompiler.Proofs.Writing
import TapeCompiler.Proofs.Rounds

/-!
# The spelling of made-up symbols

What a supply will ever hand out is among its candidates: each request leaves a rest of them. So a
property of all candidates is one of all symbols that are made up later. The candidates of a
compiler are names over the small letters and the digits, and labels, of which every one can be
written; and none of those for values is the sign for the blank.
-/

namespace TapeCompiler

namespace Alphabet

variable {a : Alphabet} {c : Char}

theorem mem_chars_of_mem_spell {n : Nat} (h : c ∈ a.spell n) : c ∈ a.chars := by
  fun_induction spell a n with
  | case1 n hn =>
    rw [List.mem_singleton.mp h]
    exact a.mem_chars_of_mem_leading (List.getElem_mem hn)
  | case2 n hn rest hrest ih =>
    rcases List.mem_cons.mp h with rfl | h
    · exact List.getElem_mem hrest
    · exact ih h

theorem spell_ne_nil (a : Alphabet) (n : Nat) : a.spell n ≠ [] := by
  rw [spell]
  split <;> simp

/-- A name is a token, if no character of the alphabet is white space or a delimiter. -/
theorem token_name (h : ∀ c ∈ a.chars, Text.isSpace c = false ∧ c ≠ ',' ∧ c ≠ ':') (n : Nat) :
    Symbol.Token (a.name n) := by
  refine ⟨fun hname => ?_, fun c hc => h c ?_⟩
  · have hnil : (a.name n).toList = [] := by rw [hname]; rfl
    simp [name, a.spell_ne_nil n] at hnil
  · simp only [name, String.toList_ofList, List.mem_reverse] at hc
    exact mem_chars_of_mem_spell hc

theorem token_standard (n : Nat) : Symbol.Token (standard.name n) := by
  -- Decided along the list: there are too many characters to try them all.
  have hall : standard.chars.all
      (fun c => Text.isSpace c == false && (c != ',' && c != ':')) = true := by decide
  refine token_name (fun c hc => ?_) n
  simpa using List.all_eq_true.mp hall c hc

/-- There are no capital letters in the standard alphabet. -/
theorem name_standard_ne_blankSign (n : Nat) : standard.name n ≠ blankSign := by
  intro h
  have hD : 'D' ∈ (standard.name n).toList := by
    rw [h]
    decide
  simp only [name, String.toList_ofList, List.mem_reverse] at hD
  exact absurd (mem_chars_of_mem_spell hD) (by decide)

end Alphabet

theorem Text.toNat_of_isAlpha {c : Char} (hc : c.isAlpha = true) :
    65 ≤ c.toNat ∧ c.toNat ≤ 122 := by
  rcases Bool.or_eq_true_iff.mp (hc : (c.isUpper || c.isLower) = true) with hupper | hlower
  · obtain ⟨hlow, hhigh⟩ := of_decide_eq_true hupper
    have hlow' : 65 ≤ c.toNat := UInt32.le_iff_toNat_le.mp hlow
    have hhigh' : c.toNat ≤ 90 := UInt32.le_iff_toNat_le.mp hhigh
    omega
  · obtain ⟨hlow, hhigh⟩ := Bool.and_eq_true_iff.mp hlower
    have hlow' : 97 ≤ c.toNat := UInt32.le_iff_toNat_le.mp (of_decide_eq_true hlow)
    have hhigh' : c.toNat ≤ 122 := UInt32.le_iff_toNat_le.mp (of_decide_eq_true hhigh)
    omega

theorem Text.isSpace_of_isAlpha {c : Char} (hc : c.isAlpha = true) :
    isSpace c = false ∧ c ≠ ',' ∧ c ≠ ':' := by
  refine ⟨?_, ?_, ?_⟩
  · have hrange := toNat_of_isAlpha hc
    simp only [isSpace, Bool.or_eq_false_iff, Bool.and_eq_false_iff, decide_eq_false_iff_not,
      beq_eq_false_iff_ne]
    omega
  · rintro rfl
    exact absurd hc (by decide)
  · rintro rfl
    exact absurd hc (by decide)

namespace Label

/-- Letters with which the labels of a series can be written. -/
def Lettered (letters : String) : Prop := letters ≠ "" ∧ ∀ c ∈ letters.toList, c.isAlpha = true

theorem lettered_of_ofSymbol? {s : Symbol} {l : Label} (h : ofSymbol? s = some l) :
    Lettered l.letters := by
  simp only [ofSymbol?] at h
  split at h
  · rename_i hletters
    cases h
    refine ⟨fun hnil => hletters.1 ?_, fun c hc => ?_⟩
    · simpa using congrArg String.toList hnil
    · rw [String.toList_ofList] at hc
      exact List.all_eq_true.mp List.all_takeWhile c hc
  · cases h

theorem token_symbol {letters : String} (h : Lettered letters) (n : Nat) :
    Symbol.Token (symbol ⟨letters, n⟩) := by
  refine ⟨fun hnil => h.1 ?_, fun c hc => ?_⟩
  · have := congrArg String.toList hnil
    simp only [symbol, String.toList_append, String.toList_empty, List.append_eq_nil_iff] at this
    exact String.toList_eq_nil_iff.mp this.1
  · simp only [symbol, String.toList_append, List.mem_append] at hc
    rcases hc with hc | hc
    · exact Text.isSpace_of_isAlpha (h.2 c hc)
    · exact (Grammar.token_numeral n).2 c hc

end Label

namespace NameSupply

variable {s : NameSupply} {P : Symbol → Prop}

/-- All that a supply may ever hand out has a property. -/
def Offers (s : NameSupply) (P : Symbol → Prop) : Prop := ∀ k, P (s.candidate k)

theorem Offers.reserveAll (h : s.Offers P) (xs : List Symbol) : (s.reserveAll xs).Offers P := by
  rw [NameSupply.reserveAll]
  induction xs generalizing s with
  | nil => exact h
  | cons x xs ih => exact ih h

theorem Offers.pop (h : s.Offers P) : P s.pop.1 ∧ s.pop.2.Offers P := by
  refine ⟨h s.passed, fun k => ?_⟩
  have hrest : s.pop.2.candidate k = (s.advance s.passed).candidate k := rfl
  rw [hrest, candidate_advance]
  exact h _

theorem Offers.take (h : s.Offers P) (n : Nat) :
    (∀ x ∈ (s.take n).1, P x) ∧ (s.take n).2.Offers P := by
  induction n generalizing s with
  | zero => exact ⟨by simp [NameSupply.take], h⟩
  | succ n ih =>
    obtain ⟨hfirst, hrest⟩ := h.pop
    obtain ⟨hothers, hleft⟩ := ih hrest
    rw [take_succ]
    refine ⟨fun x hx => ?_, hleft⟩
    rcases List.mem_cons.mp hx with rfl | hx
    · exact hfirst
    · exact hothers x hx

/-- The candidates of a supply are labels of its series and names over its alphabet. -/
theorem offers_of_parts (hname : ∀ n, P (s.alphabet.name n))
    (hseries : ∀ x ∈ s.series, ∀ n, P (Label.symbol ⟨x, n⟩)) : s.Offers P := by
  intro k
  rw [candidate]
  split
  · exact hname _
  · rename_i x hx
    split
    · exact hseries x hx _
    · exact hname _

end NameSupply

namespace Compiler

open NameSupply

/-- The states that are made up for a machine can be written. -/
theorem offers_stateSupply (m : Machine) : (stateSupply m).Offers Symbol.Token := by
  rw [stateSupply]
  split
  · rename_i supply hsupply
    obtain ⟨l, hl, -, rfl⟩ := startSeries_eq_ok.mp hsupply
    refine Offers.reserveAll (offers_of_parts Alphabet.token_standard ?_) _
    rintro x ⟨⟩ n
    exact Label.token_symbol (Label.lettered_of_ofSymbol? hl) n
  · exact Offers.reserveAll (offers_of_parts Alphabet.token_standard nofun) _

/-- So can the values, in a rule of a program with any blank. -/
theorem offers_values (xs : List Symbol) (blank : Symbol) :
    (NameSupply.standard.reserveAll xs).Offers (Rule.ValueEncodable blank) := by
  refine Offers.reserveAll (offers_of_parts (fun n => .inr ?_) nofun) _
  exact ⟨Alphabet.token_standard n, Alphabet.name_standard_ne_blankSign n⟩

end Compiler

end TapeCompiler
