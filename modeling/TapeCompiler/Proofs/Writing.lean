import Mathlib.Data.List.Forall2
import TapeCompiler.Proofs.Tokens

/-!
# Writing programs

A program can be written exactly if it is `Program.Encodable`. What is written is then characterised
in full: the text of an encodable program is its first line followed by its entries, where an entry
writes the blank by its sign.
-/

namespace TapeCompiler

open Text

/-! ## What can be written -/

/-- A value that can be written: the blank, or a token that is not the sign for the blank. -/
def Rule.ValueEncodable (blank value : Symbol) : Prop :=
  value = blank ∨ Symbol.Token value ∧ value ≠ blankSign

/-- A rule that can be written in a program with the given blank. -/
structure Rule.Encodable (blank : Symbol) (r : Rule) : Prop where
  value : ValueEncodable blank r.value
  state : Symbol.Token r.state
  write : ValueEncodable blank r.write
  next : Symbol.Token r.next

/-- A program whose first line can be written. -/
structure Program.HeaderEncodable (p : Program) : Prop where
  cells_ne_nil : p.cells ≠ []
  cells : ∀ s ∈ p.cells, s = "" ∨ Symbol.Token s
  blank : p.blank = "" ∨ Symbol.Token p.blank
  start : Symbol.Token p.start

/-- A program that can be written. -/
structure Program.Encodable (p : Program) : Prop extends p.HeaderEncodable where
  rules : ∀ r ∈ p.rules, r.Encodable p.blank

/-! ## Rules and entries -/

namespace Entry

/-- The end of an entry: the fifth symbol, if there is one. -/
def lastText (e : Entry) : List Char :=
  match e.fifth with
  | none => []
  | some s => ' ' :: s.toList

/-- An entry with single spaces between its parts. -/
def text (e : Entry) : List Char :=
  e.value.toList ++ ' ' :: (e.state.toList ++ ' ' :: '-' :: '>' :: ' ' ::
    (e.write.toList ++ ' ' :: (e.fourth.toList ++ e.lastText)))

/-- All parts of an entry are tokens. -/
structure Tokens (e : Entry) : Prop where
  value : Symbol.Token e.value
  state : Symbol.Token e.state
  write : Symbol.Token e.write
  fourth : Symbol.Token e.fourth
  fifth : ∀ s ∈ e.fifth, Symbol.Token s

/-- A value with the blank replaced by its sign. -/
def ofValue (blank value : Symbol) : Symbol := if value = blank then blankSign else value

/-- The entry that writes a rule. -/
def ofRule (blank : Symbol) (r : Rule) : Entry :=
  ⟨ofValue blank r.value, r.state, ofValue blank r.write, r.next, some r.action.code⟩

variable {blank value : Symbol} {r : Rule}

theorem token_ofValue (h : Rule.ValueEncodable blank value) :
    Symbol.Token (ofValue blank value) := by
  by_cases hv : value = blank
  · rw [ofValue, if_pos hv]
    exact Symbol.isToken_iff.mp (by decide)
  · rw [ofValue, if_neg hv]
    exact (h.resolve_left hv).1

/-- The sign for the blank means the blank, and no other value is written by it. -/
theorem resolve_ofValue (h : Rule.ValueEncodable blank value) :
    resolve blank (ofValue blank value) = value := by
  by_cases hv : value = blank
  · rw [ofValue, if_pos hv, resolve, if_pos rfl, hv]
  · rw [ofValue, if_neg hv, resolve, if_neg (h.resolve_left hv).2]

theorem token_code (a : Action) : Symbol.Token a.code := by
  cases a <;> exact Symbol.isToken_iff.mp (by decide)

theorem tokens_ofRule (h : r.Encodable blank) : (ofRule blank r).Tokens where
  value := token_ofValue h.value
  state := h.state
  write := token_ofValue h.write
  fourth := h.next
  fifth s hs := by
    cases hs
    exact token_code r.action

/-- An entry means the rule that it was written for. -/
theorem toRule_ofRule (h : r.Encodable blank) : toRule blank (ofRule blank r) = .ok r := by
  simp only [toRule, ofRule, Action.ofCode?_code, resolve_ofValue h.value, resolve_ofValue h.write]

end Entry

/-! ## Writing -/

section Except

variable {ε α β : Type}

theorem bind_eq_ok {x : Except ε α} {f : α → Except ε β} {b : β} :
    x >>= f = .ok b ↔ ∃ a, x = .ok a ∧ f a = .ok b := by
  cases x with
  | error e =>
    constructor
    · intro h
      cases h
    · rintro ⟨a, ha, -⟩
      cases ha
  | ok a =>
    constructor
    · exact fun h => ⟨a, rfl, h⟩
    · rintro ⟨_, ⟨⟩, hb⟩
      exact hb

theorem mapM_eq_ok {f : α → Except ε β} {xs : List α} {ys : List β} :
    xs.mapM f = .ok ys ↔ List.Forall₂ (fun x y => f x = .ok y) xs ys := by
  induction xs generalizing ys with
  | nil =>
    rw [List.mapM_nil, List.forall₂_nil_left_iff]
    exact ⟨fun h => by cases h; rfl, fun h => by rw [h]; rfl⟩
  | cons x xs ih =>
    simp only [List.mapM_cons, bind_eq_ok, ih, List.forall₂_cons_left_iff]
    constructor
    · rintro ⟨y, hy, ys', hys, h⟩
      cases h
      exact ⟨y, ys', hy, hys, rfl⟩
    · rintro ⟨y, ys', hy, hys, rfl⟩
      exact ⟨y, hy, ys', hys, rfl⟩

end Except

namespace Rule

variable {blank value state : Symbol} {r : Rule} {t : String}

theorem encodeValue_eq_ok :
    encodeValue blank value = .ok t ↔
      ValueEncodable blank value ∧ t = Entry.ofValue blank value := by
  rw [encodeValue, ValueEncodable, Entry.ofValue, ← Symbol.isToken_iff]
  by_cases hv : value = blank
  · simp only [hv, if_true, true_or, true_and, Except.ok.injEq]
    exact eq_comm
  · by_cases ht : value ≠ blankSign ∧ Symbol.isToken value = true
    · simp [hv, ht, eq_comm]
    · simp only [hv, ht, if_false, reduceCtorEq, false_or, false_iff, not_and]
      exact fun h => absurd h.symm ht

theorem encodeState_eq_ok : encodeState state = .ok t ↔ Symbol.Token state ∧ t = state := by
  rw [encodeState, ← Symbol.isToken_iff]
  by_cases ht : Symbol.isToken state = true <;> simp [ht, eq_comm]

theorem ofList_text_ofRule :
    String.ofList (Entry.ofRule blank r).text =
      Entry.ofValue blank r.value ++ " " ++ r.state ++ " -> " ++ Entry.ofValue blank r.write ++
        " " ++ r.next ++ " " ++ r.action.code := by
  apply String.toList_injective
  simp [Entry.text, Entry.lastText, Entry.ofRule]

/-- A rule is written as its entry, if it can be written at all. -/
theorem encode_eq_ok :
    r.encode blank = .ok t ↔ r.Encodable blank ∧ t = String.ofList (Entry.ofRule blank r).text := by
  simp only [encode, bind_eq_ok, encodeValue_eq_ok, encodeState_eq_ok, ofList_text_ofRule]
  constructor
  · rintro ⟨_, ⟨hvalue, rfl⟩, _, ⟨hstate, rfl⟩, _, ⟨hwrite, rfl⟩, _, ⟨hnext, rfl⟩, h⟩
    cases h
    exact ⟨⟨hvalue, hstate, hwrite, hnext⟩, rfl⟩
  · rintro ⟨h, rfl⟩
    exact ⟨_, ⟨h.value, rfl⟩, _, ⟨h.state, rfl⟩, _, ⟨h.write, rfl⟩, _, ⟨h.next, rfl⟩, rfl⟩

end Rule

namespace Program

variable {p : Program} {t : String}

/-- The first line of a program. -/
def headerText (p : Program) : List Char :=
  [','].intercalate (p.cells.map String.toList) ++ ':' :: ((toString p.head).toList ++
    ':' :: (p.blank.toList ++ ':' :: p.start.toList))

/-- The entries that write the rules of a program. -/
def entries (p : Program) : List Entry := p.rules.map (Entry.ofRule p.blank)

theorem headerFault?_eq_none : p.headerFault? = none ↔ p.HeaderEncodable := by
  have hcells : (p.cells.find? fun c => !Symbol.isTokenOrEmpty c) = none ↔
      ∀ s ∈ p.cells, s = "" ∨ Symbol.Token s := by
    simp only [List.find?_eq_none, Bool.not_eq_true', Bool.not_eq_false, Symbol.isTokenOrEmpty_iff]
  rw [headerFault?]
  split
  · rename_i hnil
    exact ⟨nofun, fun h => absurd hnil h.cells_ne_nil⟩
  · rename_i hne
    split
    · rename_i hfind
      refine ⟨nofun, fun h => ?_⟩
      rw [hcells.mpr h.cells] at hfind
      cases hfind
    · rename_i hfind
      by_cases hblank : Symbol.isTokenOrEmpty p.blank = true
      · by_cases hstart : Symbol.isToken p.start = true
        · simp only [hblank, hstart, Bool.not_true, Bool.false_eq_true, if_false, true_iff]
          exact ⟨hne, hcells.mp hfind, Symbol.isTokenOrEmpty_iff.mp hblank,
            Symbol.isToken_iff.mp hstart⟩
        · simp only [hblank, hstart, Bool.not_true, Bool.not_false, Bool.false_eq_true, if_false,
            if_true, reduceCtorEq, false_iff]
          exact fun h => hstart (Symbol.isToken_iff.mpr h.start)
      · simp only [hblank, Bool.not_false, if_true, reduceCtorEq, false_iff]
        exact fun h => hblank (Symbol.isTokenOrEmpty_iff.mpr h.blank)

theorem encodeHeader_eq_ok :
    p.encodeHeader = .ok t ↔ p.HeaderEncodable ∧ t = String.ofList p.headerText := by
  have htext : String.ofList p.headerText = ",".intercalate p.cells ++ ":" ++ toString p.head ++
      ":" ++ p.blank ++ ":" ++ p.start := by
    apply String.toList_injective
    simp [headerText, String.toList_intercalate]
  rw [← headerFault?_eq_none, encodeHeader, htext]
  cases p.headerFault? with
  | some fault => simp
  | none => simp [eq_comm]

theorem encodeRules_eq_ok {ts : List String} :
    p.encodeRules = .ok ts ↔
      (∀ r ∈ p.rules, r.Encodable p.blank) ∧ ts = p.entries.map fun e => String.ofList e.text := by
  have hmap : List.Forall₂ (fun r t => t = String.ofList (Entry.ofRule p.blank r).text) p.rules ts ↔
      ts = p.entries.map fun e => String.ofList e.text := by
    rw [← List.forall₂_eq_eq_eq, entries, List.map_map, List.forall₂_map_right_iff]
    exact ⟨List.Forall₂.flip, List.Forall₂.flip⟩
  simp only [encodeRules, mapM_eq_ok, Rule.encode_eq_ok, List.forall₂_and_left, hmap]

/-- On one line, the entries stand behind a colon and are divided by commas. -/
theorem encode_eq_ok :
    p.encode = .ok t ↔ p.Encodable ∧ t =
      String.ofList (p.headerText ++ ':' :: [','].intercalate (p.entries.map Entry.text)) := by
  have htext : String.ofList (p.headerText ++ ':' :: [','].intercalate (p.entries.map Entry.text)) =
      String.ofList p.headerText ++ ":" ++
        ",".intercalate (p.entries.map fun e => String.ofList e.text) := by
    apply String.toList_injective
    simp [String.toList_intercalate, Function.comp_def]
  simp only [encode, bind_eq_ok, encodeRules_eq_ok, encodeHeader_eq_ok, htext]
  constructor
  · rintro ⟨_, ⟨hrules, rfl⟩, _, ⟨hheader, rfl⟩, h⟩
    cases h
    exact ⟨⟨hheader, hrules⟩, rfl⟩
  · rintro ⟨h, rfl⟩
    exact ⟨_, ⟨h.rules, rfl⟩, _, ⟨h.toHeaderEncodable, rfl⟩, rfl⟩

/-- On lines of their own, each entry stands behind the end of the line before it. -/
theorem encodeLines_eq_ok :
    p.encodeLines = .ok t ↔ p.Encodable ∧ t =
      String.ofList (p.headerText ++ (p.entries.flatMap fun e => '\n' :: e.text) ++ ['\n']) := by
  have htext :
      String.ofList (p.headerText ++ (p.entries.flatMap fun e => '\n' :: e.text) ++ ['\n']) =
      "\n".intercalate
        (String.ofList p.headerText :: p.entries.map fun e => String.ofList e.text) ++ "\n" := by
    apply String.toList_injective
    simp [String.toList_intercalate, Function.comp_def, intercalate_cons, List.flatMap_map]
  simp only [encodeLines, bind_eq_ok, encodeRules_eq_ok, encodeHeader_eq_ok, htext]
  constructor
  · rintro ⟨_, ⟨hheader, rfl⟩, _, ⟨hrules, rfl⟩, h⟩
    cases h
    exact ⟨⟨hheader, hrules⟩, rfl⟩
  · rintro ⟨h, rfl⟩
    exact ⟨_, ⟨h.toHeaderEncodable, rfl⟩, _, ⟨h.rules, rfl⟩, rfl⟩

end Program

end TapeCompiler
