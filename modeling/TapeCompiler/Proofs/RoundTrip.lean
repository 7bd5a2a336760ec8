import TapeCompiler.Proofs.Language

/-!
# Written programs read back

Both written forms of a program, the one on one line and the one with each rule on a line of its own,
read back as the program itself. A written form is spaced into the parts of the program, and has no
white space at its ends but a last line break. So it belongs to the language of written programs, of
which `Program.parse_of_hasParts` says how it is read; nothing more is to be known about readers.
-/

namespace TapeCompiler

open Text

/-! ## White space at the ends -/

namespace Text

variable {a b : List Char}

theorem trimmed_of_forall (h : ∀ c ∈ a, isSpace c = false) : Trimmed a :=
  ⟨fun c hc => h c (List.mem_of_mem_head? hc), fun c hc => h c (List.mem_of_mem_getLast? hc)⟩

theorem trimmed_token {s : Symbol} (hs : Symbol.Token s) : Trimmed s.toList :=
  trimmed_of_forall fun c hc => (hs.2 c hc).1

/-- Only the two ends matter. -/
theorem Trimmed.around (ha : Trimmed a) (hb : Trimmed b) (hane : a ≠ []) (hbne : b ≠ [])
    (mid : List Char) : Trimmed (a ++ (mid ++ b)) where
  front c hc := by
    rw [List.head?_append_of_ne_nil _ hane] at hc
    exact ha.front c hc
  back c hc := by
    rw [← List.append_assoc, List.getLast?_append_of_ne_nil _ hbne] at hc
    exact hb.back c hc

end Text

namespace Entry

variable {e : Entry}

theorem text_ne_nil : e.text ≠ [] := by
  simp [text]

theorem trimmed_text (h : e.Tokens) : Trimmed e.text := by
  have hne : ∀ {s : Symbol}, Symbol.Token s → s.toList ≠ [] := fun hs hnil =>
    hs.1 (String.toList_eq_nil_iff.mp hnil)
  cases hfifth : e.fifth with
  | none =>
    have htext : e.text = e.value.toList ++ ((' ' :: (e.state.toList ++ ' ' :: '-' :: '>' :: ' ' ::
        (e.write.toList ++ [' ']))) ++ e.fourth.toList) := by
      simp [text, lastText, hfifth]
    rw [htext]
    exact (trimmed_token h.value).around (trimmed_token h.fourth) (hne h.value) (hne h.fourth) _
  | some s =>
    have hs := h.fifth s hfifth
    have htext : e.text = e.value.toList ++ ((' ' :: (e.state.toList ++ ' ' :: '-' :: '>' :: ' ' ::
        (e.write.toList ++ ' ' :: (e.fourth.toList ++ [' '])))) ++ s.toList) := by
      simp [text, lastText, hfifth]
    rw [htext]
    exact (trimmed_token h.value).around (trimmed_token hs) (hne h.value) (hne hs) _

/-- Entries may follow a text, whatever stands between them. -/
theorem trimmed_flatMap_text {es : List Entry} (hes : ∀ e ∈ es, e.Tokens) (sep : Char)
    {a : List Char} (ha : Trimmed a) (hane : a ≠ []) :
    Trimmed (a ++ es.flatMap fun e => sep :: e.text) := by
  induction es generalizing a with
  | nil => simpa using ha
  | cons e es ih =>
    have hfirst : Trimmed (a ++ ([sep] ++ e.text)) :=
      ha.around (trimmed_text (hes e List.mem_cons_self)) hane text_ne_nil [sep]
    have hrest := ih (fun e' he' => hes e' (List.mem_cons_of_mem e he')) hfirst (by simp [hane])
    rw [List.append_assoc] at hrest
    exact hrest

end Entry

namespace Program

variable {p : Program}

theorem tokens_entries (h : p.Encodable) : ∀ e ∈ p.entries, e.Tokens := by
  intro e he
  obtain ⟨r, hr, rfl⟩ := List.mem_map.mp he
  exact Entry.tokens_ofRule (h.rules r hr)

theorem headerText_ne_nil : p.headerText ≠ [] := by
  simp [headerText]

/-- There is no white space in a first line. -/
theorem trimmed_headerText (h : p.HeaderEncodable) : Trimmed p.headerText := by
  have hsymbol : ∀ {s : Symbol} {c : Char}, s = "" ∨ Symbol.Token s → c ∈ s.toList →
      isSpace c = false := by
    rintro s c (rfl | hs) hc
    · cases hc
    · exact (hs.2 c hc).1
  have hcells : ∀ c ∈ [','].intercalate (p.cells.map String.toList), isSpace c = false := by
    have hcells := h.cells
    cases hp : p.cells with
    | nil => exact absurd hp h.cells_ne_nil
    | cons s cells =>
      rw [hp] at hcells
      intro c hc
      simp only [List.map_cons, intercalate_cons, List.flatMap_map, List.mem_append,
        List.mem_flatMap, List.mem_cons] at hc
      rcases hc with hc | ⟨s', hs', rfl | hc⟩
      · exact hsymbol (hcells s List.mem_cons_self) hc
      · decide
      · exact hsymbol (hcells s' (List.mem_cons_of_mem s hs')) hc
  apply trimmed_of_forall
  intro c hc
  simp only [headerText, List.mem_append, List.mem_cons] at hc
  rcases hc with hc | rfl | hc | rfl | hc | rfl | hc
  · exact hcells c hc
  · decide
  · exact ((Grammar.token_numeral p.head).2 c hc).1
  · decide
  · exact hsymbol h.blank hc
  · decide
  · exact (h.start.2 c hc).1

/-- A program on one line has no white space at its ends. -/
theorem trimmed_line (h : p.Encodable) :
    Trimmed (p.headerText ++ ':' :: [','].intercalate (p.entries.map Entry.text)) := by
  have hheader := trimmed_headerText h.toHeaderEncodable
  have hentries := tokens_entries h
  cases hes : p.entries with
  | nil =>
    have hcolon : Trimmed [':'] := trimmed_of_forall (by simp; decide)
    exact hheader.around hcolon headerText_ne_nil (List.cons_ne_nil _ _) []
  | cons e es =>
    rw [hes] at hentries
    have hfirst : Trimmed (p.headerText ++ ([':'] ++ e.text)) :=
      hheader.around (Entry.trimmed_text (hentries e List.mem_cons_self)) headerText_ne_nil
        Entry.text_ne_nil [':']
    have hline := Entry.trimmed_flatMap_text (fun e' he' => hentries e' (List.mem_cons_of_mem e he'))
      ',' hfirst (by simp)
    rw [List.map_cons, intercalate_cons, List.flatMap_map]
    rw [List.append_assoc] at hline
    exact hline

end Program

/-! ## Parts -/

theorem Symbol.Token.plain {s : Symbol} (h : Symbol.Token s) : Symbol.Plain s := by
  refine ⟨h.1, fun c hc hmem => ?_⟩
  obtain ⟨hspace, hcomma, hcolon⟩ := h.2 c hc
  simp only [List.mem_cons, List.not_mem_nil, or_false] at hmem
  rcases hmem with rfl | rfl | rfl | rfl | rfl | rfl
  iterate 4 exact absurd hspace (by decide)
  · exact hcomma rfl
  · exact hcolon rfl

namespace Grammar

/-- Items that are written with a sign between each two are divided by this sign. -/
theorem exists_divided {α : Type} {Item : α → List Char → Prop} {Divider : List (List Char) → Prop}
    {write : α → List Char} {sign : List Char} (hsign : Divider [sign]) {items : List α}
    (hne : items ≠ []) (hitems : ∀ a ∈ items, Item a (write a)) :
    ∃ parts, Divided Item Divider items parts ∧
      Spaced parts (sign.intercalate (items.map write)) := by
  induction items with
  | nil => exact absurd rfl hne
  | cons a items ih =>
    have ha := hitems a List.mem_cons_self
    cases items with
    | nil => exact ⟨[write a], .one ha, by simpa using Spaced.single (write a)⟩
    | cons b items =>
      obtain ⟨parts, hparts, htext⟩ := ih (List.cons_ne_nil _ _) fun x hx =>
        hitems x (List.mem_cons_of_mem a hx)
      refine ⟨write a :: ([sign] ++ parts), .cons ha hsign hparts, ?_⟩
      rw [List.map_cons, List.map_cons, List.intercalate_cons_cons, List.append_assoc]
      exact (Spaced.single (write a)).append ((Spaced.single sign).append htext)

/-- A numeral is the text of its number. -/
theorem indexText_numeral (i : Int) : IndexText i (toString i).toList := by
  have hvalue (n : Nat) : Nat.ofDigitChars 10 (Nat.toDigits 10 n) 0 = n :=
    Nat.ofDigitChars_toDigits (by decide) (by decide)
  rw [toList_numeral]
  split
  · have htext := IndexText.natural Nat.toDigits_ne_nil fun c => isDigit_toDigits (n := i.toNat)
    rwa [hvalue, Int.toNat_of_nonneg ‹_›] at htext
  · have htext := IndexText.negative Nat.toDigits_ne_nil fun c => isDigit_toDigits (n := (-i).toNat)
    rwa [hvalue, Int.toNat_of_nonneg (by omega), Int.neg_neg] at htext

/-- An entry with single spaces between its parts is the text of an entry. -/
theorem entryText_text {e : Entry} (h : e.Tokens) : EntryText e e.text := by
  have hgap : Gap [' '] := ⟨by simp, by simp [Padding]⟩
  obtain ⟨v, s, w, x, y⟩ := e
  have hfour := EntryText.four h.value.plain hgap h.state.plain hgap .short hgap.2 h.write.plain
    hgap h.fourth.plain
  cases y with
  | none => simpa [Entry.text, Entry.lastText] using hfour
  | some y => simpa [Entry.text, Entry.lastText] using hfour.five hgap (h.fifth y rfl).plain

/-- Cells are divided by commas. -/
theorem exists_tape_parts {cells : List Symbol} (hne : cells ≠ [])
    (hcells : ∀ s ∈ cells, s = "" ∨ s.Plain) :
    ∃ parts, Divided CellText (· = [[',']]) cells parts ∧
      Spaced parts ([','].intercalate (cells.map String.toList)) := by
  refine exists_divided ?_ hne fun s hs => ⟨hcells s hs, rfl⟩
  rfl

/-- Entries are divided by a separator between each two. -/
theorem exists_entries_parts {sign : List Char} (hsign : Separator [sign]) {es : List Entry}
    (hne : es ≠ []) (hes : ∀ e ∈ es, e.Tokens) :
    ∃ parts, EntriesParts es parts ∧ Spaced parts (sign.intercalate (es.map Entry.text)) :=
  exists_divided hsign hne fun e he => entryText_text (hes e he)

end Grammar

/-! ## Reading -/

namespace Program

variable {p : Program} {t : String} {tail : List Char} {body : List (List Char)}

/-- A text means a program if it is the first line of the program with its entries behind it. -/
theorem parse_of_body (hhead : Representable p.head) (h : p.Encodable)
    (htrims : TrimsTo t.toList (p.headerText ++ tail)) (hbody : Grammar.BodyParts p.entries body)
    (htail : Spaced body tail) : parse t = .ok p := by
  have hplain {s : Symbol} (hs : s = "" ∨ Symbol.Token s) : s = "" ∨ s.Plain :=
    hs.imp_right Symbol.Token.plain
  obtain ⟨tape, htape, hcells⟩ := Grammar.exists_tape_parts h.cells_ne_nil fun s hs =>
    hplain (h.cells s hs)
  have hrules : List.Forall₂ (Entry.Means p.blank) p.entries p.rules := by
    rw [entries, List.forall₂_map_left_iff, List.forall₂_same]
    exact fun r hr => Entry.toRule_eq_ok.mp (Entry.toRule_ofRule (h.rules r hr))
  refine parse_of_hasParts htrims ?_ (.intro htape (Grammar.indexText_numeral p.head) hhead
    (hplain h.blank) h.start.plain hbody hrules)
  have hcolon : Spaced [[':']] [':'] := .single [':']
  have hstart := (Spaced.single p.start.toList).append htail
  have hblank := (Spaced.single p.blank.toList).append (hcolon.append hstart)
  have hindex := (Spaced.single (toString p.head).toList).append (hcolon.append hblank)
  simpa [headerText] using hcells.append (hcolon.append hindex)

/-- The form on one line reads back. -/
theorem parse_encode (hhead : Representable p.head) (ht : p.encode = .ok t) : parse t = .ok p := by
  obtain ⟨h, rfl⟩ := encode_eq_ok.mp ht
  have htrims : TrimsTo (String.ofList (p.headerText ++
      ':' :: [','].intercalate (p.entries.map Entry.text))).toList _ :=
    ⟨trimmed_line h, [], [], by simp, by simp⟩
  by_cases hes : p.entries = []
  · have hbody : Grammar.BodyParts p.entries [[':']] := hes ▸ .colon
    refine parse_of_body hhead h htrims hbody ?_
    rw [hes]
    exact .single [':']
  · obtain ⟨parts, hparts, htext⟩ := Grammar.exists_entries_parts .comma hes (tokens_entries h)
    exact parse_of_body hhead h htrims (.entries hparts) ((Spaced.single [':']).append htext)

/-- The form on several lines reads back. The line break at the end is cut off. -/
theorem parse_encodeLines (hhead : Representable p.head) (ht : p.encodeLines = .ok t) :
    parse t = .ok p := by
  obtain ⟨h, rfl⟩ := encodeLines_eq_ok.mp ht
  have hlines := Entry.trimmed_flatMap_text (tokens_entries h) '\n'
    (trimmed_headerText h.toHeaderEncodable) headerText_ne_nil
  have htrims : TrimsTo (String.ofList (p.headerText ++ (p.entries.flatMap fun e => '\n' :: e.text) ++
      ['\n'])).toList _ := ⟨hlines, [], ['\n'], by simp, by simp; decide⟩
  by_cases hes : p.entries = []
  · -- Nothing follows the first line, so the body is left out.
    have hbody : Grammar.BodyParts p.entries [] := hes ▸ .nothing
    refine parse_of_body hhead h htrims hbody ?_
    rw [hes]
    exact .nil padding_nil
  · have hline : Grammar.LineEnds [['\n']] := ⟨by simp, by simp [Grammar.LineEnd.lf]⟩
    obtain ⟨parts, hparts, htext⟩ := Grammar.exists_entries_parts (.lines hline) hes
      (tokens_entries h)
    refine parse_of_body hhead h htrims (.lines hline hparts) ?_
    have hrows : (p.entries.flatMap fun e => '\n' :: e.text) =
        ['\n'] ++ ['\n'].intercalate (p.entries.map Entry.text) := by
      obtain ⟨e, es, hcons⟩ := List.exists_cons_of_ne_nil hes
      rw [hcons, List.map_cons, intercalate_cons, List.flatMap_map]
      rfl
    rw [hrows]
    exact (Spaced.single ['\n']).append htext

/-- Both written forms exist exactly for encodable programs, and read back as the program. -/
theorem encode_reads_back (p : Program) (hhead : Representable p.head) :
    ((∃ t, p.encode = .ok t) ↔ p.Encodable) ∧ ((∃ t, p.encodeLines = .ok t) ↔ p.Encodable) ∧
      (∀ t, p.encode = .ok t → parse t = .ok p) ∧
        ∀ t, p.encodeLines = .ok t → parse t = .ok p := by
  refine ⟨?_, ?_, fun t => parse_encode hhead, fun t => parse_encodeLines hhead⟩
  · simp [encode_eq_ok]
  · simp [encodeLines_eq_ok]

/-- A program that writes signs, arrows and codes of actions as its symbols, and has an empty
blank. -/
def lookalikes : Program :=
  ⟨["", "DEF", "->"], -0x8000000000000000, "", "-->",
    [⟨"", "->", "->", "STOP", .halt⟩, ⟨"-1", "DEF", "", "L", .stay⟩]⟩

theorem encode_reads_back_lookalikes :
    Representable lookalikes.head ∧
      lookalikes.encode =
        .ok ",DEF,->:-9223372036854775808::-->:DEF -> -> -> STOP STOP,-1 DEF -> DEF L S" ∧
      parse ",DEF,->:-9223372036854775808::-->:DEF -> -> -> STOP STOP,-1 DEF -> DEF L S" =
        .ok lookalikes ∧
      lookalikes.encodeLines =
        .ok ",DEF,->:-9223372036854775808::-->\nDEF -> -> -> STOP STOP\n-1 DEF -> DEF L S\n" ∧
      parse ",DEF,->:-9223372036854775808::-->\nDEF -> -> -> STOP STOP\n-1 DEF -> DEF L S\n" =
        .ok lookalikes := by
  have hhead : Representable lookalikes.head := by decide
  have hline : lookalikes.encode =
      .ok ",DEF,->:-9223372036854775808::-->:DEF -> -> -> STOP STOP,-1 DEF -> DEF L S" := by
    decide +kernel
  have hlines : lookalikes.encodeLines =
      .ok ",DEF,->:-9223372036854775808::-->\nDEF -> -> -> STOP STOP\n-1 DEF -> DEF L S\n" := by
    decide +kernel
  obtain ⟨-, -, hparse, hparseLines⟩ := encode_reads_back lookalikes hhead
  exact ⟨hhead, hline, hparse _ hline, hlines, hparseLines _ hlines⟩

end Program

end TapeCompiler
