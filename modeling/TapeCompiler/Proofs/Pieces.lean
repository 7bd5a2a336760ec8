import TapeCompiler.Proofs.Spacing

/-!
# The pieces of a written program

The smallest parts of a written program are symbols, line ends, an index and entries. Each kind is
described here by its characters alone, and the reader for it takes exactly the texts described: it
is sound for them, and reads each of them wherever what follows can not be taken for more of it.
-/

namespace TapeCompiler

open Text

/-! ## What the pieces are -/

/-- A symbol as it may stand in a text. -/
def Symbol.Plain (s : Symbol) : Prop :=
  s ≠ "" ∧ ∀ c ∈ s.toList, c ∉ [' ', '\t', '\r', '\n', ',', ':']

namespace Grammar

/-- Padding that keeps two symbols apart. -/
def Gap (cs : List Char) : Prop := cs ≠ [] ∧ Padding cs

/-- The end of a line. -/
inductive LineEnd : List Char → Prop
  | lf : LineEnd ['\n']
  | crlf : LineEnd ['\r', '\n']
  | cr : LineEnd ['\r']

/-- The ends of one or more lines. -/
def LineEnds (parts : List (List Char)) : Prop := parts ≠ [] ∧ ∀ part ∈ parts, LineEnd part

/-- What stands between two entries. -/
inductive Separator : List (List Char) → Prop
  | comma : Separator [[',']]
  | lines {parts : List (List Char)} (h : LineEnds parts) : Separator parts

/-- The arrow of an entry. -/
inductive Arrow : List Char → Prop
  | short : Arrow ['-', '>']
  | long : Arrow ['-', '-', '>']

/-- The text of a cell or of a blank. -/
def CellText (s : Symbol) (part : List Char) : Prop := (s = "" ∨ s.Plain) ∧ part = s.toList

/-- The text of an index. -/
inductive IndexText : Int → List Char → Prop
  | absent : IndexText 0 []
  | natural {digits : List Char} (hne : digits ≠ []) (hdigits : ∀ c ∈ digits, c.isDigit = true) :
      IndexText (Nat.ofDigitChars 10 digits 0) digits
  | negative {digits : List Char} (hne : digits ≠ []) (hdigits : ∀ c ∈ digits, c.isDigit = true) :
      IndexText (-Nat.ofDigitChars 10 digits 0) ('-' :: digits)

/-- The text of an entry of four or five symbols. -/
inductive EntryText : Entry → List Char → Prop
  | four {v s w x : Symbol} {gap₁ gap₂ arrow pad gap₃ : List Char} (hv : v.Plain) (h₁ : Gap gap₁)
      (hs : s.Plain) (h₂ : Gap gap₂) (harrow : Arrow arrow) (hpad : Padding pad) (hw : w.Plain)
      (h₃ : Gap gap₃) (hx : x.Plain) :
      EntryText ⟨v, s, w, x, none⟩
        (v.toList ++ (gap₁ ++ (s.toList ++ (gap₂ ++ (arrow ++ (pad ++ (w.toList ++
          (gap₃ ++ x.toList))))))))
  | five {v s w x y : Symbol} {text gap₄ : List Char} (h : EntryText ⟨v, s, w, x, none⟩ text)
      (h₄ : Gap gap₄) (hy : y.Plain) :
      EntryText ⟨v, s, w, x, some y⟩ (text ++ (gap₄ ++ y.toList))

/-- The parts of entries. -/
abbrev EntriesParts : List Entry → List (List Char) → Prop := Divided EntryText Separator

end Grammar

/-! ## Symbols -/

namespace Grammar

variable {cs rest text part : List Char} {parts : List (List Char)} {s : Symbol} {c : Char}

theorem isSymbolChar_iff : isSymbolChar c = true ↔ c ∉ [' ', '\t', '\r', '\n', ',', ':'] := by
  simp [isSymbolChar, and_assoc, and_left_comm]

theorem isSymbolChar_of_mem (hs : s.Plain) (hc : c ∈ s.toList) : isSymbolChar c = true :=
  isSymbolChar_iff.mpr (hs.2 c hc)

theorem isPadding_of_isSymbolChar (hc : isSymbolChar c = true) : isPadding c = false := by
  rw [← Bool.not_eq_true, isPadding_iff]
  rintro (rfl | rfl) <;> exact absurd hc (by decide)

theorem read_symbol_iff :
    symbol.read cs = some (s, rest) ↔ cs = s.toList ++ rest ∧ s.Plain ∧ Ends rest := by
  constructor
  · intro h
    obtain ⟨word, hrun, rfl⟩ := Reader.read_map_iff.mp h
    simp only [Reader.run, Option.ite_none_left_eq_some, Option.some.injEq, Prod.mk.injEq] at hrun
    obtain ⟨hne, rfl, rfl⟩ := hrun
    rw [String.toList_ofList]
    refine ⟨List.takeWhile_append_dropWhile.symm, ⟨?_, fun c hc => ?_⟩, fun c hc => ?_⟩
    · rwa [ne_eq, String.ofList_eq_empty_iff]
    · rw [String.toList_ofList] at hc
      exact isSymbolChar_iff.mp (List.mem_takeWhile_imp hc)
    · have hhead := List.head?_dropWhile_not isSymbolChar cs
      rw [hc] at hhead
      exact hhead
  · rintro ⟨rfl, hs, hrest⟩
    obtain ⟨htake, hdrop⟩ := span_append (fun c hc => isSymbolChar_of_mem hs hc) hrest
    refine Reader.read_map_iff.mpr ⟨s.toList, ?_, String.ofList_toList⟩
    simp only [Reader.run, htake, hdrop, if_neg (mt String.toList_eq_nil_iff.mp hs.1)]

/-- A symbol starts with a character of a symbol. -/
theorem exists_cons_of_plain (hs : s.Plain) :
    ∃ c cs, s.toList = c :: cs ∧ isSymbolChar c = true := by
  obtain ⟨c, cs, htext⟩ := List.exists_cons_of_ne_nil fun h => hs.1 (String.toList_eq_nil_iff.mp h)
  exact ⟨c, cs, htext, isSymbolChar_of_mem hs (by rw [htext]; exact List.mem_cons_self)⟩

theorem skipPadding_plain (hs : s.Plain) : skipPadding (s.toList ++ rest) = s.toList ++ rest := by
  obtain ⟨c, cs, htext, hc⟩ := exists_cons_of_plain hs
  rw [htext]
  exact skipPadding_cons (isPadding_of_isSymbolChar hc)

theorem reads_symbol (hs : s.Plain) (hrest : Ends rest) :
    symbol.Reads (s.toList ++ rest) s rest := by
  refine ⟨rest, ?_, rfl⟩
  rw [skipPadding_plain hs]
  exact read_symbol_iff.mpr ⟨rfl, hs, hrest⟩

theorem refuses_symbol (h : Delimited (skipPadding rest)) : symbol.Refuses rest := by
  have hnil : ∀ c ∈ ([] : List Char), isSymbolChar c = true := nofun
  have htake : (skipPadding rest).takeWhile isSymbolChar = [] := (span_append hnil h.ends).1
  simp only [Reader.Refuses, symbol, Reader.named, Reader.map, Reader.run, htake, if_true,
    Option.map_none]

/-- A symbol ends in front of padding and in front of a delimiter. -/
theorem ends_of_delimited (h : Delimited (skipPadding rest)) : Ends rest := by
  intro c hc
  by_cases hpad : isPadding c = true
  · rw [← Bool.not_eq_true]
    exact fun hsymbol => absurd hpad (by rw [isPadding_of_isSymbolChar hsymbol]; decide)
  · cases rest with
    | nil => cases hc
    | cons c' rest =>
      cases hc
      rw [skipPadding_cons (Bool.eq_false_iff.mpr hpad)] at h
      exact h.ends c rfl

theorem Gap.ends {gap : List Char} (h : Gap gap) : Ends (gap ++ rest) := by
  obtain ⟨c, gap, rfl⟩ := List.exists_cons_of_ne_nil h.1
  intro c' hc'
  cases hc'
  rcases h.2 c List.mem_cons_self with rfl | rfl <;> decide

/-- What follows a symbol is kept apart from it by a gap, unless it is a delimiter. -/
theorem exists_gap (hends : Ends cs) (hskip : skipPadding cs = (c :: text) ++ rest)
    (hc : isSymbolChar c = true) : ∃ gap, Gap gap ∧ cs = gap ++ ((c :: text) ++ rest) := by
  obtain ⟨gap, hgap, hcs⟩ := exists_skipPadding cs
  rw [hskip] at hcs
  refine ⟨gap, ⟨?_, hgap⟩, hcs⟩
  rintro rfl
  have hend := hends c (by rw [hcs]; rfl)
  rw [hc] at hend
  cases hend

theorem exists_gap_symbol (hends : Ends cs)
    (hread : symbol.read (skipPadding cs) = some (s, rest)) :
    s.Plain ∧ Ends rest ∧ ∃ gap, Gap gap ∧ cs = gap ++ (s.toList ++ rest) := by
  obtain ⟨hskip, hs, hrest⟩ := read_symbol_iff.mp hread
  obtain ⟨c, word, htext, hc⟩ := exists_cons_of_plain hs
  rw [htext] at hskip ⊢
  exact ⟨hs, hrest, exists_gap hends hskip hc⟩

theorem sound_symbolOrEmpty : symbolOrEmpty.Sound (Reader.Alone CellText) := by
  apply Reader.sound_alone
  intro cs s rest h
  obtain ⟨o, hread, rfl⟩ := Reader.read_map_iff.mp h
  rcases Reader.read_optional_iff.mp hread with ⟨-, rfl, rfl⟩ | ⟨s, hsymbol, rfl⟩
  · exact ⟨[], ⟨.inl rfl, rfl⟩, rfl⟩
  · obtain ⟨hcs, hs, -⟩ := read_symbol_iff.mp hsymbol
    exact ⟨s.toList, ⟨.inr hs, rfl⟩, hcs⟩

theorem reads_symbolOrEmpty (hs : s = "" ∨ s.Plain) (hrest : Delimited (skipPadding rest)) :
    symbolOrEmpty.Reads (s.toList ++ rest) s rest := by
  rcases hs with rfl | hs
  · exact Reader.reads_map.mpr ⟨none, rfl, (refuses_symbol hrest).optional⟩
  · exact Reader.reads_map.mpr ⟨some s, rfl, (reads_symbol hs (ends_of_delimited hrest)).optional⟩

/-! ## Line ends -/

theorem read_lineBreak_iff :
    lineBreak.read cs = some ((), rest) ↔
      cs = '\n' :: rest ∨ cs = '\r' :: '\n' :: rest ∨
        cs = '\r' :: rest ∧ rest.head? ≠ some '\n' := by
  simp only [lineBreak, Reader.read_orElse_iff, Reader.read_literal_iff, List.cons_append,
    List.nil_append]
  constructor
  · rintro (h | ⟨-, h | ⟨hnone, h⟩⟩)
    · exact .inl h
    · exact .inr (.inl h)
    · refine .inr (.inr ⟨h, fun hhead => ?_⟩)
      obtain ⟨rest', rfl⟩ := List.head?_eq_some_iff.mp hhead
      have hsome : (Reader.literal ['\r', '\n'] : Reader Term Unit).read cs = some ((), rest') :=
        Reader.read_literal_iff.mpr h
      rw [hsome] at hnone
      cases hnone
  · rintro (h | rfl | ⟨rfl, hhead⟩)
    · exact .inl h
    · exact .inr ⟨rfl, .inl rfl⟩
    · refine .inr ⟨rfl, .inr ⟨?_, rfl⟩⟩
      cases rest with
      | nil => rfl
      | cons c rest =>
        have hc : '\n' ≠ c := fun hc => hhead (by rw [hc]; rfl)
        simp [Reader.literal, Reader.after?, hc]

theorem sound_lineBreak : lineBreak.Sound (Reader.Alone fun _ => LineEnd) := by
  have hliteral : ∀ {part : List Char}, LineEnd part →
      (Reader.literal part : Reader Term Unit).Sound (Reader.Alone fun _ => LineEnd) := by
    intro part hpart cs u rest h
    exact ⟨[part], part, ⟨part, hpart, rfl⟩, .single part, Reader.read_literal_iff.mp h⟩
  exact (hliteral .lf).orElse ((hliteral .crlf).orElse (hliteral .cr))

theorem lineEnd_of_repeated {us : List Unit}
    (h : Reader.Repeated (Reader.Alone fun _ => LineEnd) us parts) :
    ∀ part ∈ parts, LineEnd part := by
  induction h with
  | nil => exact fun part hpart => by cases hpart
  | cons ha _ ih =>
    obtain ⟨part, hpart, rfl⟩ := ha
    exact List.forall_mem_cons.mpr ⟨hpart, ih⟩

theorem sound_lineBreaks : lineBreaks.Sound fun _ => LineEnds := by
  refine (sound_lineBreak.seq sound_lineBreak.many).map ?_
  rintro ⟨⟨⟩, us⟩ _ ⟨_, parts, ⟨part, hpart, rfl⟩, hus, rfl⟩
  exact ⟨List.cons_ne_nil _ _, List.forall_mem_cons.mpr ⟨hpart, lineEnd_of_repeated hus⟩⟩

/-- A text that does not go on with the end of a line, up to padding. -/
def NoBreak (cs : List Char) : Prop := ∀ c ∈ (skipPadding cs).head?, c ≠ '\n' ∧ c ≠ '\r'

theorem head?_ne_lf (h : NoBreak rest) : rest.head? ≠ some '\n' := by
  intro hhead
  cases rest with
  | nil => cases hhead
  | cons c rest =>
    cases hhead
    exact (h '\n' rfl).1 rfl

theorem refuses_lineBreak (h : NoBreak rest) : lineBreak.Refuses rest := by
  cases hread : lineBreak.read (skipPadding rest) with
  | none => exact hread
  | some r =>
    rcases read_lineBreak_iff.mp hread with hskip | hskip | ⟨hskip, -⟩
    · exact absurd rfl (h '\n' (by rw [hskip]; rfl)).1
    · exact absurd rfl (h '\r' (by rw [hskip]; rfl)).2
    · exact absurd rfl (h '\r' (by rw [hskip]; rfl)).2

/-- One end of a line is read, and with it a second one if the two can be taken for one. -/
theorem exists_reads_lineBreak (hc : c = '\n' ∨ c = '\r') (hrest : NoBreak rest)
    (text : List Char) :
    ∃ text', text' <:+ text ∧ lineBreak.Reads (c :: (text ++ rest)) () (text' ++ rest) := by
  rcases hc with rfl | rfl
  · exact ⟨text, List.suffix_rfl, text ++ rest, read_lineBreak_iff.mpr (.inl rfl), rfl⟩
  · by_cases hhead : (text ++ rest).head? = some '\n'
    · cases text with
      | nil => exact absurd hhead (head?_ne_lf hrest)
      | cons c text =>
        cases hhead
        exact ⟨text, List.suffix_cons _ _, text ++ rest,
          read_lineBreak_iff.mpr (.inr (.inl rfl)), rfl⟩
    · exact ⟨text, List.suffix_rfl, text ++ rest,
        read_lineBreak_iff.mpr (.inr (.inr ⟨rfl, hhead⟩)), rfl⟩

theorem progresses_lineBreak : lineBreak.Progresses := by
  refine sound_lineBreak.progresses ?_
  rintro a _ ⟨part, hpart, rfl⟩
  exact ⟨part, List.mem_singleton_self part, by cases hpart <;> exact List.cons_ne_nil _ _⟩

/-- Line ends and padding are read to their end. -/
theorem exists_reads_lineBreak_many {text : List Char} (hrest : NoBreak rest)
    (htext : ∀ c ∈ text, (c = '\n' ∨ c = '\r') ∨ c = ' ' ∨ c = '\t') :
    ∃ us, lineBreak.many.Reads (text ++ rest) us rest := by
  -- The induction is on the length, since one reading may take two ends.
  induction hn : text.length using Nat.strong_induction_on generalizing text with
  | _ n ih =>
    cases text with
    | nil => exact ⟨[], (refuses_lineBreak hrest).many⟩
    | cons c text =>
      have htail := fun c' hc' => htext c' (List.mem_cons_of_mem c hc')
      rcases htext c List.mem_cons_self with hc | hc
      · obtain ⟨text', hsuffix, hread⟩ := exists_reads_lineBreak hc hrest text
        have hlt : text'.length < n := by
          have hle := hsuffix.length_le
          rw [List.length_cons] at hn
          omega
        obtain ⟨us, hus⟩ := ih _ hlt (fun c' hc' => htail c' (hsuffix.mem hc')) rfl
        exact ⟨() :: us, hread.many progresses_lineBreak hus⟩
      · obtain ⟨us, hus⟩ := ih text.length (by rw [← hn]; exact Nat.lt_succ_self _) htail rfl
        have hpad : Padding [c] := fun c' hc' => by rwa [List.mem_singleton.mp hc']
        exact ⟨us, (Reader.reads_pad_append hpad).mpr hus⟩

theorem LineEnd.mem {part : List Char} (h : LineEnd part) (hc : c ∈ part) :
    c = '\n' ∨ c = '\r' := by
  cases h <;> simp_all [or_comm]

theorem mem_lineEnds (hparts : ∀ part ∈ parts, LineEnd part) (h : Spaced parts text)
    (hc : c ∈ text) :
    (c = '\n' ∨ c = '\r') ∨ c = ' ' ∨ c = '\t' := by
  rcases h.mem_or_padding hc with ⟨part, hpart, hc⟩ | hc
  · exact .inl ((hparts part hpart).mem hc)
  · exact .inr hc

theorem LineEnd.exists_cons {part : List Char} (h : LineEnd part) :
    ∃ c part', part = c :: part' ∧ (c = '\n' ∨ c = '\r') := by
  cases h with
  | lf => exact ⟨_, _, rfl, .inl rfl⟩
  | crlf => exact ⟨_, _, rfl, .inr rfl⟩
  | cr => exact ⟨_, _, rfl, .inr rfl⟩

theorem reads_lineBreaks (hparts : LineEnds parts) (htext : Spaced parts text)
    (hrest : NoBreak rest) :
    lineBreaks.Reads (text ++ rest) () rest := by
  have hmem := fun c => mem_lineEnds (c := c) hparts.2 htext
  obtain ⟨part, parts, rfl⟩ := List.exists_cons_of_ne_nil hparts.1
  obtain ⟨c, part, rfl, hc⟩ := (hparts.2 part List.mem_cons_self).exists_cons
  cases htext with
  | @cons pad _ text _ hpad htext =>
    obtain ⟨text', hsuffix, hread⟩ := exists_reads_lineBreak hc hrest (part ++ text)
    have hmem' : ∀ c' ∈ text', (c' = '\n' ∨ c' = '\r') ∨ c' = ' ' ∨ c' = '\t' := fun c' hc' =>
      hmem c' (List.mem_append_right _ (List.mem_cons_of_mem _ (hsuffix.mem hc')))
    obtain ⟨us, hus⟩ := exists_reads_lineBreak_many hrest hmem'
    refine Reader.reads_map.mpr ⟨((), us), rfl, Reader.reads_seq.mpr ⟨_, ?_, hus⟩⟩
    rw [List.append_assoc, Reader.reads_pad_append hpad]
    exact hread

/-! ## Entries -/

theorem read_arrow_iff :
    arrow.read cs = some ((), rest) ↔ ∃ part, Arrow part ∧ cs = part ++ rest := by
  simp only [arrow, Reader.read_orElse_iff, Reader.read_literal_iff]
  constructor
  · rintro (h | ⟨-, h⟩)
    · exact ⟨_, .long, h⟩
    · exact ⟨_, .short, h⟩
  · rintro ⟨part, hpart, rfl⟩
    cases hpart with
    | short => exact .inr ⟨rfl, rfl⟩
    | long => exact .inl rfl

theorem Arrow.exists_cons {part : List Char} (h : Arrow part) : ∃ part', part = '-' :: part' := by
  cases h <;> exact ⟨_, rfl⟩

theorem reads_arrow (h : Arrow part) : arrow.Reads (part ++ rest) () rest := by
  refine ⟨rest, ?_, rfl⟩
  obtain ⟨part', rfl⟩ := h.exists_cons
  rw [List.cons_append, skipPadding_cons (by decide), ← List.cons_append]
  exact read_arrow_iff.mpr ⟨_, h, rfl⟩

theorem sound_entry : entry.Sound (Reader.Alone EntryText) := by
  intro cs e rest h
  obtain ⟨⟨v, s, w, x, y⟩, hread, rfl⟩ := Reader.read_map_iff.mp (Reader.read_named_iff.mp h)
  obtain ⟨r₁, hvalue, hread₁⟩ := Reader.read_seq_iff.mp hread
  obtain ⟨r₃, hread₂, hread₃⟩ := Reader.read_seq_iff.mp hread₁
  obtain ⟨r₂, ⟨⟩, hstate, harrow⟩ := Reader.read_seqLeft_iff.mp hread₂
  obtain ⟨r₄, hwrite, hread₄⟩ := Reader.read_seq_iff.mp hread₃
  obtain ⟨r₅, hfourth, hfifth⟩ := Reader.read_seq_iff.mp hread₄
  -- Each symbol is read to its end, so what follows it stands behind a gap.
  obtain ⟨rfl, hv, hends₁⟩ := read_symbol_iff.mp hvalue
  obtain ⟨hs, hends₂, gap₁, h₁, rfl⟩ := exists_gap_symbol hends₁ hstate
  obtain ⟨_, ha, hskip⟩ := read_arrow_iff.mp harrow
  obtain ⟨arrow, rfl⟩ := ha.exists_cons
  obtain ⟨gap₂, h₂, rfl⟩ := exists_gap hends₂ hskip (by decide)
  obtain ⟨pad, hpad, hr₃⟩ := exists_skipPadding r₃
  obtain ⟨hskip', hw, hends₄⟩ := read_symbol_iff.mp hwrite
  rw [hskip'] at hr₃
  obtain ⟨hx, hends₅, gap₃, h₃, rfl⟩ := exists_gap_symbol hends₄ hfourth
  have hfour := EntryText.four hv h₁ hs h₂ ha hpad hw h₃ hx
  rcases Reader.read_optional_iff.mp hfifth with ⟨-, rfl, rfl⟩ | ⟨y, hlast, rfl⟩
  · obtain ⟨pad', hpad', hr₅⟩ := exists_skipPadding r₅
    refine ⟨_, _, ⟨_, hfour, rfl⟩, (Spaced.single _).append (.nil hpad'), ?_⟩
    simp only [hr₃, List.append_assoc, List.cons_append, ← hr₅]
  · obtain ⟨hy, -, gap₄, h₄, rfl⟩ := exists_gap_symbol hends₅ hlast
    refine ⟨_, _, ⟨_, hfour.five h₄ hy, rfl⟩, .single _, ?_⟩
    simp only [hr₃, List.append_assoc, List.cons_append]

/-- An entry is read if its last symbol is, which may be missing. -/
theorem reads_entry_of_last {e : Entry} {tail : List Char} (h : EntryText e text)
    (hnone : e.fifth = none) {y : Option Symbol} (htail : Ends tail)
    (hy : symbol.optional.Reads tail y rest) :
    entry.Reads (text ++ tail) { e with fifth := y } rest := by
  cases h with
  | five => cases hnone
  | @four v s w x gap₁ gap₂ part pad gap₃ hv h₁ hs h₂ harrow hpad hw h₃ hx =>
    have hlast : (symbol.seq (symbol.seq symbol.optional)).Reads
        (w.toList ++ (gap₃ ++ (x.toList ++ tail))) (w, x, y) rest :=
      Reader.reads_seq.mpr ⟨_, reads_symbol hw h₃.ends, (Reader.reads_pad_append h₃.2).mpr
        (Reader.reads_seq.mpr ⟨tail, reads_symbol hx htail, hy⟩)⟩
    have hstate : (symbol.seqLeft arrow).Reads
        (s.toList ++ (gap₂ ++ (part ++ (pad ++ (w.toList ++ (gap₃ ++ (x.toList ++ tail))))))) s
        (w.toList ++ (gap₃ ++ (x.toList ++ tail))) :=
      (reads_symbol hs h₂.ends).seqLeft ((Reader.reads_pad_append h₂.2).mpr
        ((Reader.reads_append_pad hpad).mp (reads_arrow harrow)))
    simp only [List.append_assoc]
    refine Reader.reads_named.mpr (Reader.reads_map.mpr ⟨(v, s, w, x, y), rfl, ?_⟩)
    exact Reader.reads_seq.mpr ⟨_, reads_symbol hv h₁.ends, (Reader.reads_pad_append h₁.2).mpr
      (Reader.reads_seq.mpr ⟨_, hstate, hlast⟩)⟩

theorem reads_entry {e : Entry} (h : EntryText e text) (hrest : Delimited (skipPadding rest)) :
    entry.Reads (text ++ rest) e rest := by
  cases h with
  | four hv h₁ hs h₂ harrow hpad hw h₃ hx =>
    exact reads_entry_of_last (.four hv h₁ hs h₂ harrow hpad hw h₃ hx) rfl (ends_of_delimited hrest)
      (refuses_symbol hrest).optional
  | five h h₄ hy =>
    have hread := (reads_symbol hy (ends_of_delimited hrest)).optional
    rw [List.append_assoc, List.append_assoc]
    exact reads_entry_of_last h rfl h₄.ends ((Reader.reads_pad_append h₄.2).mpr hread)

theorem EntryText.exists_cons {e : Entry} (h : EntryText e text) :
    ∃ c text', text = c :: text' ∧ isSymbolChar c = true := by
  induction h with
  | four hv =>
    obtain ⟨c, cs, hcs, hc⟩ := exists_cons_of_plain hv
    exact ⟨c, _, by rw [hcs, List.cons_append], hc⟩
  | five _ _ _ ih =>
    obtain ⟨c, text', rfl, hc⟩ := ih
    exact ⟨c, _, List.cons_append, hc⟩

theorem EntryText.noBreak {e : Entry} (h : EntryText e text) : NoBreak (text ++ rest) := by
  obtain ⟨c, text', rfl, hc⟩ := h.exists_cons
  intro c' hc'
  rw [List.cons_append, skipPadding_cons (isPadding_of_isSymbolChar hc)] at hc'
  cases hc'
  constructor <;> rintro rfl <;> exact absurd hc (by decide)

/-- A line end is a delimiter. -/
theorem delimiter_of_break (hc : c = '\n' ∨ c = '\r') :
    isSymbolChar c = false ∧ isPadding c = false := by
  rcases hc with rfl | rfl <;> decide

theorem LineEnds.front (h : LineEnds parts) :
    ∃ c part parts', parts = (c :: part) :: parts' ∧ (c = '\n' ∨ c = '\r') := by
  obtain ⟨part, parts, rfl⟩ := List.exists_cons_of_ne_nil h.1
  obtain ⟨c, part, rfl, hc⟩ := (h.2 part List.mem_cons_self).exists_cons
  exact ⟨c, part, parts, rfl, hc⟩

/-- A comma or a colon is refused where lines end. -/
theorem LineEnds.refuses {d : Char} (h : LineEnds parts) (htext : Spaced parts text)
    (hd : d ≠ '\n' ∧ d ≠ '\r') :
    (Reader.literal [d] : Reader Term Unit).Refuses (text ++ rest) := by
  obtain ⟨c, part, parts', rfl, hc⟩ := h.front
  refine Reader.refuses_literal (delimiter_of_break hc).2 ?_ htext
  rintro rfl
  rcases hc with rfl | rfl
  · exact hd.1 rfl
  · exact hd.2 rfl

theorem divides_entries : Reader.Divides entry (comma.orElse lineBreaks) EntryText Separator where
  item_sound := sound_entry
  divider_sound := by
    refine Reader.Sound.orElse ((Reader.sound_literal [',']).mono ?_) (sound_lineBreaks.mono ?_)
    · rintro _ _ rfl
      exact .comma
    · exact fun _ _ h => .lines h
  reads_item _ _ _ := reads_entry
  reads_divider parts text e part rest hparts htext he := by
    cases hparts with
    | comma => exact (Reader.reads_literal (by decide) htext).orElse
    | lines h =>
      exact (h.refuses htext (by decide)).orElse (reads_lineBreaks h htext he.noBreak)
  front parts hparts := by
    cases hparts with
    | comma => exact ⟨',', [], [], rfl, by decide⟩
    | lines h =>
      obtain ⟨c, part, parts', rfl, hc⟩ := h.front
      exact ⟨c, part, parts', rfl, delimiter_of_break hc⟩

theorem divides_cells :
    Reader.Divides (symbolOrEmpty.named .cell) comma CellText (· = [[',']]) where
  item_sound := sound_symbolOrEmpty
  divider_sound := Reader.sound_literal [',']
  reads_item s part rest := by
    rintro ⟨hs, rfl⟩ hrest
    exact reads_symbolOrEmpty hs hrest
  reads_divider parts text s part rest := by
    rintro rfl htext -
    exact Reader.reads_literal (by decide) htext
  front parts := by
    rintro rfl
    exact ⟨',', [], [], rfl, by decide⟩

theorem sound_entries : entries.Sound EntriesParts :=
  divides_entries.item_sound.divided divides_entries.divider_sound

theorem sound_tape : tape.Sound (Divided CellText (· = [[',']])) :=
  divides_cells.item_sound.divided divides_cells.divider_sound

/-- Entries are read up to the end of the text. -/
theorem reads_entries {es : List Entry} (hes : EntriesParts es parts) (htext : Spaced parts text) :
    entries.Reads text es [] := by
  have h : entries.Reads (text ++ []) es [] := divides_entries.reads hes htext delimited_nil rfl
  rwa [List.append_nil] at h

/-- What a colon follows ends there. -/
theorem delimited_of_colon (h : Spaced ([':'] :: parts) text) : Delimited (skipPadding text) := by
  have hdelimited := h.delimited (by decide) []
  rwa [List.append_nil] at hdelimited

/-- The tape is read up to a colon. -/
theorem reads_tape {cells : List Symbol} {tail : List Char} {parts' : List (List Char)}
    (hcells : Divided CellText (· = [[',']]) cells parts) (htext : Spaced parts text)
    (htail : Spaced ([':'] :: parts') tail) : tape.Reads (text ++ tail) cells tail := by
  have hrefuses : comma.Refuses (tail ++ []) := Reader.refuses_literal (by decide) (by decide) htail
  rw [List.append_nil] at hrefuses
  exact divides_cells.reads hcells htext (delimited_of_colon htail) hrefuses.seqRight

/-! ## The index -/

/-- The number that stands for an index, which may be missing. -/
def indexValue (i : Option WrittenIndex) : Int := i.elim 0 WrittenIndex.value

theorem value_of_isDigit {digits : List Char} (hdigits : ∀ c ∈ digits, c.isDigit = true)
    (left : Nat) : WrittenIndex.value ⟨digits, left⟩ = Nat.ofDigitChars 10 digits 0 := by
  simp only [WrittenIndex.value]
  split
  · exact absurd (hdigits '-' List.mem_cons_self) (by decide)
  · rfl

theorem read_index_iff {left : Nat} :
    index.read cs = some (⟨part, left⟩, rest) ↔
      readNumeral cs = some (part, rest) ∧ cs.length = left := by
  simp only [index, Reader.map, Reader.located, Reader.named, Option.map_map, Function.comp_def,
    Option.map_eq_some_iff, Prod.mk.injEq, WrittenIndex.mk.injEq, Prod.exists]
  constructor
  · rintro ⟨part', rest', hread, ⟨rfl, hleft⟩, rfl⟩
    exact ⟨hread, hleft⟩
  · rintro ⟨hread, hleft⟩
    exact ⟨part, rest, hread, ⟨rfl, hleft⟩, rfl⟩

theorem isSymbolChar_of_isDigit (hc : c.isDigit = true) : isSymbolChar c = true :=
  isSymbolChar_of_token (isSpace_of_isDigit hc)

/-- A numeral ends where a symbol does. -/
theorem isDigit_of_ends (hrest : Ends rest) : ∀ c ∈ rest.head?, c.isDigit = false := by
  intro c hc
  rw [← Bool.not_eq_true]
  intro hdigit
  have hend := hrest c hc
  rw [isSymbolChar_of_isDigit hdigit] at hend
  cases hend

theorem readNumeral_sound {left : Nat} (h : readNumeral cs = some (part, rest)) :
    IndexText (WrittenIndex.value ⟨part, left⟩) part ∧ cs = part ++ rest := by
  revert h
  fun_cases readNumeral cs with
  | case1 cs hnil => exact nofun
  | case2 cs hne =>
    intro h
    cases h
    exact ⟨.negative hne fun c hc => List.mem_takeWhile_imp hc,
      congrArg _ List.takeWhile_append_dropWhile.symm⟩
  | case3 cs hminus hnil => exact nofun
  | case4 cs hminus hne =>
    intro h
    cases h
    have hdigits : ∀ c ∈ cs.takeWhile Char.isDigit, c.isDigit = true := fun c hc =>
      List.mem_takeWhile_imp hc
    rw [value_of_isDigit hdigits]
    exact ⟨.natural hne hdigits, List.takeWhile_append_dropWhile.symm⟩

theorem readNumeral_of_ends (h : Ends cs) : readNumeral cs = none := by
  fun_cases readNumeral cs with
  | case1 cs hnil => rfl
  | case2 cs hne => exact absurd (h '-' rfl) (by decide)
  | case3 cs hminus hnil => rfl
  | case4 cs hminus hne =>
    have hnil : ∀ c ∈ ([] : List Char), c.isDigit = true := nofun
    exact absurd (span_append hnil (isDigit_of_ends h)).1 hne

theorem sound_index : index.optional.Sound (Reader.Alone fun i => IndexText (indexValue i)) := by
  apply Reader.sound_alone
  intro cs o rest h
  rcases Reader.read_optional_iff.mp h with ⟨-, rfl, rfl⟩ | ⟨⟨part, left⟩, hread, rfl⟩
  · exact ⟨[], .absent, rfl⟩
  · exact ⟨part, readNumeral_sound (read_index_iff.mp hread).1⟩

/-- An index is read if it is written, and is missing otherwise. -/
theorem exists_reads_index {n : Int} (h : IndexText n part) (hrest : Delimited (skipPadding rest)) :
    ∃ i, indexValue i = n ∧ index.optional.Reads (part ++ rest) i rest := by
  have hends := isDigit_of_ends (ends_of_delimited hrest)
  have hread : ∀ {c : Char} {part' : List Char}, isSymbolChar c = true →
      readNumeral (c :: part' ++ rest) = some (c :: part', rest) →
      ∃ left, index.optional.Reads (c :: part' ++ rest) (some ⟨c :: part', left⟩) rest := by
    intro c part' hc hnumeral
    have hskip : skipPadding (c :: part' ++ rest) = c :: part' ++ rest :=
      skipPadding_cons (isPadding_of_isSymbolChar hc)
    refine ⟨(c :: part' ++ rest).length, Reader.Reads.optional ⟨rest, ?_, rfl⟩⟩
    rw [hskip]
    exact read_index_iff.mpr ⟨hnumeral, rfl⟩
  cases h with
  | absent =>
    refine ⟨none, rfl, Reader.Refuses.optional ?_⟩
    simp [Reader.Refuses, index, Reader.map, Reader.located, Reader.named,
      readNumeral_of_ends hrest.ends]
  | natural hne hdigits =>
    obtain ⟨htake, hdrop⟩ := span_append hdigits hends
    obtain ⟨c, digits, rfl⟩ := List.exists_cons_of_ne_nil hne
    have hc := hdigits c List.mem_cons_self
    have hminus : ∀ cs, c :: digits ++ rest ≠ '-' :: cs := by
      rintro cs hcs
      cases hcs
      exact absurd hc (by decide)
    have hnumeral : readNumeral (c :: digits ++ rest) = some (c :: digits, rest) := by
      rw [readNumeral.eq_2 _ hminus, htake, hdrop, if_neg hne]
    obtain ⟨left, hreads⟩ := hread (isSymbolChar_of_isDigit hc) hnumeral
    exact ⟨some ⟨c :: digits, left⟩, value_of_isDigit hdigits left, hreads⟩
  | @negative digits hne hdigits =>
    obtain ⟨htake, hdrop⟩ := span_append hdigits hends
    have hnumeral : readNumeral ('-' :: digits ++ rest) = some ('-' :: digits, rest) := by
      rw [List.cons_append, readNumeral, htake, hdrop, if_neg hne]
    obtain ⟨left, hreads⟩ := hread (by decide) hnumeral
    exact ⟨_, rfl, hreads⟩

end Grammar

end TapeCompiler
