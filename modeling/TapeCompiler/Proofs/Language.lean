import TapeCompiler.Proofs.Pieces
import TapeCompiler.Proofs.Writing

/-!
# The language of written programs

What texts write which programs, stated by what their parts are and without regard to how they are
read: `Program.HasParts`. A text is read as a program exactly if it is spaced into parts of that
program once the white space at its ends is cut off (`Program.parse_eq_ok_iff`). So choices that
readers never take back cost no text of the language, and no text outside of it slips through.
-/

namespace TapeCompiler

open Text

/-! ## The parts of a program -/

namespace Grammar

/-- The parts behind the first line: none, a colon, a colon and entries, or entries on lines of
their own. -/
inductive BodyParts : List Entry → List (List Char) → Prop
  | nothing : BodyParts [] []
  | colon : BodyParts [] [[':']]
  | entries {es : List Entry} {parts : List (List Char)} (hes : EntriesParts es parts) :
      BodyParts es ([':'] :: parts)
  | lines {es : List Entry} {ends parts : List (List Char)} (hends : LineEnds ends)
      (hes : EntriesParts es parts) : BodyParts es (ends ++ parts)

end Grammar

namespace Entry

/-- What a value of an entry stands for. -/
inductive ValueMeans (blank : Symbol) : Symbol → Symbol → Prop
  | sign : ValueMeans blank "DEF" blank
  | plain {v : Symbol} (hv : v ≠ "DEF") : ValueMeans blank v v

/-- What the last symbol of an entry stands for. -/
inductive CodeMeans : Symbol → Action → Prop
  | left : CodeMeans "L" .left
  | right : CodeMeans "R" .right
  | stay : CodeMeans "S" .stay
  | halt : CodeMeans "STOP" .halt

/-- The rule that an entry stands for. Four symbols keep the state. -/
inductive Means (blank : Symbol) : Entry → Rule → Prop
  | four {v v' s w w' x : Symbol} {a : Action} (hv : ValueMeans blank v v')
      (hw : ValueMeans blank w w') (hx : CodeMeans x a) :
      Means blank ⟨v, s, w, x, none⟩ ⟨v', s, w', s, a⟩
  | five {v v' s w w' x y : Symbol} {a : Action} (hv : ValueMeans blank v v')
      (hw : ValueMeans blank w w') (hy : CodeMeans y a) :
      Means blank ⟨v, s, w, x, some y⟩ ⟨v', s, w', x, a⟩

end Entry

/-- The parts that write a program, in their order: the cells of its tape divided by commas, the
index of its head, its blank and its start state, with a colon between each two of these sections,
and then the entries for its rules. -/
inductive Program.HasParts : Program → List (List Char) → Prop
  | intro {cells : List Symbol} {head : Int} {blank start : Symbol} {entries : List Entry}
      {rules : List Rule} {tape body : List (List Char)} {index : List Char}
      (htape : Divided Grammar.CellText (· = [[',']]) cells tape)
      (hindex : Grammar.IndexText head index) (hhead : Representable head)
      (hblank : blank = "" ∨ blank.Plain) (hstart : start.Plain)
      (hbody : Grammar.BodyParts entries body)
      (hrules : List.Forall₂ (Entry.Means blank) entries rules) :
      HasParts ⟨cells, head, blank, start, rules⟩
        (tape ++ [':'] :: index :: [':'] :: blank.toList :: [':'] :: start.toList :: body)

namespace Grammar

variable {cs rest text : List Char} {parts : List (List Char)}

/-! ## The body -/

theorem sound_body : body.optional.Sound fun o => BodyParts (o.getD []) := by
  have hcolon : ((colon.seqRight entries.optional).map fun es => es.getD []).Sound BodyParts := by
    refine (((Reader.sound_literal [':']).seq sound_entries.optional).map
      (Q := fun o => BodyParts (o.getD [])) ?_).map fun _ _ h => h
    rintro ⟨⟨⟩, o⟩ _ ⟨_, parts, rfl, hes, rfl⟩
    cases o with
    | none =>
      cases hes
      exact .colon
    | some es => exact .entries hes
  have hlines : (lineBreaks.seqRight entries).Sound BodyParts := by
    refine (sound_lineBreaks.seq sound_entries).map ?_
    rintro ⟨⟨⟩, es⟩ _ ⟨ends, parts, hends, hes, rfl⟩
    exact .lines hends hes
  refine (hcolon.orElse hlines).optional.mono ?_
  rintro (_ | es) parts h
  · cases h
    exact .nothing
  · exact h

/-- Entries on lines of their own start with no further end of a line. -/
theorem noBreak_entries {es : List Entry} (hes : EntriesParts es parts)
    (htext : Spaced parts text) :
    NoBreak text := by
  obtain ⟨e, pad, part, text', he, hpad, rfl⟩ := hes.exists_item htext
  rw [NoBreak, skipPadding_append hpad]
  exact he.noBreak

/-- The body is read up to the end of the text, and it is missing if there is none. -/
theorem exists_reads_body {es : List Entry} (h : BodyParts es parts) (htext : Spaced parts text) :
    ∃ o : Option (List Entry), o.getD [] = es ∧ body.optional.Reads text o [] := by
  have hcolon : ∀ {text tail : List Char} {o : Option (List Entry)}, Spaced [[':']] text →
      entries.optional.Reads tail o [] → body.Reads (text ++ tail) (o.getD []) [] := by
    intro text tail o htext ho
    have hreads : colon.Reads (text ++ tail) () tail := Reader.reads_literal (by decide) htext
    exact (Reader.reads_map.mpr ⟨o, rfl, hreads.seqRight ho⟩).orElse
  cases h with
  | nothing =>
    cases htext with
    | nil hpad =>
      have hrefuses : body.Refuses (text ++ []) := by
        rw [Reader.Refuses, skipPadding_append hpad]
        rfl
      have hreads := (Reader.reads_append_pad hpad).mp hrefuses.optional
      rw [List.append_nil] at hreads
      exact ⟨none, rfl, hreads⟩
  | colon =>
    have hnone : entries.Refuses [] := rfl
    have hreads := hcolon htext hnone.optional
    rw [List.append_nil] at hreads
    exact ⟨some [], rfl, hreads.optional⟩
  | @entries es parts hes =>
    obtain ⟨front, back, hfront, hback, rfl⟩ := htext.exists_front
    exact ⟨some es, rfl, (hcolon hfront (reads_entries hes hback).optional).optional⟩
  | @lines es ends parts hends hes =>
    obtain ⟨front, back, hfront, hback, rfl⟩ := htext.exists_of_append
    have hrefuses : colon.Refuses (front ++ back) := hends.refuses hfront (by decide)
    have hreads := reads_lineBreaks hends hfront (noBreak_entries hes hback)
    exact ⟨some es, rfl, (hrefuses.seqRight.map.orElse
      (hreads.seqRight (reads_entries hes hback))).optional⟩

/-! ## Programs -/

theorem sound_finish : finish.Sound fun _ parts => ∀ part ∈ parts, LineEnd part := by
  have hending : ending.Sound fun _ parts => parts = [] := by
    intro cs u rest h
    simp only [ending, Reader.named, Reader.ending, Option.ite_none_right_eq_some] at h
    obtain ⟨rfl, h⟩ := h
    cases h
    exact ⟨[], [], rfl, .nil padding_nil, rfl⟩
  refine (sound_lineBreak.many.seq hending).map ?_
  rintro ⟨us, ⟨⟩⟩ _ ⟨parts, _, hus, rfl, rfl⟩
  rw [List.append_nil]
  exact lineEnd_of_repeated hus

/-- A section of the first line and its colon. -/
theorem sound_section {α : Type} {p : Reader Term α} {P : α → List (List Char) → Prop}
    (hp : p.Sound P) :
    (p.seqLeft colon).Sound fun a parts => ∃ ps, P a ps ∧ parts = ps ++ [[':']] := by
  refine (hp.seq (Reader.sound_literal [':'])).map ?_
  rintro ⟨a, ⟨⟩⟩ _ ⟨ps, _, hps, rfl, rfl⟩
  exact ⟨ps, hps, rfl⟩

/-- The parts of a source, those of its tape, its index and its body named apart. -/
structure Layout (source : Source) (tape : List (List Char)) (index : List Char)
    (body : List (List Char)) : Prop where
  tape : Divided CellText (· = [[',']]) source.cells tape
  index : IndexText (indexValue source.index) index
  blank : source.blank = "" ∨ source.blank.Plain
  start : source.start.Plain
  body : BodyParts source.entries body

theorem sound_program : program.Sound fun source parts => ∃ tape index body ends,
    Layout source tape index body ∧ (∀ part ∈ ends, LineEnd part) ∧
      parts = (tape ++ [':'] :: index :: [':'] :: source.blank.toList :: [':'] ::
        source.start.toList :: body) ++ ends := by
  have hstate : state.Sound (Reader.Alone fun s part => s.Plain ∧ part = s.toList) := by
    apply Reader.sound_alone
    intro cs s rest h
    obtain ⟨hcs, hs, -⟩ := read_symbol_iff.mp h
    exact ⟨s.toList, ⟨hs, rfl⟩, hcs⟩
  have hblank : blank.Sound (Reader.Alone CellText) := sound_symbolOrEmpty
  have hrest : (body.optional.seqLeft finish).Sound fun o parts => ∃ body ends,
      BodyParts (o.getD []) body ∧ (∀ part ∈ ends, LineEnd part) ∧ parts = body ++ ends := by
    refine (sound_body.seq sound_finish).map ?_
    rintro ⟨o, ⟨⟩⟩ _ ⟨body, ends, hbody, hends, rfl⟩
    exact ⟨body, ends, hbody, hends, rfl⟩
  refine Reader.Sound.named (((sound_section sound_tape).seq ((sound_section sound_index).seq
    ((sound_section hblank).seq (hstate.seq hrest)))).map ?_)
  rintro ⟨cells, i, blank, start, o⟩ _ ⟨_, _, ⟨tape, htape, rfl⟩, hparts, rfl⟩
  obtain ⟨_, _, ⟨_, ⟨index, hindex, rfl⟩, rfl⟩, hparts, rfl⟩ := hparts
  obtain ⟨_, _, ⟨_, ⟨_, ⟨hblank, rfl⟩, rfl⟩, rfl⟩, hparts, rfl⟩ := hparts
  obtain ⟨_, _, ⟨_, ⟨hstart, rfl⟩, rfl⟩, ⟨body, ends, hbody, hends, rfl⟩, rfl⟩ := hparts
  refine ⟨tape, index, body, ends, ⟨htape, hindex, hblank, hstart, hbody⟩, hends, ?_⟩
  simp

/-- Reading a program ends with the text. -/
theorem rest_of_read_program {source : Source} (h : program.read cs = some (source, rest)) :
    rest = [] := by
  obtain ⟨⟨cells, i, blank, start, o⟩, hread, -⟩ :=
    Reader.read_map_iff.mp (Reader.read_named_iff.mp h)
  obtain ⟨_, -, hread⟩ := Reader.read_seq_iff.mp hread
  obtain ⟨_, -, hread⟩ := Reader.read_seq_iff.mp hread
  obtain ⟨_, -, hread⟩ := Reader.read_seq_iff.mp hread
  obtain ⟨_, -, hread⟩ := Reader.read_seq_iff.mp hread
  obtain ⟨_, ⟨⟩, -, hread⟩ := Reader.read_seqLeft_iff.mp hread
  obtain ⟨⟨us, ⟨⟩⟩, hread, -⟩ := Reader.read_map_iff.mp hread
  obtain ⟨_, -, hread⟩ := Reader.read_seq_iff.mp hread
  simp only [ending, Reader.named, Reader.ending, Option.ite_none_right_eq_some, Option.some.injEq,
    Prod.mk.injEq] at hread
  exact hread.2.2.symm

theorem BodyParts.delimited {es : List Entry} (h : BodyParts es parts) (htext : Spaced parts text) :
    Delimited (skipPadding text) := by
  cases h with
  | nothing =>
    cases htext with
    | nil hpad =>
      have hskip : skipPadding (text ++ []) = [] := skipPadding_append hpad
      rw [List.append_nil] at hskip
      rw [hskip]
      exact delimited_nil
  | colon => exact delimited_of_colon htext
  | entries _ => exact delimited_of_colon htext
  | lines hends _ =>
    obtain ⟨c, part, parts', rfl, hc⟩ := hends.front
    have hdelimited := htext.delimited (delimiter_of_break hc) []
    rwa [List.append_nil] at hdelimited

/-- A section of the first line is read with its colon. -/
theorem exists_reads_section {α : Type} {p : Reader Term α} {a : α} (hp : p.Reads cs a rest)
    (hrest : Spaced ([':'] :: parts) rest) :
    ∃ tail, Spaced parts tail ∧ (p.seqLeft colon).Reads cs a tail := by
  obtain ⟨front, tail, hfront, htail, rfl⟩ := hrest.exists_front
  have hcolon : colon.Reads (front ++ tail) () tail := Reader.reads_literal (by decide) hfront
  exact ⟨tail, htail, hp.seqLeft hcolon⟩

theorem exists_reads_program (source : Source) {tape body : List (List Char)} {index : List Char}
    {n : Int} (htape : Divided CellText (· = [[',']]) source.cells tape)
    (hindex : IndexText n index)
    (hblank : source.blank = "" ∨ source.blank.Plain) (hstart : source.start.Plain)
    (hbody : BodyParts source.entries body)
    (htext : Spaced (tape ++ [':'] :: index :: [':'] :: source.blank.toList :: [':'] ::
      source.start.toList :: body) text) :
    ∃ i, indexValue i = n ∧ program.Reads text { source with index := i } [] := by
  obtain ⟨front, t₁, hfront, h₁, rfl⟩ := htext.exists_of_append
  obtain ⟨t₂, h₂, hreadTape⟩ := exists_reads_section (reads_tape htape hfront h₁) h₁
  obtain ⟨pad₂, t₃, hpad₂, h₃, rfl⟩ := h₂.exists_of_cons
  obtain ⟨i, hi, hread⟩ := exists_reads_index hindex (delimited_of_colon h₃)
  obtain ⟨t₄, h₄, hreadIndex⟩ := exists_reads_section ((Reader.reads_pad_append hpad₂).mpr hread) h₃
  obtain ⟨pad₄, t₅, hpad₄, h₅, rfl⟩ := h₄.exists_of_cons
  have hread := reads_symbolOrEmpty hblank (delimited_of_colon h₅)
  obtain ⟨t₆, h₆, hreadBlank⟩ := exists_reads_section ((Reader.reads_pad_append hpad₄).mpr hread) h₅
  obtain ⟨pad₆, t₇, hpad₆, h₇, rfl⟩ := h₆.exists_of_cons
  have hread := reads_symbol hstart (ends_of_delimited (hbody.delimited h₇))
  have hreadStart : state.Reads (pad₆ ++ (source.start.toList ++ t₇)) source.start t₇ :=
    (Reader.reads_pad_append hpad₆).mpr hread
  obtain ⟨o, ho, hreadBody⟩ := exists_reads_body hbody h₇
  have hfinish : finish.Reads [] () [] := ⟨[], rfl, rfl⟩
  refine ⟨i, hi, Reader.reads_named.mpr (Reader.reads_map.mpr
    ⟨(source.cells, i, source.blank, source.start, o), by rw [← ho], ?_⟩)⟩
  exact Reader.reads_seq.mpr ⟨_, hreadTape, Reader.reads_seq.mpr ⟨_, hreadIndex,
    Reader.reads_seq.mpr ⟨_, hreadBlank, Reader.reads_seq.mpr
      ⟨_, hreadStart, hreadBody.seqLeft hfinish⟩⟩⟩⟩

end Grammar

/-! ## White space at the ends -/

namespace Text

variable {text core a b : List Char}

/-- A text that neither starts nor ends with white space. -/
structure Trimmed (cs : List Char) : Prop where
  front : ∀ c ∈ cs.head?, isSpace c = false
  back : ∀ c ∈ cs.getLast?, isSpace c = false

/-- The text is `core` with white space at its two ends. -/
def TrimsTo (text core : List Char) : Prop :=
  Trimmed core ∧
    ∃ front back, text = front ++ (core ++ back) ∧ ∀ c ∈ front ++ back, isSpace c = true

theorem Trimmed.eq_nil_of_append (h : Trimmed (a ++ b)) (hb : ∀ c ∈ b, isSpace c = true) :
    b = [] := by
  by_contra hne
  have hlast := List.getLast?_eq_some_getLast hne
  have hspace := h.back (b.getLast hne) (by rw [List.getLast?_append_of_ne_nil _ hne, hlast]; rfl)
  rw [hb _ (List.getLast_mem hne)] at hspace
  cases hspace

/-- Nothing is skipped in front of a trimmed text. -/
theorem Trimmed.skipPadding (h : Trimmed core) : skipPadding core = core := by
  cases core with
  | nil => rfl
  | cons c core => exact skipPadding_cons (not_isPadding (h.front c rfl))

theorem trimsTo_trim (text : List Char) : TrimsTo text (trim text) := by
  have hhead : ∀ cs : List Char, ∀ c ∈ (cs.dropWhile isSpace).head?, isSpace c = false := by
    intro cs c hc
    have hnot := List.head?_dropWhile_not isSpace cs
    rw [hc] at hnot
    exact hnot
  have hspace : ∀ {cs : List Char} {c : Char}, c ∈ cs.takeWhile isSpace → isSpace c = true :=
    fun hc => List.mem_takeWhile_imp hc
  -- The text behind its leading white space, and what is cut off at its end.
  have hfront := List.takeWhile_append_dropWhile (p := isSpace) (l := text)
  have hback := congrArg List.reverse
    (List.takeWhile_append_dropWhile (p := isSpace) (l := (text.dropWhile isSpace).reverse))
  rw [List.reverse_append, List.reverse_reverse] at hback
  refine ⟨⟨fun c hc => ?_, fun c hc => ?_⟩, text.takeWhile isSpace,
    ((text.dropWhile isSpace).reverse.takeWhile isSpace).reverse, ?_, fun c hc => ?_⟩
  · refine hhead text c ?_
    rw [← hback]
    exact List.mem_head?_append_of_mem_head? hc
  · rw [trim, List.getLast?_reverse] at hc
    exact hhead _ c hc
  · rw [trim, hback, hfront]
  · rcases List.mem_append.mp hc with hc | hc
    · exact hspace hc
    · exact hspace (List.mem_reverse.mp hc)

theorem dropWhile_isSpace (h : ∀ c ∈ a.head?, isSpace c = false) : a.dropWhile isSpace = a := by
  cases a with
  | nil => rfl
  | cons c cs => simp [h c rfl]

/-- White space behind a text is cut off, and nothing else. -/
theorem trim_append (ha : Trimmed a) (hane : a ≠ []) (hb : ∀ c ∈ b, isSpace c = true) :
    trim (a ++ b) = a := by
  have hfront : (a ++ b).dropWhile isSpace = a ++ b := by
    apply dropWhile_isSpace
    rw [List.head?_append_of_ne_nil _ hane]
    exact ha.front
  have hback : (b.reverse ++ a.reverse).dropWhile isSpace = a.reverse := by
    rw [List.dropWhile_append_of_pos fun c hc => hb c (List.mem_reverse.mp hc)]
    apply dropWhile_isSpace
    rw [List.head?_reverse]
    exact ha.back
  rw [trim, hfront, List.reverse_append, hback, List.reverse_reverse]

theorem trim_eq_iff : trim text = core ↔ TrimsTo text core := by
  constructor
  · rintro rfl
    exact trimsTo_trim text
  · rintro ⟨hcore, front, back, rfl, hspace⟩
    have hfront : trim (front ++ (core ++ back)) = trim (core ++ back) := by
      rw [trim, List.dropWhile_append_of_pos fun c hc => hspace c (List.mem_append_left _ hc), trim]
    have hback := fun c hc => hspace c (List.mem_append_right front hc)
    rw [hfront]
    cases core with
    | nil =>
      have hnil := List.dropWhile_eq_nil_iff.mpr hback
      rw [trim, List.nil_append, hnil]
      rfl
    | cons c core => exact trim_append hcore (List.cons_ne_nil _ _) hback

end Text

/-! ## The meaning of a source -/

namespace Entry

variable {blank v v' x : Symbol} {a : Action} {e : Entry} {r : Rule}

theorem valueMeans_iff : ValueMeans blank v v' ↔ resolve blank v = v' := by
  rw [resolve, blankSign]
  constructor
  · rintro (_ | hv)
    · exact if_pos rfl
    · exact if_neg hv
  · rintro rfl
    by_cases hv : v = "DEF"
    · rw [if_pos hv, hv]
      exact .sign
    · rw [if_neg hv]
      exact .plain hv

theorem codeMeans_iff : CodeMeans x a ↔ Action.ofCode? x = some a := by
  constructor
  · rintro (_ | _ | _ | _) <;> rfl
  · intro h
    have hcode : a.code = x := by simpa using List.find?_some h
    subst hcode
    cases a <;> constructor

/-- The action is looked up after the state has been found. -/
theorem toRule_eq_ok : toRule blank e = .ok r ↔ Means blank e r := by
  obtain ⟨v, s, w, x, y⟩ := e
  constructor
  · intro h
    cases y with
    | none =>
      simp only [toRule] at h
      split at h
      · rename_i a ha
        cases h
        exact .four (valueMeans_iff.mpr rfl) (valueMeans_iff.mpr rfl) (codeMeans_iff.mpr ha)
      · cases h
    | some y =>
      simp only [toRule] at h
      split at h
      · rename_i a ha
        cases h
        exact .five (valueMeans_iff.mpr rfl) (valueMeans_iff.mpr rfl) (codeMeans_iff.mpr ha)
      · cases h
  · intro h
    cases h with
    | four hv hw hx =>
      rw [valueMeans_iff] at hv hw
      simp only [toRule, codeMeans_iff.mp hx, hv, hw]
    | five hv hw hy =>
      rw [valueMeans_iff] at hv hw
      simp only [toRule, codeMeans_iff.mp hy, hv, hw]

end Entry

namespace Program

variable {t : String} {p : Program}

theorem readText_eq_ok {α : Type} {reader : Reader Term α} {a : α} {text : List Char} :
    readText reader text = .ok a ↔ ∃ rest, reader.read text = some (a, rest) := by
  rw [readText, Reader.parse]
  cases reader.read text with
  | none => simp
  | some r => simp [Prod.ext_iff]

theorem resolve_eq_ok {i : WrittenIndex} {n : Int} {text : List Char} :
    i.resolve text = .ok n ↔ Representable i.value ∧ n = i.value := by
  rw [WrittenIndex.resolve]
  by_cases hvalue : Representable i.value
  · simp [hvalue, eq_comm]
  · simp [hvalue]

/-- Going on from the head's index, which is `0` where none is written. -/
theorem head_bind_eq_ok {i : Option WrittenIndex} {text : List Char}
    {f : Int → Except Error Program} :
    (match i with
      | some i => i.resolve text >>= f
      | none => pure 0 >>= f) = .ok p ↔
        Representable (Grammar.indexValue i) ∧ f (Grammar.indexValue i) = .ok p := by
  cases i with
  | none =>
    have hzero : Representable 0 := by decide
    exact ⟨fun h => ⟨hzero, h⟩, fun h => h.2⟩
  | some i =>
    simp only [bind_eq_ok, resolve_eq_ok]
    constructor
    · rintro ⟨_, ⟨hvalue, rfl⟩, h⟩
      exact ⟨hvalue, h⟩
    · rintro ⟨hvalue, h⟩
      exact ⟨_, ⟨hvalue, rfl⟩, h⟩

/-- What a text means, once it has been read. -/
theorem parse_eq_ok :
    parse t = .ok p ↔ ∃ source rest,
      Grammar.program.read (trim t.toList) = some (source, rest) ∧
        Representable (Grammar.indexValue source.index) ∧
        ∃ rules, List.Forall₂ (Entry.Means source.blank) source.entries rules ∧
          p = ⟨source.cells, Grammar.indexValue source.index, source.blank, source.start,
            rules⟩ := by
  constructor
  · intro h
    obtain ⟨source, hsource, h⟩ := bind_eq_ok.mp h
    obtain ⟨hrepresentable, h⟩ := head_bind_eq_ok.mp h
    obtain ⟨rules, hrules, h⟩ := bind_eq_ok.mp h
    cases h
    obtain ⟨rest, hread⟩ := readText_eq_ok.mp hsource
    refine ⟨source, rest, hread, hrepresentable, rules, ?_, rfl⟩
    exact (mapM_eq_ok.mp hrules).imp fun _ _ => Entry.toRule_eq_ok.mp
  · rintro ⟨source, rest, hread, hrepresentable, rules, hrules, rfl⟩
    refine bind_eq_ok.mpr ⟨source, readText_eq_ok.mpr ⟨rest, hread⟩,
      head_bind_eq_ok.mpr ⟨hrepresentable, bind_eq_ok.mpr ⟨rules, ?_, rfl⟩⟩⟩
    exact mapM_eq_ok.mpr (hrules.imp fun _ _ => Entry.toRule_eq_ok.mpr)

/-- A text that consists of the parts of a program is read as that program. -/
theorem parse_of_hasParts {core : List Char} {parts : List (List Char)}
    (htrims : TrimsTo t.toList core) (htext : Spaced parts core) (hparts : p.HasParts parts) :
    parse t = .ok p := by
  cases hparts with
  | @intro cells head blank start entries rules tape body index htape hindex hhead hblank hstart
      hbody hrules =>
    obtain ⟨i, rfl, rest, hread, -⟩ := Grammar.exists_reads_program
      ⟨cells, none, blank, start, entries⟩ htape hindex hblank hstart hbody htext
    rw [htrims.1.skipPadding, ← trim_eq_iff.mpr htrims] at hread
    exact parse_eq_ok.mpr ⟨_, rest, hread, hhead, rules, hrules, rfl⟩

/-- A text is read as a program exactly if it consists of the parts of that program, once the white
space at its ends is cut off. -/
theorem parse_eq_ok_iff (t : String) (p : Program) :
    parse t = .ok p ↔
      ∃ core parts, TrimsTo t.toList core ∧ Spaced parts core ∧ p.HasParts parts := by
  rw [parse_eq_ok]
  constructor
  · rintro ⟨source, rest, hread, hrepresentable, rules, hrules, rfl⟩
    have htrims := trimsTo_trim t.toList
    obtain rfl := Grammar.rest_of_read_program hread
    obtain ⟨_, text, ⟨tape, index, body, ends, hlayout, hends, rfl⟩, htext, hcore⟩ :=
      Grammar.sound_program hread
    rw [List.append_nil] at hcore
    obtain ⟨front, back, hfront, hback, rfl⟩ := htext.exists_of_append
    -- The line ends before the end of the text have been cut off with the white space there.
    have hspace : ∀ c ∈ back, isSpace c = true := by
      intro c hc
      rcases Grammar.mem_lineEnds hends hback hc with (rfl | rfl) | rfl | rfl <;> decide
    rw [hcore] at htrims
    obtain rfl := htrims.1.eq_nil_of_append hspace
    rw [List.append_nil] at htrims
    exact ⟨front, _, htrims, hfront, .intro hlayout.tape hlayout.index hrepresentable hlayout.blank
      hlayout.start hlayout.body hrules⟩
  · rintro ⟨core, parts, htrims, htext, hparts⟩
    exact parse_eq_ok.mp (parse_of_hasParts htrims htext hparts)

end Program

end TapeCompiler
