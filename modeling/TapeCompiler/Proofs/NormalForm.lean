import TapeCompiler.Proofs.RoundTrip

/-!
# Normal forms of written programs

Many texts write one program. Reading a text and writing the program on one line again picks one of
them, its normal form (`Program.normalize`): all texts of a program have the same normal form, no
text of another program has it, and it is one of these texts itself.

Not every text has a normal form, since symbols are read and written by two classes of characters.
A text keeps two symbols apart by spaces, tabs and line ends alone, while no white space at all may
stand in a symbol that is to be written. What is read is `Program.Readable`, and among the readable
programs the encodable ones are those without white space in any symbol
(`Program.Readable.encodable_iff`). Everything else that keeps a program from being written, such as
a missing cell, a comma in a symbol or a value that looks like the sign for the blank, is never
read.
-/

namespace TapeCompiler

open Text

/-! ## Symbols -/

namespace Symbol

variable {s : Symbol}

/-- No white space stands in the symbol. -/
def Spaceless (s : Symbol) : Prop := ∀ c ∈ s.toList, isSpace c = false

theorem Token.spaceless (h : Token s) : Spaceless s := fun c hc => (h.2 c hc).1

theorem Plain.token (h : Plain s) (hs : Spaceless s) : Token s := by
  refine ⟨h.1, fun c hc => ⟨hs c hc, ?_, ?_⟩⟩
  · rintro rfl
    exact h.2 _ hc (by decide)
  · rintro rfl
    exact h.2 _ hc (by decide)

theorem spaceless_of_tokenOrEmpty (h : s = "" ∨ Token s) : Spaceless s := by
  rcases h with rfl | h
  · exact fun c hc => absurd hc (by simp)
  · exact h.spaceless

theorem tokenOrEmpty_of_spaceless (h : s = "" ∨ Plain s) (hs : Spaceless s) : s = "" ∨ Token s :=
  h.imp_right fun h => h.token hs

end Symbol

/-- The symbols of a rule. -/
def Rule.symbols (r : Rule) : List Symbol := [r.value, r.state, r.write, r.next]

/-- The symbols of a program. -/
def Program.symbols (p : Program) : List Symbol :=
  p.cells ++ p.blank :: p.start :: p.rules.flatMap Rule.symbols

/-! ## What is read -/

/-- A value as it may be read: the blank, or a symbol that is not the sign for the blank. -/
def Rule.ValueReadable (blank value : Symbol) : Prop :=
  value = blank ∨ Symbol.Plain value ∧ value ≠ blankSign

/-- A rule as it may be read in a program with the given blank. -/
structure Rule.Readable (blank : Symbol) (r : Rule) : Prop where
  value : ValueReadable blank r.value
  state : Symbol.Plain r.state
  write : ValueReadable blank r.write
  next : Symbol.Plain r.next

/-- A program as it may be read. -/
structure Program.Readable (p : Program) : Prop where
  cells_ne_nil : p.cells ≠ []
  cells : ∀ s ∈ p.cells, s = "" ∨ s.Plain
  head : Representable p.head
  blank : p.blank = "" ∨ p.blank.Plain
  start : p.start.Plain
  rules : ∀ r ∈ p.rules, r.Readable p.blank

theorem Text.Divided.ne_nil {α : Type} {Item : α → List Char → Prop}
    {Divider : List (List Char) → Prop} {as : List α} {parts : List (List Char)}
    (h : Divided Item Divider as parts) : as ≠ [] := by
  cases h <;> exact List.cons_ne_nil _ _

theorem Text.Divided.exists_of_mem {α : Type} {Item : α → List Char → Prop}
    {Divider : List (List Char) → Prop} {as : List α} {parts : List (List Char)} {a : α}
    (h : Divided Item Divider as parts) (ha : a ∈ as) : ∃ part, Item a part := by
  induction h with
  | one hitem =>
    obtain rfl := List.mem_singleton.mp ha
    exact ⟨_, hitem⟩
  | cons hitem _ _ ih =>
    rcases List.mem_cons.mp ha with rfl | ha
    · exact ⟨_, hitem⟩
    · exact ih ha

theorem Grammar.BodyParts.exists_of_mem {es : List Entry} {parts : List (List Char)} {e : Entry}
    (h : BodyParts es parts) (he : e ∈ es) : ∃ text, EntryText e text := by
  cases h with
  | nothing => cases he
  | colon => cases he
  | entries hes => exact hes.exists_of_mem he
  | lines _ hes => exact hes.exists_of_mem he

namespace Entry

variable {blank v v' : Symbol} {e : Entry} {r : Rule} {text : List Char}

theorem ValueMeans.readable (h : ValueMeans blank v v') (hv : v.Plain) :
    Rule.ValueReadable blank v' := by
  cases h with
  | sign => exact .inl rfl
  | plain hne => exact .inr ⟨hv, hne⟩

theorem Means.readable (h : Means blank e r) (htext : Grammar.EntryText e text) :
    r.Readable blank := by
  cases h with
  | four hvalue hwrite _ =>
    cases htext with
    | four hv _ hs _ _ _ hw _ _ => exact ⟨hvalue.readable hv, hs, hwrite.readable hw, hs⟩
  | five hvalue hwrite _ =>
    -- An entry of five symbols is one of four with the code of the action behind it.
    cases htext with
    | five htext _ _ =>
      cases htext with
      | four hv _ hs _ _ _ hw _ hx => exact ⟨hvalue.readable hv, hs, hwrite.readable hw, hx⟩

/-- The rules that entries stand for. -/
theorem readable_of_means {es : List Entry} {rules : List Rule}
    (h : List.Forall₂ (Means blank) es rules) (hes : ∀ e ∈ es, ∃ text, Grammar.EntryText e text) :
    ∀ r ∈ rules, r.Readable blank := by
  induction h with
  | nil => simp
  | cons hmeans _ ih =>
    obtain ⟨text, htext⟩ := hes _ List.mem_cons_self
    intro r hr
    rcases List.mem_cons.mp hr with rfl | hr
    · exact hmeans.readable htext
    · exact ih (fun e he => hes e (List.mem_cons_of_mem _ he)) r hr

end Entry

namespace Program

variable {t line : String} {p : Program}

theorem HasParts.readable {parts : List (List Char)} (h : p.HasParts parts) : p.Readable := by
  cases h with
  | intro htape _ hhead hblank hstart hbody hrules =>
    refine ⟨htape.ne_nil, fun s hs => ?_, hhead, hblank, hstart, ?_⟩
    · obtain ⟨part, hpart⟩ := htape.exists_of_mem hs
      exact hpart.1
    · exact Entry.readable_of_means hrules fun e => hbody.exists_of_mem

theorem readable_of_parse (h : parse t = .ok p) : p.Readable := by
  obtain ⟨_, _, -, -, hparts⟩ := (parse_eq_ok_iff t p).mp h
  exact hparts.readable

end Program

/-! ## What can be written of it -/

namespace Rule

variable {blank value : Symbol} {r : Rule}

theorem ValueReadable.encodable (h : ValueReadable blank value) (hvalue : value.Spaceless) :
    ValueEncodable blank value :=
  h.imp_right fun h => ⟨h.1.token hvalue, h.2⟩

/-- A value that is written by the sign for the blank has the white space of the blank. -/
theorem ValueEncodable.spaceless (h : ValueEncodable blank value) (hblank : blank.Spaceless) :
    value.Spaceless := by
  rcases h with rfl | h
  · exact hblank
  · exact h.1.spaceless

theorem Readable.encodable_iff (h : r.Readable blank) (hblank : blank.Spaceless) :
    r.Encodable blank ↔ ∀ s ∈ r.symbols, s.Spaceless := by
  simp only [symbols, List.forall_mem_cons, List.not_mem_nil, false_imp_iff, implies_true, and_true]
  constructor
  · intro hr
    exact ⟨hr.value.spaceless hblank, hr.state.spaceless, hr.write.spaceless hblank,
      hr.next.spaceless⟩
  · rintro ⟨hvalue, hstate, hwrite, hnext⟩
    exact ⟨h.value.encodable hvalue, h.state.token hstate, h.write.encodable hwrite,
      h.next.token hnext⟩

end Rule

namespace Program

variable {t line : String} {p : Program}

/-- White space is all that keeps a program that was read from being written. -/
theorem Readable.encodable_iff (h : p.Readable) :
    p.Encodable ↔ ∀ s ∈ p.symbols, s.Spaceless := by
  simp only [symbols, List.forall_mem_append, List.forall_mem_cons, List.forall_mem_flatMap]
  constructor
  · intro hp
    have hblank := Symbol.spaceless_of_tokenOrEmpty hp.blank
    exact ⟨fun s hs => Symbol.spaceless_of_tokenOrEmpty (hp.cells s hs), hblank,
      hp.start.spaceless, fun r hr => ((h.rules r hr).encodable_iff hblank).mp (hp.rules r hr)⟩
  · rintro ⟨hcells, hblank, hstart, hrules⟩
    refine ⟨⟨h.cells_ne_nil, fun s hs => ?_, ?_, h.start.token hstart⟩, fun r hr => ?_⟩
    · exact Symbol.tokenOrEmpty_of_spaceless (h.cells s hs) (hcells s hs)
    · exact Symbol.tokenOrEmpty_of_spaceless h.blank hblank
    · exact ((h.rules r hr).encodable_iff hblank).mpr (hrules r hr)

/-! ## Normal forms -/

/-- The normal form of a text: what it says, written on one line. -/
def normalize (t : String) : Except Error String := do
  let p ← parse t
  p.encode

/-- The texts with the written form of a program for their normal form are those that are read as
this program. -/
theorem normalize_eq_ok_iff (hhead : Representable p.head) (hline : p.encode = .ok line) :
    normalize t = .ok line ↔ parse t = .ok p := by
  rw [normalize, bind_eq_ok]
  constructor
  · rintro ⟨p', hp', hline'⟩
    have hread := parse_encode hhead hline
    rw [parse_encode (readable_of_parse hp').head hline'] at hread
    rw [hp', hread]
  · intro ht
    exact ⟨p, ht, hline⟩

/-- A program that was read has a cell, and it can be written exactly if no white space stands in
its symbols. Both written forms are then read as the program, and the one on one line is the normal
form of every text of the program, itself included, and of no other text. -/
theorem parse_has_normalForm (t : String) (p : Program) (h : parse t = .ok p) :
    p.cells ≠ [] ∧ ((∃ line, p.encode = .ok line) ↔ ∀ s ∈ p.symbols, s.Spaceless) ∧
      ∀ line, p.encode = .ok line →
        parse line = .ok p ∧ (∃ lines, p.encodeLines = .ok lines ∧ parse lines = .ok p) ∧
          normalize line = .ok line ∧ ∀ t', normalize t' = .ok line ↔ parse t' = .ok p := by
  have hp := readable_of_parse h
  refine ⟨hp.cells_ne_nil, ?_, fun line hline => ?_⟩
  · rw [← hp.encodable_iff]
    simp [encode_eq_ok]
  · have hlines := encodeLines_eq_ok.mpr ⟨(encode_eq_ok.mp hline).1, rfl⟩
    have hread := parse_encode hp.head hline
    exact ⟨hread, ⟨_, hlines, parse_encodeLines hp.head hlines⟩,
      (normalize_eq_ok_iff hp.head hline).mpr hread, fun t' => normalize_eq_ok_iff hp.head hline⟩

/-- A text with padding, both arrows, both separators of entries, a long numeral and an empty
blank. -/
def padded : String := " DEF ,, a\t: -007 :: q\r\n a q --> DEF L, DEF q -> a p STOP\n\n"

/-- The program of `padded`. -/
def unpadded : Program :=
  ⟨["DEF", "", "a"], -7, "", "q", [⟨"a", "q", "", "q", .left⟩, ⟨"", "q", "a", "p", .halt⟩]⟩

/-- A program whose blank holds a space that does not keep symbols apart. -/
def spacedBlank : Program := ⟨["1"], 0, "_\u00a0_", "q", []⟩

theorem parse_has_normalForm_padded :
    parse padded = .ok unpadded ∧
      normalize padded = .ok "DEF,,a:-7::q:a q -> DEF q L,DEF q -> a p STOP" ∧
      normalize "DEF,,a:-7::q:a q -> DEF q L,DEF q -> a p STOP" =
        .ok "DEF,,a:-7::q:a q -> DEF q L,DEF q -> a p STOP" ∧
      parse "1:0:_\u00a0_:q" = .ok spacedBlank ∧ ¬ ∃ line, spacedBlank.encode = .ok line := by
  have hpadded : parse padded = .ok unpadded := by decide +kernel
  have hline : unpadded.encode = .ok "DEF,,a:-7::q:a q -> DEF q L,DEF q -> a p STOP" := by
    decide +kernel
  have hspaced : parse "1:0:_\u00a0_:q" = .ok spacedBlank := by decide +kernel
  obtain ⟨-, -, hnormal⟩ := parse_has_normalForm padded unpadded hpadded
  obtain ⟨-, -, hfixed, htexts⟩ := hnormal _ hline
  obtain ⟨-, hencode, -⟩ := parse_has_normalForm _ spacedBlank hspaced
  refine ⟨hpadded, (htexts padded).mpr hpadded, hfixed, hspaced, fun h => ?_⟩
  have hblank : Symbol.Spaceless "_\u00a0_" := hencode.mp h _ (by simp [symbols, spacedBlank])
  exact absurd (hblank '\u00a0' (by decide)) (by decide)

end Program

end TapeCompiler
