import TapeCompiler.Proofs.Scalars

/-!
# Documents of programs

A written document is read back as the program it was written for. Lists and records are written over
several lines, and what separates their entries is space, commas and brackets. A scanner for entries
therefore takes a block entry by entry; for the fields of a record each entry fills in a draft
(`Json.Fills`), and the draft that is filled in last has all fields.

Strings may hold any characters. Only the index of the head is limited, to 64 bits.
-/

namespace TapeCompiler

namespace Json

variable {α σ : Type} {rest : List Char}

/-! ## Blocks -/

/-- A line end, and the space in front of what stands on the next line. -/
def lineAt (depth : Nat) : List Char := '\n' :: (indent depth).toList

theorem isSpace_lineAt (depth : Nat) : ∀ c ∈ lineAt depth, isSpace c = true := by
  intro c hc
  simp only [lineAt, indent, String.toList_ofList, List.mem_cons, List.mem_replicate] at hc
  rcases hc with rfl | ⟨-, rfl⟩ <;> decide

/-- The entries of a block behind the first, and its end. -/
def further (depth : Nat) (entries : List String) (closing : Char) : List Char :=
  entries.flatMap (fun e => ',' :: (lineAt (depth + 1) ++ e.toList)) ++ (lineAt depth ++ [closing])

theorem further_cons (depth : Nat) (e : String) (entries : List String) (closing : Char) :
    further depth (e :: entries) closing =
      ',' :: (lineAt (depth + 1) ++ (e.toList ++ further depth entries closing)) := by
  simp [further]

theorem closes_further (depth : Nat) (entries : List String) (closing : Char) (rest : List Char) :
    Closes (further depth entries closing ++ rest) := by
  cases entries with
  | nil =>
    rintro c ⟨⟩
    exact .inr rfl
  | cons e entries =>
    rintro c ⟨⟩
    exact .inl rfl

theorem length_lt_further (depth : Nat) (entries : List String) (closing : Char) :
    entries.length < (further depth entries closing).length := by
  induction entries with
  | nil => simp [further]
  | cons e entries ih =>
    rw [further_cons]
    simp only [List.length_append, List.length_cons]
    omega

theorem toList_writeBlock (opening closing : Char) (depth : Nat) (e : String)
    (entries : List String) :
    (writeBlock (.singleton opening) (.singleton closing) depth (e :: entries)).toList =
      opening :: (lineAt (depth + 1) ++ (e.toList ++ further depth entries closing)) := by
  have hseparator : (",\n" : String).toList = [',', '\n'] := rfl
  simp [writeBlock, String.toList_intercalate, hseparator, Text.intercalate_eq_flatMap, further,
    lineAt, List.flatMap_map, Function.comp_def]

/-! ## Lists -/

theorem scanNext_first {text : List Char} (h : Opens text) (depth : Nat) (rest : List Char) :
    scanNext true (lineAt depth ++ (text ++ rest)) = .ok (some (text ++ rest)) := by
  obtain ⟨c, cs, rfl, hspace, hend⟩ := h
  simp [scanNext, skipSpace_lead (isSpace_lineAt depth) hspace]

theorem scanNext_further {text : List Char} (h : Opens text) (depth : Nat) (rest : List Char) :
    scanNext false (',' :: (lineAt depth ++ (text ++ rest))) = .ok (some (text ++ rest)) := by
  obtain ⟨c, cs, rfl, hspace, hend⟩ := h
  have hcomma : skipSpace (',' :: (lineAt depth ++ c :: (cs ++ rest))) =
      ',' :: (lineAt depth ++ c :: (cs ++ rest)) := rfl
  -- by this fact the text is not taken for the end of the list behind a comma
  have hopen : ∀ r, c :: (cs ++ rest) = ']' :: r → False := fun r heq => hend (List.cons.inj heq).1
  simp [scanNext, hcomma, skipSpace_lead (isSpace_lineAt depth) hspace]

theorem scanEntries_end (entry : Scanner α) (rounds : Nat) (first : Bool) {cs : List Char}
    (hend : skipSpace cs = ']' :: rest) :
    scanEntries entry (rounds + 1) first cs = .ok ([], rest) := by
  simp [scanEntries, scanNext, scanListEnd, hend, bind, Except.bind, pure, Except.pure]

/-- An entry is taken, and then the others. -/
theorem scanEntries_of_next {entry : Scanner α} {text : List Char} {a : α} {first : Bool}
    {cs : List Char} (hnext : scanNext first cs = .ok (some (text ++ rest)))
    (ha : Takes entry text a) (hrest : Closes rest) (rounds : Nat) :
    scanEntries entry (rounds + 1) first cs =
      (scanEntries entry rounds false rest).map fun (as, rest) => (a :: as, rest) := by
  have htake : entry (text ++ rest) = .ok (a, rest) := ha.takes [] rest (by simp) hrest
  simp only [scanEntries, hnext, htake, bind, Except.bind, pure, Except.pure]
  cases scanEntries entry rounds false rest <;> rfl

/-- The entries of a written list are taken one by one. -/
theorem scanEntries_further {entry : Scanner α} {write : α → String} {as : List α}
    (h : ∀ a ∈ as, Takes entry (write a).toList a) (depth : Nat) {rounds : Nat}
    (hrounds : as.length < rounds) (rest : List Char) :
    scanEntries entry rounds false (further depth (as.map write) ']' ++ rest) = .ok (as, rest) := by
  obtain ⟨rounds, rfl⟩ := Nat.exists_eq_add_one_of_ne_zero (Nat.ne_zero_of_lt hrounds)
  induction as generalizing rounds with
  | nil =>
    apply scanEntries_end
    simpa [further] using skipSpace_lead (isSpace_lineAt depth) (c := ']') (by decide)
  | cons a as ih =>
    rw [List.length_cons] at hrounds
    obtain ⟨rounds, rfl⟩ := Nat.exists_eq_add_one_of_ne_zero (n := rounds) (by omega)
    have ha := h a List.mem_cons_self
    have hrest := ih (fun a' ha' => h a' (List.mem_cons_of_mem a ha')) rounds (by omega)
    have hnext := scanNext_further ha.opens (depth + 1) (further depth (as.map write) ']' ++ rest)
    simp only [List.map_cons, further_cons, List.cons_append, List.append_assoc]
    rw [scanEntries_of_next hnext ha (closes_further depth _ ']' rest), hrest]
    rfl

/-- A written list is taken if its entries are. -/
theorem takes_list {entry : Scanner α} {write : α → String} {as : List α}
    (h : ∀ a ∈ as, Takes entry (write a).toList a) (depth : Nat) :
    Takes (scanList entry) (writeList depth (as.map write)).toList as := by
  cases as with
  | nil =>
    have htext : (writeList depth (List.map write [])).toList = ['[', ']'] := by
      simp [writeList, writeBlock]
    rw [htext]
    refine ⟨⟨'[', _, rfl, by decide, by decide⟩, fun lead rest hlead _ => ?_⟩
    have hskip : skipSpace (lead ++ '[' :: ']' :: rest) = '[' :: ']' :: rest :=
      skipSpace_lead hlead (by decide)
    have hend : skipSpace (']' :: rest) = ']' :: rest := rfl
    simp [scanList, hskip, scanEntries_end entry _ true hend]
  | cons a as =>
    have ha := h a List.mem_cons_self
    have htext : (writeList depth ((a :: as).map write)).toList = _ :=
      toList_writeBlock '[' ']' depth (write a) (as.map write)
    rw [htext]
    refine ⟨⟨'[', _, rfl, by decide, by decide⟩, fun lead rest hlead _ => ?_⟩
    simp only [List.cons_append, List.append_assoc]
    have hnext := scanNext_first ha.opens (depth + 1) (further depth (as.map write) ']' ++ rest)
    have hrounds := length_lt_further depth (as.map write) ']'
    rw [List.length_map] at hrounds
    simp only [scanList, skipSpace_lead hlead (c := '[') (by decide)]
    rw [scanEntries_of_next hnext ha (closes_further depth _ ']' rest),
      scanEntries_further (fun a' ha' => h a' (List.mem_cons_of_mem a ha')) depth]
    · rfl
    · simp only [List.length_append]
      omega

/-! ## Records -/

/-- A field of an object as written. -/
def writeField (field : String × String) : String := writeString field.1 ++ ": " ++ field.2

/-- Written fields fill in a draft one after another. -/
inductive Fills (fields : List (Field σ)) : List (String × String) → σ → σ → Prop
  | done (d : σ) : Fills fields [] d d
  | next {key value : String} {entries : List (String × String)} {field : Field σ} {d d' d'' : σ}
      (hfind : (fields.find? fun f => f.name == key) = some field)
      (hnew : field.present d = false) (htakes : Takes (field.scan d) value.toList d')
      (hrest : Fills fields entries d' d'') : Fills fields ((key, value) :: entries) d d''

theorem toList_writeField (key value : String) :
    (writeField (key, value)).toList =
      '"' :: (key.toList.flatMap escapeChar ++ '"' :: ':' :: ' ' :: value.toList) := by
  simp [writeField, toList_writeString]

theorem scanNextKey_first (depth : Nat) (rest : List Char) :
    scanNextKey true (lineAt depth ++ '"' :: rest) = .ok (some rest) := by
  simp [scanNextKey, skipSpace_lead (isSpace_lineAt depth) (c := '"') (by decide)]

theorem scanNextKey_further (depth : Nat) (rest : List Char) :
    scanNextKey false (',' :: (lineAt depth ++ '"' :: rest)) = .ok (some rest) := by
  have hcomma : skipSpace (',' :: (lineAt depth ++ '"' :: rest)) =
      ',' :: (lineAt depth ++ '"' :: rest) := rfl
  simp [scanNextKey, hcomma, skipSpace_lead (isSpace_lineAt depth) (c := '"') (by decide)]

theorem scanFields_end (fields : List (Field σ)) (rounds : Nat) (first : Bool) (d : σ)
    {cs : List Char} (hend : skipSpace cs = '\x7d' :: rest) :
    scanFields fields (rounds + 1) first d cs = .ok (d, '\x7d' :: rest) := by
  simp [scanFields, scanNextKey, hend, bind, Except.bind, pure, Except.pure]

/-- A field is filled in, and then the others. -/
theorem scanFields_of_next {fields : List (Field σ)} {field : Field σ} {key value : String}
    {d d' : σ} {first : Bool} {cs : List Char}
    (hnext : scanNextKey first cs =
      .ok (some (key.toList.flatMap escapeChar ++ '"' :: ':' :: ' ' :: (value.toList ++ rest))))
    (hfind : (fields.find? fun f => f.name == key) = some field)
    (hnew : field.present d = false) (htakes : Takes (field.scan d) value.toList d')
    (hrest : Closes rest) (rounds : Nat) :
    scanFields fields (rounds + 1) first d cs = scanFields fields rounds false d' rest := by
  have hcolon : scanColon (':' :: ' ' :: (value.toList ++ rest)) =
      .ok (' ' :: (value.toList ++ rest)) := rfl
  have hvalue : field.scan d (' ' :: (value.toList ++ rest)) = .ok (d', rest) :=
    htakes.takes [' '] rest (by simp [isSpace]) hrest
  simp [scanFields, hnext, scanString_escaped, hfind, hnew, hcolon, hvalue, bind, Except.bind]

/-- The fields of a written record are filled in one by one. -/
theorem scanFields_further {fields : List (Field σ)} {entries : List (String × String)} {d d' : σ}
    (h : Fills fields entries d d') (depth : Nat) {rounds : Nat} (hrounds : entries.length < rounds)
    (rest : List Char) :
    scanFields fields rounds false d (further depth (entries.map writeField) '\x7d' ++ rest) =
      .ok (d', '\x7d' :: rest) := by
  obtain ⟨rounds, rfl⟩ := Nat.exists_eq_add_one_of_ne_zero (Nat.ne_zero_of_lt hrounds)
  induction h generalizing rounds with
  | done d =>
    apply scanFields_end
    simpa [further] using skipSpace_lead (isSpace_lineAt depth) (c := '\x7d') (by decide)
  | next hfind hnew htakes hrest ih =>
    rename_i key value entries field d d' d''
    rw [List.length_cons] at hrounds
    obtain ⟨rounds, rfl⟩ := Nat.exists_eq_add_one_of_ne_zero (n := rounds) (by omega)
    have hnext := scanNextKey_further (depth + 1) (key.toList.flatMap escapeChar ++ '"' :: ':' ::
      ' ' :: (value.toList ++ (further depth (entries.map writeField) '\x7d' ++ rest)))
    simp only [List.map_cons, further_cons, toList_writeField, List.cons_append, List.append_assoc]
    rw [scanFields_of_next hnext hfind hnew htakes (closes_further depth _ '\x7d' rest)]
    exact ih rounds (by omega)

/-- A written record is taken if its fields fill in a draft that is a record. -/
theorem takes_record {schema : Schema σ α} {key value : String} {entries : List (String × String)}
    {d : σ} {a : α} (h : Fills schema.fields ((key, value) :: entries) schema.blank d)
    (ha : schema.finish d = .ok a) (depth : Nat) :
    Takes (scanRecord schema) (writeObject depth ((key, value) :: entries)).toList a := by
  have htext : (writeObject depth ((key, value) :: entries)).toList = _ :=
    toList_writeBlock '\x7b' '\x7d' depth (writeField (key, value)) (entries.map writeField)
  rw [htext]
  refine ⟨⟨'\x7b', _, rfl, by decide, by decide⟩, fun lead rest hlead _ => ?_⟩
  cases h with
  | next hfind hnew htakes hrest =>
    simp only [List.cons_append, List.append_assoc, toList_writeField]
    have hnext := scanNextKey_first (depth + 1) (key.toList.flatMap escapeChar ++ '"' :: ':' ::
      ' ' :: (value.toList ++ (further depth (entries.map writeField) '\x7d' ++ rest)))
    have hrounds := length_lt_further depth (entries.map writeField) '\x7d'
    rw [List.length_map] at hrounds
    simp only [scanRecord, skipSpace_lead hlead (c := '\x7b') (by decide)]
    rw [scanFields_of_next hnext hfind hnew htakes (closes_further depth _ '\x7d' rest),
      scanFields_further hrest depth]
    · simp [finishRecord, ha, bind, Except.bind]
    · simp only [List.length_append, List.length_cons]
      omega

theorem takes_store {scan : Scanner α} {text : List Char} {a : α} (h : Takes scan text a)
    (put : α → σ) : Takes (store scan put) text (put a) where
  opens := h.opens
  takes lead rest hlead hrest := by
    simp [store, h.takes lead rest hlead hrest, bind, Except.bind, pure, Except.pure]

/-- A field that stores a value is filled in if the value is taken. -/
theorem Fills.value {fields : List (Field σ)} {entries : List (String × String)}
    {key text : String} {present : σ → Bool} {scan : Scanner α} {put : σ → α → σ} {a : α} {d d' : σ}
    (hfind : (fields.find? fun f => f.name == key) =
      some ⟨key, present, fun d => store scan (put d)⟩)
    (hnew : present d = false) (ha : Takes scan text.toList a)
    (hrest : Fills fields entries (put d a) d') : Fills fields ((key, text) :: entries) d d' :=
  .next hfind hnew (takes_store ha (put d)) hrest

/-! ## Rules and programs -/

theorem takes_action (a : Action) : Takes scanAction (writeString a.name).toList a where
  opens := ⟨'"', _, toList_writeString a.name, by decide, by decide⟩
  takes lead rest hlead _ := by
    simp [scanAction, skipSpace_writeString hlead, scanString_escaped, toAction, bind, Except.bind]

theorem takes_rule (depth : Nat) (r : Rule) :
    Takes (scanRecord ruleSchema) (writeRule depth r).toList r := by
  apply takes_record (d := ⟨some r.value, some r.state, some r.write, some r.next, some r.action⟩)
  · refine .value rfl rfl (takes_text _ _) ?_
    refine .value rfl rfl (takes_text _ _) ?_
    refine .value rfl rfl (takes_text _ _) ?_
    refine .value rfl rfl (takes_text _ _) ?_
    refine .value rfl rfl (takes_action _) ?_
    exact .done _
  · rfl

theorem takes_program {p : Program} (hp : Program.Representable p.head) :
    Takes (scanRecord programSchema) p.toJson.toList p := by
  apply takes_record (d := ⟨some p.cells, some p.head, some p.blank, some p.start, some p.rules⟩)
  · refine .value rfl rfl (takes_list (fun s _ => takes_text _ s) 1) ?_
    refine .value rfl rfl (takes_integer hp) ?_
    refine .value rfl rfl (takes_text _ _) ?_
    refine .value rfl rfl (takes_text _ _) ?_
    refine .value rfl rfl (takes_list (fun r _ => takes_rule 2 r) 1) ?_
    exact .done _
  · rfl

end Json

namespace Program

/-- A text that the reader of programs takes whole is a document. -/
theorem ofJson_of_takes {text : String} {p : Program}
    (h : Json.Takes (Json.scanRecord Json.programSchema) text.toList p) : ofJson text = .ok p := by
  have htakes : Json.scanRecord Json.programSchema text.toList = .ok (p, []) := by
    simpa using h.takes [] [] (by simp) (by simp [Json.Closes])
  have hspace : Json.skipSpace [] = [] := rfl
  simp [ofJson, Json.scanDocument, htakes, hspace, bind, Except.bind, pure, Except.pure]

/-- **Documents read back.** The document of a program is read as this program, whatever characters
its symbols hold and whether it has cells and rules or not. -/
theorem document_reads_back {p : Program} (hp : Representable p.head) :
    ofJson p.toJson = .ok p :=
  ofJson_of_takes (Json.takes_program hp)

/-- A program without cells, with its head at the least index and symbols that need escapes or more
than 16 bits. -/
def intricate : Program :=
  ⟨[], -0x8000000000000000, "\"\\/", "", [⟨"😀", "\x00\x1f", "\n\r\t\x08\x0c", "é\x7f", .halt⟩]⟩

theorem document_reads_back_intricate :
    Representable intricate.head ∧ ofJson intricate.toJson = .ok intricate := by
  have hhead : Representable intricate.head := by decide
  exact ⟨hhead, document_reads_back hhead⟩

end Program

end TapeCompiler
