import Mathlib.Data.List.DropRight
import TapeCompiler.Proofs.Tokens

/-!
# Readers and the parts of a text

A text is `Spaced` into parts if it holds the parts one after the other, with padding anywhere
around them. Two properties tie a reader to a relation between values and parts. It is `Sound` for
the relation if whatever it takes off a text is spaced into parts of the value that it reads. In the
other direction, `Reads` is reading up to padding, and there is one lemma for each combination of
readers that says what it reads. A list with dividers between its members, the one shape that the
tape and the entries of a program share, is settled here in both directions.
-/

namespace TapeCompiler.Text

open Grammar

variable {cs rest text text' pad : List Char} {parts parts' : List (List Char)}

/-! ## Delimiters -/

/-- A text that does not go on with a character of a symbol. -/
def Ends (cs : List Char) : Prop := ∀ c ∈ cs.head?, isSymbolChar c = false

/-- A text that goes on with neither a symbol nor padding. -/
def Delimited (cs : List Char) : Prop :=
  ∀ c ∈ cs.head?, isSymbolChar c = false ∧ isPadding c = false

theorem Delimited.ends (h : Delimited cs) : Ends cs := fun c hc => (h c hc).1

@[simp] theorem delimited_nil : Delimited [] := fun c hc => by cases hc

theorem delimited_cons {c : Char} (h : isSymbolChar c = false ∧ isPadding c = false) :
    Delimited (c :: cs) := by
  intro c' hc'
  cases hc'
  exact h

/-! ## Padding -/

/-- Spaces and tabs only. -/
def Padding (cs : List Char) : Prop := ∀ c ∈ cs, c = ' ' ∨ c = '\t'

theorem isPadding_iff {c : Char} : isPadding c = true ↔ c = ' ' ∨ c = '\t' := by
  simp [isPadding]

theorem padding_nil : Padding [] := fun _ hc => by cases hc

theorem Padding.append {pad' : List Char} (h : Padding pad) (h' : Padding pad') :
    Padding (pad ++ pad') := by
  intro c hc
  rcases List.mem_append.mp hc with hc | hc
  · exact h c hc
  · exact h' c hc

theorem skipPadding_append (h : Padding pad) : skipPadding (pad ++ cs) = skipPadding cs :=
  List.dropWhile_append_of_pos fun c hc => isPadding_iff.mpr (h c hc)

/-- What is skipped is padding. -/
theorem exists_skipPadding (cs : List Char) : ∃ pad, Padding pad ∧ cs = pad ++ skipPadding cs := by
  refine ⟨cs.takeWhile isPadding, fun c hc => ?_, List.takeWhile_append_dropWhile.symm⟩
  exact isPadding_iff.mp (List.mem_takeWhile_imp hc)

@[simp] theorem skipPadding_skipPadding : skipPadding (skipPadding cs) = skipPadding cs :=
  List.dropWhile_idempotent isPadding cs

theorem skipPadding_cons {c : Char} (hc : isPadding c = false) : skipPadding (c :: cs) = c :: cs :=
  List.dropWhile_cons_of_neg (by rw [hc]; exact Bool.false_ne_true)

/-! ## Parts -/

/-- A text that holds the parts one after the other, with padding anywhere around them. -/
inductive Spaced : List (List Char) → List Char → Prop
  | nil {pad : List Char} (hpad : Padding pad) : Spaced [] pad
  | cons {pad part text : List Char} {parts : List (List Char)} (hpad : Padding pad)
      (h : Spaced parts text) : Spaced (part :: parts) (pad ++ (part ++ text))

namespace Spaced

theorem single (part : List Char) : Spaced [part] part := by
  have h : Spaced [part] ([] ++ (part ++ [])) := cons padding_nil (nil padding_nil)
  rwa [List.nil_append, List.append_nil] at h

theorem pad_append (hpad : Padding pad) (h : Spaced parts text) : Spaced parts (pad ++ text) := by
  cases h with
  | nil hpad' => exact nil (hpad.append hpad')
  | cons hpad' h =>
    rw [← List.append_assoc]
    exact cons (hpad.append hpad') h

theorem append (h : Spaced parts text) (h' : Spaced parts' text') :
    Spaced (parts ++ parts') (text ++ text') := by
  induction h with
  | nil hpad => exact h'.pad_append hpad
  | cons hpad _ ih =>
    rw [List.append_assoc, List.append_assoc]
    exact cons hpad ih

theorem exists_of_append (h : Spaced (parts ++ parts') text) :
    ∃ front back, Spaced parts front ∧ Spaced parts' back ∧ text = front ++ back := by
  induction parts generalizing text with
  | nil => exact ⟨[], text, nil padding_nil, h, rfl⟩
  | cons part parts ih =>
    cases h with
    | cons hpad h =>
      obtain ⟨front, back, hfront, hback, rfl⟩ := ih h
      exact ⟨_, back, cons hpad hfront, hback, by simp only [List.append_assoc]⟩

/-- A text starts with its first part. -/
theorem exists_front {part : List Char} (h : Spaced (part :: parts) text) :
    ∃ front back, Spaced [part] front ∧ Spaced parts back ∧ text = front ++ back :=
  exists_of_append h

theorem exists_of_cons {part : List Char} (h : Spaced (part :: parts) text) :
    ∃ pad tail, Padding pad ∧ Spaced parts tail ∧ text = pad ++ (part ++ tail) := by
  cases h with
  | cons hpad h => exact ⟨_, _, hpad, h, rfl⟩

theorem exists_of_single {part : List Char} (h : Spaced [part] text) :
    ∃ pad pad', Padding pad ∧ Padding pad' ∧ text = pad ++ (part ++ pad') := by
  cases h with
  | cons hpad h =>
    cases h with
    | nil hpad' => exact ⟨_, _, hpad, hpad', rfl⟩

/-- Every part is in the text. -/
theorem mem {part : List Char} {c : Char} (h : Spaced parts text) (hpart : part ∈ parts)
    (hc : c ∈ part) : c ∈ text := by
  induction h with
  | nil => cases hpart
  | cons _ _ ih =>
    rcases List.mem_cons.mp hpart with rfl | hpart
    · exact List.mem_append_right _ (List.mem_append_left _ hc)
    · exact List.mem_append_right _ (List.mem_append_right _ (ih hpart))

/-- A text holds nothing but its parts and padding. -/
theorem mem_or_padding {c : Char} (h : Spaced parts text) (hc : c ∈ text) :
    (∃ part ∈ parts, c ∈ part) ∨ c = ' ' ∨ c = '\t' := by
  induction h with
  | nil hpad => exact .inr (hpad c hc)
  | @cons pad part text parts hpad _ ih =>
    rcases List.mem_append.mp hc with hc | hc
    · exact .inr (hpad c hc)
    · rcases List.mem_append.mp hc with hc | hc
      · exact .inl ⟨part, List.mem_cons_self, hc⟩
      · rcases ih hc with ⟨part', hpart', hc⟩ | hc
        · exact .inl ⟨part', List.mem_cons_of_mem part hpart', hc⟩
        · exact .inr hc

/-- Where the first part starts with a delimiter, so does the text. -/
theorem delimited {c : Char} {part : List Char} (h : Spaced ((c :: part) :: parts) text)
    (hc : isSymbolChar c = false ∧ isPadding c = false) (rest : List Char) :
    Delimited (skipPadding (text ++ rest)) := by
  cases h with
  | cons hpad _ =>
    rw [List.append_assoc, skipPadding_append hpad, List.cons_append, List.cons_append,
      skipPadding_cons hc.2]
    exact delimited_cons hc

end Spaced

namespace Reader

variable {τ α β : Type} {p : Reader τ α} {q : Reader τ β} {a : α} {b : β} {mid : List Char}
  {P : α → List (List Char) → Prop} {Q : β → List (List Char) → Prop}

/-! ## What a combination has read -/

theorem read_literal_iff {word : List Char} {u : Unit} :
    (literal word : Reader τ Unit).read cs = some (u, rest) ↔ cs = word ++ rest := by
  have hafter : after? word cs = some rest ↔ cs = word ++ rest := by
    fun_induction after? word cs with
    | case1 cs => simp
    | case2 => simp
    | case3 ws c cs ih => simp [ih]
    | case4 ws cs w c hne => simp [Ne.symm hne]
  simp [literal, hafter]

theorem read_named_iff {t : τ} :
    (p.named t).read cs = some (a, rest) ↔ p.read cs = some (a, rest) := Iff.rfl

theorem read_map_iff {f : α → β} :
    (p.map f).read cs = some (b, rest) ↔ ∃ a, p.read cs = some (a, rest) ∧ f a = b := by
  simp only [map, Option.map_eq_some_iff, Prod.mk.injEq, Prod.exists]
  constructor
  · rintro ⟨a, rest', hread, hb, rfl⟩
    exact ⟨a, hread, hb⟩
  · rintro ⟨a, hread, hb⟩
    exact ⟨a, rest, hread, hb, rfl⟩

theorem read_seq_iff :
    (p.seq q).read cs = some ((a, b), rest) ↔
      ∃ mid, p.read cs = some (a, mid) ∧ q.read (skipPadding mid) = some (b, rest) := by
  constructor
  · intro h
    simp only [seq] at h
    split at h
    · cases h
    · rename_i a' mid hp
      simp only [Option.map_eq_some_iff, Prod.mk.injEq, Prod.exists] at h
      obtain ⟨b', r, hq, ⟨rfl, rfl⟩, rfl⟩ := h
      exact ⟨mid, hp, hq⟩
  · rintro ⟨mid, hp, hq⟩
    simp [seq, hp, hq]

theorem read_seqLeft_iff :
    (p.seqLeft q).read cs = some (a, rest) ↔
      ∃ mid b, p.read cs = some (a, mid) ∧ q.read (skipPadding mid) = some (b, rest) := by
  constructor
  · intro h
    obtain ⟨⟨a, b⟩, hread, rfl⟩ := read_map_iff.mp h
    obtain ⟨mid, hp, hq⟩ := read_seq_iff.mp hread
    exact ⟨mid, b, hp, hq⟩
  · rintro ⟨mid, b, hp, hq⟩
    exact read_map_iff.mpr ⟨(a, b), read_seq_iff.mpr ⟨mid, hp, hq⟩, rfl⟩

theorem read_optional_iff {o : Option α} :
    p.optional.read cs = some (o, rest) ↔
      (p.read cs = none ∧ o = none ∧ rest = cs) ∨ ∃ a, p.read cs = some (a, rest) ∧ o = some a := by
  simp only [optional]
  split
  · rename_i hread
    simp [hread, eq_comm]
  · rename_i a mid hread
    simp [hread, eq_comm, and_comm]

theorem read_orElse_iff {p' : Reader τ α} :
    (p.orElse p').read cs = some (a, rest) ↔
      p.read cs = some (a, rest) ∨ p.read cs = none ∧ p'.read cs = some (a, rest) := by
  simp only [orElse]
  split
  · rename_i hread
    simp [hread]
  · rename_i r hread
    simp [hread]

/-! ## Sound readers -/

/-- A reader that only takes texts of the given parts. -/
def Sound (p : Reader τ α) (P : α → List (List Char) → Prop) : Prop :=
  ∀ ⦃cs a rest⦄, p.read cs = some (a, rest) →
    ∃ parts text, P a parts ∧ Spaced parts text ∧ cs = text ++ rest

/-- Values with one part each. -/
def Alone (P : α → List Char → Prop) (a : α) (parts : List (List Char)) : Prop :=
  ∃ part, P a part ∧ parts = [part]

/-- Values read one after the other, and their parts. -/
inductive Repeated (P : α → List (List Char) → Prop) : List α → List (List Char) → Prop
  | nil : Repeated P [] []
  | cons {a : α} {as : List α} {parts parts' : List (List Char)} (ha : P a parts)
      (has : Repeated P as parts') : Repeated P (a :: as) (parts ++ parts')

theorem sound_alone {P : α → List Char → Prop}
    (h : ∀ ⦃cs a rest⦄, p.read cs = some (a, rest) → ∃ part, P a part ∧ cs = part ++ rest) :
    p.Sound (Alone P) := by
  intro cs a rest hread
  obtain ⟨part, hpart, hcs⟩ := h hread
  exact ⟨[part], part, ⟨part, hpart, rfl⟩, .single part, hcs⟩

theorem sound_literal (word : List Char) :
    (literal word : Reader τ Unit).Sound fun _ parts => parts = [word] := by
  intro cs u rest h
  exact ⟨_, _, rfl, .single word, read_literal_iff.mp h⟩

namespace Sound

theorem map {f : α → β} (hp : p.Sound P) (hf : ∀ a parts, P a parts → Q (f a) parts) :
    (p.map f).Sound Q := by
  intro cs b rest h
  obtain ⟨a, hread, rfl⟩ := read_map_iff.mp h
  obtain ⟨parts, text, ha, htext, hcs⟩ := hp hread
  exact ⟨parts, text, hf a parts ha, htext, hcs⟩

theorem mono {P' : α → List (List Char) → Prop} (hp : p.Sound P)
    (hP : ∀ a parts, P a parts → P' a parts) : p.Sound P' := by
  intro cs a rest h
  obtain ⟨parts, text, ha, htext, hcs⟩ := hp h
  exact ⟨parts, text, hP a parts ha, htext, hcs⟩

theorem named {t : τ} (hp : p.Sound P) : (p.named t).Sound P := hp

theorem seq (hp : p.Sound P) (hq : q.Sound Q) :
    (p.seq q).Sound fun r parts => ∃ ps qs, P r.1 ps ∧ Q r.2 qs ∧ parts = ps ++ qs := by
  rintro cs ⟨a, b⟩ rest h
  obtain ⟨mid, hread, hread'⟩ := read_seq_iff.mp h
  obtain ⟨ps, text, ha, htext, rfl⟩ := hp hread
  obtain ⟨qs, text', hb, htext', hmid⟩ := hq hread'
  obtain ⟨pad, hpad, hskip⟩ := exists_skipPadding mid
  refine ⟨ps ++ qs, text ++ (pad ++ text'), ⟨ps, qs, ha, hb, rfl⟩,
    htext.append (htext'.pad_append hpad), ?_⟩
  rw [hskip, hmid, List.append_assoc, List.append_assoc]

theorem optional (hp : p.Sound P) :
    p.optional.Sound fun o parts => o.elim (parts = []) (P · parts) := by
  intro cs o rest h
  rcases read_optional_iff.mp h with ⟨-, rfl, rfl⟩ | ⟨a, hread, rfl⟩
  · exact ⟨[], [], rfl, .nil padding_nil, rfl⟩
  · exact hp hread

theorem orElse {p' : Reader τ α} (hp : p.Sound P) (hp' : p'.Sound P) : (p.orElse p').Sound P := by
  intro cs a rest h
  rcases read_orElse_iff.mp h with hread | ⟨-, hread⟩
  · exact hp hread
  · exact hp' hread

theorem readMore (hp : p.Sound P) (cs : List Char) :
    ∃ parts text, Repeated P (readMore p cs).1 parts ∧ Spaced parts text ∧
      cs = text ++ (readMore p cs).2 := by
  fun_induction Reader.readMore p cs with
  | case1 cs hread => exact ⟨[], [], .nil, .nil padding_nil, rfl⟩
  | case2 cs a rest hread hlength more ih =>
    obtain ⟨pad, hpad, hskip⟩ := exists_skipPadding cs
    obtain ⟨ps, text, ha, htext, hcs⟩ := hp hread
    obtain ⟨qs, text', has, htext', hrest⟩ := ih
    refine ⟨ps ++ qs, (pad ++ text) ++ text', .cons ha has,
      (htext.pad_append hpad).append htext', ?_⟩
    rw [hskip, hcs, List.append_assoc, List.append_assoc, ← hrest]
  | case3 cs a rest hread hlength =>
    obtain ⟨pad, hpad, hskip⟩ := exists_skipPadding cs
    obtain ⟨ps, text, ha, htext, hcs⟩ := hp hread
    refine ⟨ps ++ [], pad ++ text, .cons ha .nil, ?_, ?_⟩
    · rw [List.append_nil]
      exact htext.pad_append hpad
    · rw [hskip, hcs, List.append_assoc]

theorem many (hp : p.Sound P) : p.many.Sound (Repeated P) := by
  intro cs as rest h
  simp only [Reader.many] at h
  split at h
  · cases h
    exact ⟨[], [], .nil, .nil padding_nil, rfl⟩
  · rename_i a mid hread
    cases h
    obtain ⟨ps, text, ha, htext, rfl⟩ := hp hread
    obtain ⟨qs, text', has, htext', hmid⟩ := hp.readMore mid
    refine ⟨ps ++ qs, text ++ text', .cons ha has, htext.append htext', ?_⟩
    rw [List.append_assoc, ← hmid]

end Sound

/-! ## Reading up to padding -/

/-- The reader reads a value off a text and leaves the rest, up to the padding in front of both. -/
def Reads (p : Reader τ α) (cs : List Char) (a : α) (rest : List Char) : Prop :=
  ∃ r, p.read (skipPadding cs) = some (a, r) ∧ skipPadding r = skipPadding rest

/-- The reader reads nothing off a text, not even behind padding. -/
def Refuses (p : Reader τ α) (cs : List Char) : Prop := p.read (skipPadding cs) = none

theorem reads_pad_append (hpad : Padding pad) : p.Reads (pad ++ cs) a rest ↔ p.Reads cs a rest := by
  rw [Reads, Reads, skipPadding_append hpad]

theorem reads_append_pad (hpad : Padding pad) : p.Reads cs a (pad ++ rest) ↔ p.Reads cs a rest := by
  rw [Reads, Reads, skipPadding_append hpad]

theorem reads_named {t : τ} : (p.named t).Reads cs a rest ↔ p.Reads cs a rest := Iff.rfl

theorem reads_map {f : α → β} : (p.map f).Reads cs b rest ↔ ∃ a, f a = b ∧ p.Reads cs a rest := by
  constructor
  · rintro ⟨r, hread, hrest⟩
    obtain ⟨a, hp, hb⟩ := read_map_iff.mp hread
    exact ⟨a, hb, r, hp, hrest⟩
  · rintro ⟨a, hb, r, hp, hrest⟩
    exact ⟨r, read_map_iff.mpr ⟨a, hp, hb⟩, hrest⟩

theorem reads_seq :
    (p.seq q).Reads cs (a, b) rest ↔ ∃ mid, p.Reads cs a mid ∧ q.Reads mid b rest := by
  constructor
  · rintro ⟨r, hread, hrest⟩
    obtain ⟨mid, hp, hq⟩ := read_seq_iff.mp hread
    exact ⟨mid, ⟨mid, hp, rfl⟩, r, hq, hrest⟩
  · rintro ⟨mid, ⟨r, hp, hmid⟩, r', hq, hrest⟩
    rw [← hmid] at hq
    exact ⟨r', read_seq_iff.mpr ⟨r, hp, hq⟩, hrest⟩

theorem Reads.seqLeft (hp : p.Reads cs a mid) (hq : q.Reads mid b rest) :
    (p.seqLeft q).Reads cs a rest :=
  reads_map.mpr ⟨(a, b), rfl, reads_seq.mpr ⟨mid, hp, hq⟩⟩

theorem Reads.seqRight (hp : p.Reads cs a mid) (hq : q.Reads mid b rest) :
    (p.seqRight q).Reads cs b rest :=
  reads_map.mpr ⟨(a, b), rfl, reads_seq.mpr ⟨mid, hp, hq⟩⟩

theorem Refuses.map {f : α → β} (hp : p.Refuses cs) : (p.map f).Refuses cs := by
  simp only [Refuses] at hp ⊢
  simp only [Reader.map, hp, Option.map_none]

theorem Refuses.seqRight (hp : p.Refuses cs) : (p.seqRight q).Refuses cs := by
  refine Refuses.map ?_
  simp only [Refuses] at hp ⊢
  simp only [seq, hp]

theorem Reads.optional (hp : p.Reads cs a rest) : p.optional.Reads cs (some a) rest := by
  obtain ⟨r, hread, hrest⟩ := hp
  exact ⟨r, read_optional_iff.mpr (.inr ⟨a, hread, rfl⟩), hrest⟩

theorem Refuses.optional (hp : p.Refuses cs) : p.optional.Reads cs none cs :=
  ⟨skipPadding cs, read_optional_iff.mpr (.inl ⟨hp, rfl, rfl⟩), skipPadding_skipPadding⟩

theorem Reads.orElse {p' : Reader τ α} (hp : p.Reads cs a rest) :
    (p.orElse p').Reads cs a rest := by
  obtain ⟨r, hread, hrest⟩ := hp
  exact ⟨r, read_orElse_iff.mpr (.inl hread), hrest⟩

theorem Refuses.orElse {p' : Reader τ α} (hp : p.Refuses cs) (hp' : p'.Reads cs a rest) :
    (p.orElse p').Reads cs a rest := by
  obtain ⟨r, hread, hrest⟩ := hp'
  exact ⟨r, read_orElse_iff.mpr (.inr ⟨hp, hread⟩), hrest⟩

theorem Refuses.many (hp : p.Refuses cs) : p.many.Reads cs [] cs := by
  simp only [Refuses] at hp
  exact ⟨skipPadding cs, by simp only [Reader.many, hp], skipPadding_skipPadding⟩

/-- A character is read if it is the only part. -/
theorem reads_literal {c : Char} (hc : isPadding c = false) (h : Spaced [[c]] text) :
    (literal [c] : Reader τ Unit).Reads (text ++ rest) () rest := by
  obtain ⟨pad, pad', hpad, hpad', rfl⟩ := h.exists_of_single
  rw [List.append_assoc, List.append_assoc, reads_pad_append hpad]
  refine (reads_append_pad hpad').mp ⟨pad' ++ rest, ?_, rfl⟩
  rw [List.singleton_append, skipPadding_cons hc]
  exact read_literal_iff.mpr rfl

/-- A character is refused if the first part starts with another one. -/
theorem refuses_literal {c c' : Char} {part : List Char} (hc : isPadding c = false) (hne : c' ≠ c)
    (h : Spaced ((c :: part) :: parts) text) :
    (literal [c'] : Reader τ Unit).Refuses (text ++ rest) := by
  cases h with
  | cons hpad _ =>
    rw [Refuses, List.append_assoc, skipPadding_append hpad, List.cons_append, List.cons_append,
      skipPadding_cons hc]
    simp [literal, after?, hne]

/-- A reader that never reads without taking something. -/
def Progresses (p : Reader τ α) : Prop :=
  ∀ ⦃cs a rest⦄, p.read cs = some (a, rest) → rest.length < cs.length

theorem Sound.progresses (hp : p.Sound P)
    (hne : ∀ a parts, P a parts → ∃ part ∈ parts, part ≠ []) : p.Progresses := by
  intro cs a rest h
  obtain ⟨parts, text, ha, htext, rfl⟩ := hp h
  obtain ⟨part, hpart, hpartne⟩ := hne a parts ha
  obtain ⟨c, hc⟩ := List.exists_mem_of_ne_nil part hpartne
  have hlength := List.length_pos_of_mem (htext.mem hpart hc)
  rw [List.length_append]
  omega

/-- Reading on after padding is reading anew. -/
theorem reads_readMore (hp : p.Progresses) (cs : List Char) :
    p.many.Reads cs (readMore p cs).1 (readMore p cs).2 := by
  rw [readMore]
  split
  · rename_i hread
    exact Refuses.many hread
  · rename_i a rest hread
    obtain ⟨pad, -, hskip⟩ := exists_skipPadding cs
    have hlength : rest.length < cs.length := by
      have hle := congrArg List.length hskip
      have hlt := hp hread
      rw [List.length_append] at hle
      omega
    rw [if_pos hlength]
    exact ⟨(readMore p rest).2, by simp only [many, hread], rfl⟩

theorem Reads.many {as : List α} (hp : p.Progresses) (ha : p.Reads cs a mid)
    (has : p.many.Reads mid as rest) : p.many.Reads cs (a :: as) rest := by
  obtain ⟨r, hread, hmid⟩ := ha
  obtain ⟨r', hread', hrest⟩ := has
  obtain ⟨r'', hmore, hrest'⟩ := reads_readMore hp r
  rw [hmid, hread'] at hmore
  obtain ⟨has, hr⟩ := Prod.mk.inj (Option.some.inj hmore)
  refine ⟨(readMore p r).2, by simp only [Reader.many, hread, has], ?_⟩
  rw [← hrest', ← hr, hrest]

end Reader

/-! ## Lists with dividers -/

/-- The parts of a list: those of its members, one for each, with a divider between each two. -/
inductive Divided {α : Type} (Item : α → List Char → Prop) (Divider : List (List Char) → Prop) :
    List α → List (List Char) → Prop
  | one {a : α} {part : List Char} (ha : Item a part) : Divided Item Divider [a] [part]
  | cons {a : α} {as : List α} {part : List Char} {divider parts : List (List Char)}
      (ha : Item a part) (hdivider : Divider divider) (has : Divided Item Divider as parts) :
      Divided Item Divider (a :: as) (part :: (divider ++ parts))

/-- A list starts with a member. -/
theorem Divided.exists_item {α : Type} {Item : α → List Char → Prop}
    {Divider : List (List Char) → Prop} {as : List α} (has : Divided Item Divider as parts)
    (htext : Spaced parts text) :
    ∃ a pad part text', Item a part ∧ Padding pad ∧ text = pad ++ (part ++ text') := by
  cases has with
  | one ha =>
    cases htext with
    | cons hpad _ => exact ⟨_, _, _, _, ha, hpad, rfl⟩
  | cons ha _ _ =>
    cases htext with
    | cons hpad _ => exact ⟨_, _, _, _, ha, hpad, rfl⟩

namespace Reader

variable {τ α : Type} {item : Reader τ α} {divider : Reader τ Unit} {as : List α}
  {Item : α → List Char → Prop} {Divider : List (List Char) → Prop}

/-- Reads a list whose members are divided by a divider. -/
abbrev divided (item : Reader τ α) (divider : Reader τ Unit) : Reader τ (List α) :=
  (item.seq (divider.seqRight item).many).map fun r => r.1 :: r.2

theorem Sound.member (hitem : item.Sound (Alone Item)) (hdivider : divider.Sound fun _ => Divider) :
    (divider.seqRight item).Sound fun a parts =>
      ∃ divider part, Divider divider ∧ Item a part ∧ parts = divider ++ [part] := by
  refine (hdivider.seq hitem).map ?_
  rintro ⟨⟨⟩, a⟩ _ ⟨ds, _, hds, ⟨part, hpart, rfl⟩, rfl⟩
  exact ⟨ds, part, hds, hpart, rfl⟩

theorem Sound.divided (hitem : item.Sound (Alone Item))
    (hdivider : divider.Sound fun _ => Divider) :
    (item.divided divider).Sound (Divided Item Divider) := by
  refine (hitem.seq (hitem.member hdivider).many).map ?_
  rintro ⟨a, as⟩ _ ⟨_, parts, ⟨part, ha, rfl⟩, has, rfl⟩
  simp only at ha has ⊢
  -- The members behind the first one, each with its divider in front.
  induction has generalizing a part with
  | nil => exact .one ha
  | cons hb _ ih =>
    obtain ⟨ds, part', hds, hb, rfl⟩ := hb
    rw [List.append_assoc, List.singleton_append]
    exact .cons ha hds (ih _ _ hb)

/-- What it takes to read a list: its members end where a delimiter follows, and its dividers start
with a delimiter and end where a member follows. -/
structure Divides (item : Reader τ α) (divider : Reader τ Unit) (Item : α → List Char → Prop)
    (Divider : List (List Char) → Prop) : Prop where
  item_sound : item.Sound (Alone Item)
  divider_sound : divider.Sound fun _ => Divider
  reads_item : ∀ ⦃a part rest⦄, Item a part → Delimited (skipPadding rest) →
    item.Reads (part ++ rest) a rest
  reads_divider : ∀ ⦃parts text a part rest⦄, Divider parts → Spaced parts text → Item a part →
    divider.Reads (text ++ (part ++ rest)) () (part ++ rest)
  front : ∀ ⦃parts⦄, Divider parts → ∃ c part parts', parts = (c :: part) :: parts' ∧
    isSymbolChar c = false ∧ isPadding c = false

namespace Divides

theorem progresses (h : Divides item divider Item Divider) :
    (divider.seqRight item).Progresses := by
  refine (h.item_sound.member h.divider_sound).progresses ?_
  rintro a _ ⟨ds, part, hds, -, rfl⟩
  obtain ⟨c, part', ds', rfl, -⟩ := h.front hds
  exact ⟨c :: part', List.mem_cons_self, List.cons_ne_nil _ _⟩

/-- A list is read up to where no further member follows. -/
theorem reads (h : Divides item divider Item Divider) (has : Divided Item Divider as parts)
    (htext : Spaced parts text) (hrest : Delimited (skipPadding rest))
    (hend : (divider.seqRight item).Refuses rest) :
    (item.divided divider).Reads (text ++ rest) as rest := by
  induction has generalizing text with
  | one ha =>
    obtain ⟨pad, pad', hpad, hpad', rfl⟩ := htext.exists_of_single
    have hitem := h.reads_item ha ((skipPadding_append hpad').symm ▸ hrest)
    refine reads_map.mpr ⟨(_, []), rfl, reads_seq.mpr ⟨rest, ?_, Refuses.many hend⟩⟩
    rw [List.append_assoc, List.append_assoc, reads_pad_append hpad]
    exact (reads_append_pad hpad').mp hitem
  | @cons a as part ds parts ha hds has ih =>
    cases htext with
    | @cons pad _ text _ hpad htext =>
      obtain ⟨front, back, hfront, hback, rfl⟩ := htext.exists_of_append
      obtain ⟨⟨b, bs⟩, rfl, hread⟩ := reads_map.mp (ih hback)
      obtain ⟨mid, hb, hbs⟩ := reads_seq.mp hread
      obtain ⟨c, part', ds', rfl, hc⟩ := h.front hds
      have hitem := h.reads_item ha (hfront.delimited hc (back ++ rest))
      have hdivider : divider.Reads (front ++ (back ++ rest)) () (back ++ rest) := by
        obtain ⟨b', pad', part', back, hb', hpad', rfl⟩ := has.exists_item hback
        have hpadded := hfront.append (.nil hpad')
        rw [List.append_nil] at hpadded
        have hread : divider.Reads (front ++ pad' ++ (part' ++ (back ++ rest))) ()
            (part' ++ (back ++ rest)) := h.reads_divider hds hpadded hb'
        simp only [List.append_assoc] at hread ⊢
        exact (reads_append_pad hpad').mpr hread
      refine reads_map.mpr ⟨(a, b :: bs), rfl, reads_seq.mpr ⟨front ++ (back ++ rest), ?_, ?_⟩⟩
      · rw [List.append_assoc, List.append_assoc, List.append_assoc, reads_pad_append hpad]
        exact hitem
      · exact (hdivider.seqRight hb).many h.progresses hbs

end Divides

end Reader

end TapeCompiler.Text
