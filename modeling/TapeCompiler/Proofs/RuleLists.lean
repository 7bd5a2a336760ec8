import TapeCompiler.Proofs.Consistency
import TapeCompiler.Proofs.RoundTrip

/-!
# Lists of rules as text

The texts of rules can be put one behind the other with any separators between them, each a comma or
the ends of some lines, with spaces and tabs anywhere around. Whatever the blank is, the rules are
read back from such a text: a rule is written with the sign for the blank in place of the blank, so
that the blank needs no text of its own.
-/

namespace TapeCompiler

open Text

namespace Grammar

/-- What may stand between the texts of two rules. -/
def SeparatorText (sep : List Char) : Prop := ∃ parts, Separator parts ∧ Spaced parts sep

/-- The texts one after the other, with a separator between any two. -/
inductive Joined : List String → List Char → Prop
  | nil : Joined [] []
  | one (t : String) : Joined [t] t.toList
  | cons {t t' : String} {ts : List String} {sep text : List Char} (hsep : SeparatorText sep)
      (h : Joined (t' :: ts) text) : Joined (t :: t' :: ts) (t.toList ++ (sep ++ text))

variable {blank : Symbol} {rules : List Rule} {texts : List String} {text : List Char}

/-- What is joined from the texts of rules is spaced into the parts of their entries. There is no
white space at its ends, where the first and the last text stand. -/
theorem Joined.exists_parts (h : Joined texts text)
    (hrules : List.Forall₂ (fun r t => Rule.encode blank r = .ok t) rules texts)
    (hne : rules ≠ []) :
    text ≠ [] ∧ Trimmed text ∧
      ∃ parts, EntriesParts (rules.map (Entry.ofRule blank)) parts ∧ Spaced parts text := by
  have item {r : Rule} {t : String} (hr : Rule.encode blank r = .ok t) :
      t.toList ≠ [] ∧ Trimmed t.toList ∧ EntryText (Entry.ofRule blank r) t.toList := by
    obtain ⟨hencodable, rfl⟩ := Rule.encode_eq_ok.mp hr
    rw [String.toList_ofList]
    have htokens := Entry.tokens_ofRule hencodable
    exact ⟨Entry.text_ne_nil, Entry.trimmed_text htokens, entryText_text htokens⟩
  induction h generalizing rules with
  | nil =>
    cases hrules
    exact absurd rfl hne
  | one t =>
    obtain ⟨r, rs, hr, hrs, rfl⟩ := List.forall₂_cons_right_iff.mp hrules
    cases hrs
    obtain ⟨htne, htrimmed, hentry⟩ := item hr
    exact ⟨htne, htrimmed, [t.toList], .one hentry, .single _⟩
  | @cons t t' ts sep text hsep _ ih =>
    obtain ⟨r, rs, hr, hrs, rfl⟩ := List.forall₂_cons_right_iff.mp hrules
    obtain ⟨htne, htrimmed, hentry⟩ := item hr
    obtain ⟨divider, hdivider, hspaced⟩ := hsep
    obtain ⟨hrestne, hrest, parts, hparts, htext⟩ := ih hrs fun hnil => by
      rw [hnil] at hrs
      cases hrs
    exact ⟨List.append_ne_nil_of_left_ne_nil htne _, htrimmed.around hrest htne hrestne sep,
      t.toList :: (divider ++ parts), .cons hentry hdivider hparts,
      (Spaced.single t.toList).append (hspaced.append htext)⟩

/-- Entries up to the end of a text make a table. -/
theorem exists_read_table {es : List Entry} {parts : List (List Char)} (hes : EntriesParts es parts)
    (htext : Spaced parts text) (htrimmed : Trimmed text) :
    ∃ rest, table.read text = some (es, rest) := by
  have hfinish : finish.Reads [] () [] := ⟨[], rfl, rfl⟩
  have hreads : table.Reads text es [] := Reader.reads_named.mpr
    (Reader.reads_map.mpr ⟨some es, rfl, (reads_entries hes htext).optional.seqLeft hfinish⟩)
  obtain ⟨rest, hread, -⟩ := hreads
  rw [htrimmed.skipPadding] at hread
  exact ⟨rest, hread⟩

end Grammar

namespace Program

variable {blank : Symbol} {rules : List Rule} {texts : List String} {text : String}

theorem readText_of_joined (hrules : rules.mapM (Rule.encode blank) = .ok texts)
    (htext : Grammar.Joined texts text.toList) :
    readText Grammar.table (trim text.toList) = .ok (rules.map (Entry.ofRule blank)) := by
  rw [mapM_eq_ok] at hrules
  rw [readText_eq_ok]
  generalize text.toList = cs at htext
  by_cases hne : rules = []
  · subst hne
    cases hrules
    cases htext
    exact ⟨[], rfl⟩
  · obtain ⟨-, htrimmed, parts, hparts, hspaced⟩ := htext.exists_parts hrules hne
    rw [trim_eq_iff.mpr ⟨htrimmed, [], [], by simp, by simp⟩]
    exact Grammar.exists_read_table hparts hspaced htrimmed

/-- Rules are read back from what is joined from their texts. -/
theorem parseRules_of_joined (hrules : rules.mapM (Rule.encode blank) = .ok texts)
    (htext : Grammar.Joined texts text.toList) : parseRules text blank = .ok rules := by
  refine bind_eq_ok.mpr ⟨_, readText_of_joined hrules htext, ?_⟩
  simp only [mapM_eq_ok, Rule.encode_eq_ok, List.forall₂_and_left] at hrules
  rw [mapM_eq_ok, List.forall₂_map_left_iff, List.forall₂_same]
  exact fun r hr => Entry.toRule_ofRule (hrules.1 r hr)

end Program

/-- **Lists of rules survive their text.** Let the rules be such that each of them can be written,
where `blank` is the blank. From any text that is joined from their texts exactly these rules are
read, in order. So a machine with this blank to which the text is given takes in exactly these
rules; if they contradict neither each other nor its table, it has each of them once, behind its
own. -/
theorem joined_rules_read_back {blank : Symbol} {rules : List Rule} {texts : List String}
    {text : String} (hrules : rules.mapM (Rule.encode blank) = .ok texts)
    (htext : Grammar.Joined texts text.toList) :
    Program.parseRules text blank = .ok rules ∧
      ∀ m : Machine, m.tape.blank = blank →
        m.addText text =
          ((m.table.insertAll rules).1, { m with table := (m.table.insertAll rules).2 }) ∧
        (Consistent (m.table.rules ++ rules) → ∃ t : Table,
          t.rules = (m.table.rules ++ rules).eraseDups ∧
          m.addText text = (.ok (), { m with table := t })) := by
  have hparse := Program.parseRules_of_joined hrules htext
  refine ⟨hparse, fun m hm => ?_⟩
  have hadd := Machine.addText_of_ok (hm ▸ hparse)
  refine ⟨hadd, fun hconsistent => ?_⟩
  obtain ⟨t, ht⟩ := hconsistent.exists_table
  refine ⟨t, ht, ?_⟩
  rw [hadd, Table.insertAll_eq_ok.mpr ⟨hconsistent, ht⟩]

/-- Rules with states that look like the parts of an entry, where the blank cannot be written. -/
def confusable : List Rule :=
  [⟨"a b,:", "DEF", "1", "->", .right⟩, ⟨"1", "->", "a b,:", "H", .left⟩,
    ⟨"R", "H", "R", "H", .halt⟩]

/-- They are read back from a text in which the ends of two lines and a comma separate them. -/
theorem joined_rules_read_back_confusable :
    ∃ texts text, confusable.mapM (Rule.encode "a b,:") = .ok texts ∧
      text = "DEF DEF -> 1 -> R \r\n\t\n1 -> -> DEF H L\t, R H -> R H STOP" ∧
      Grammar.Joined texts text.toList ∧ Program.parseRules text "a b,:" = .ok confusable ∧
      ∃ m t, Machine.ofProgram
          ⟨["1"], 0, "a b,:", "->", [⟨"1", "->", "a b,:", "H", .left⟩]⟩ = .ok m ∧
        m.addText text = (.ok (), { m with table := t }) ∧
        t.rules = [⟨"1", "->", "a b,:", "H", .left⟩, ⟨"a b,:", "DEF", "1", "->", .right⟩,
          ⟨"R", "H", "R", "H", .halt⟩] := by
  have hrules : confusable.mapM (Rule.encode "a b,:") =
      .ok ["DEF DEF -> 1 -> R", "1 -> -> DEF H L", "R H -> R H STOP"] := by
    decide +kernel
  have hspace : Padding [' '] := by simp [Padding]
  have htab : Padding ['\t'] := by simp [Padding]
  have hlines : Grammar.SeparatorText " \r\n\t\n".toList :=
    ⟨[['\r', '\n'], ['\n']], .lines ⟨by simp, by simp [Grammar.LineEnd.lf, Grammar.LineEnd.crlf]⟩,
      .cons hspace (.cons htab (.nil padding_nil))⟩
  have hcomma : Grammar.SeparatorText "\t, ".toList :=
    ⟨[[',']], .comma, .cons htab (.nil hspace)⟩
  have hjoined : Grammar.Joined ["DEF DEF -> 1 -> R", "1 -> -> DEF H L", "R H -> R H STOP"]
      "DEF DEF -> 1 -> R \r\n\t\n1 -> -> DEF H L\t, R H -> R H STOP".toList :=
    .cons hlines (.cons hcomma (.one _))
  obtain ⟨hparse, hadd⟩ := joined_rules_read_back hrules hjoined
  obtain ⟨m, hm⟩ : ∃ m, Machine.ofProgram
      ⟨["1"], 0, "a b,:", "->", [⟨"1", "->", "a b,:", "H", .left⟩]⟩ = .ok m := ⟨_, rfl⟩
  have hblank : m.tape.blank = "a b,:" := by
    cases hm
    rfl
  have htable : m.table.rules = [⟨"1", "->", "a b,:", "H", .left⟩] := by
    cases hm
    rfl
  obtain ⟨t, ht, htext⟩ := (hadd m hblank).2 (by rw [htable]; decide)
  refine ⟨_, _, hrules, rfl, hjoined, hparse, m, t, hm, htext, ?_⟩
  rw [ht, htable]
  decide

end TapeCompiler
