import TapeCompiler.Distinct
import TapeCompiler.Table

/-!
# What a table takes in

A rule that is offered to a table is either present, or for a situation about which the table says
nothing, or it contradicts the rule that is there for its situation. `Table.insert_cases` says what
is done in each of these cases, and the other statements on adding rules follow from it.

Of several rules a table takes in those before the first that contradicts an earlier one, each of
them once, and puts them behind its own in the order in which they are given.
-/

namespace TapeCompiler.Table

variable {t t' : Table} {v q : Symbol} {r : Rule}

theorem ext_rules (h : t.rules = t'.rules) : t = t' := by
  cases t
  cases t'
  cases h
  rfl

/-- Dropping what was added to a table gives the table back. -/
theorem truncate_of_prefix (h : t.rules <+: t'.rules) : t'.truncate t.size = t := by
  apply ext_rules
  exact (List.prefix_iff_eq_take.mp h).symm

theorem nodup_rules (t : Table) : t.rules.Nodup := by
  apply List.Pairwise.of_map Rule.key _ t.distinct
  rintro r _ hkey rfl
  exact hkey rfl

/-! ## Situations -/

/-- Nothing is said about a situation. -/
def Free (t : Table) (v q : Symbol) : Prop := ∀ r ∈ t.rules, r.key ≠ (v, q)

/-- Nothing is said about a state. -/
def Unused (t : Table) (q : Symbol) : Prop := ∀ r ∈ t.rules, r.state ≠ q

theorem Unused.free (h : t.Unused q) (v : Symbol) : t.Free v q := by
  intro r hr hkey
  exact h r hr (congrArg Prod.snd hkey)

theorem find?_eq_none_iff : t.find? v q = none ↔ t.Free v q := by
  rw [find?, List.find?_eq_none]
  simp only [beq_iff_eq]
  rfl

theorem lookup_eq_none_iff : t.lookup v q = none ↔ t.Free v q := by
  rw [lookup, Option.map_eq_none_iff, find?_eq_none_iff]

theorem lookup_eq_some_iff {x : Transition} :
    t.lookup v q = some x ↔ ∃ r ∈ t.rules, r.key = (v, q) ∧ r.transition = x := by
  simp only [lookup, Option.map_eq_some_iff, find?_eq_some_iff, Rule.key, Prod.mk.injEq, and_assoc]

theorem mem_rules_iff_lookup :
    r ∈ t.rules ↔ t.lookup r.value r.state = some r.transition := by
  rw [lookup_eq_some_iff]
  constructor
  · intro hr
    exact ⟨r, hr, rfl, rfl⟩
  · rintro ⟨r', hr', hkey, htransition⟩
    rw [← Rule.ext_parts hkey htransition]
    exact hr'

theorem exists_of_not_free (h : ¬t.Free v q) : ∃ r ∈ t.rules, r.key = (v, q) := by
  simpa [Free] using h

/-- A table has one rule for a situation. -/
theorem eq_of_key_eq {r' : Rule} (hr : r ∈ t.rules) (hr' : r' ∈ t.rules) (hkey : r.key = r'.key) :
    r = r' := by
  have hfind : t.find? r'.value r'.state = some r :=
    find?_eq_some_iff.mpr ⟨hr, congrArg Prod.fst hkey, congrArg Prod.snd hkey⟩
  rw [find?_eq_some_iff.mpr ⟨hr', rfl, rfl⟩] at hfind
  exact (Option.some.inj hfind).symm

theorem find?_of_prefix (h : t.rules <+: t'.rules) (hr : t.find? v q = some r) :
    t'.find? v q = some r := by
  obtain ⟨hmem, hkey⟩ := find?_eq_some_iff.mp hr
  exact find?_eq_some_iff.mpr ⟨h.subset hmem, hkey⟩

/-- Where a longer table says something else, it says something and the shorter one nothing. -/
theorem exists_mem_of_lookup_ne (h : t.rules <+: t'.rules)
    (hne : t'.lookup v q ≠ t.lookup v q) :
    ∃ r ∈ t'.rules, r ∉ t.rules ∧ r.key = (v, q) := by
  cases hfind : t.find? v q with
  | some r => exact absurd (by rw [lookup, lookup, hfind, find?_of_prefix h hfind]) hne
  | none =>
    cases hfind' : t'.find? v q with
    | none => exact absurd (by rw [lookup, lookup, hfind, hfind']) hne
    | some r =>
      obtain ⟨hmem, rfl, rfl⟩ := find?_eq_some_iff.mp hfind'
      exact ⟨r, hmem, fun hold => find?_eq_none_iff.mp hfind r hold rfl, rfl⟩

/-! ## One rule -/

/-- The three things that can happen to a rule. -/
theorem insert_cases (t : Table) (r : Rule) :
    (r ∈ t.rules ∧ t.insert r = .ok t) ∨
    (t.Free r.value r.state ∧ ∃ t', t.insert r = .ok t' ∧ t'.rules = t.rules ++ [r]) ∨
    ∃ existing ∈ t.rules, existing.key = r.key ∧ existing ≠ r ∧
      t.insert r = .error (.conflict existing r) := by
  rw [insert]
  split
  · rename_i existing h
    obtain ⟨hmem, hvalue, hstate⟩ := find?_eq_some_iff.mp h
    have hkey : existing.key = r.key := by rw [Rule.key, Rule.key, hvalue, hstate]
    by_cases htransition : existing.transition = r.transition
    · left
      rw [if_pos htransition]
      exact ⟨Rule.ext_parts hkey htransition ▸ hmem, rfl⟩
    · right; right
      rw [if_neg htransition]
      exact ⟨existing, hmem, hkey, fun heq => htransition (heq ▸ rfl), rfl⟩
  · rename_i h
    right; left
    exact ⟨find?_eq_none_iff.mp h, _, rfl, rfl⟩

/-- A rule that differs from the one for its situation is refused. -/
theorem insert_eq_conflict {existing : Rule} (hmem : existing ∈ t.rules)
    (hkey : existing.key = r.key) (hne : existing ≠ r) :
    t.insert r = .error (.conflict existing r) := by
  rcases t.insert_cases r with ⟨hr, -⟩ | ⟨hfree, -⟩ | ⟨existing', hmem', hkey', -, hinsert⟩
  · exact absurd (eq_of_key_eq hmem hr hkey) hne
  · exact absurd hkey (hfree existing hmem)
  · rw [hinsert, eq_of_key_eq hmem hmem' (hkey.trans hkey'.symm)]

theorem insert_of_mem (h : r ∈ t.rules) : t.insert r = .ok t := by
  rcases t.insert_cases r with ⟨-, hinsert⟩ | ⟨hfree, -⟩ | ⟨existing, hmem, hkey, hne, -⟩
  · exact hinsert
  · exact absurd rfl (hfree r h)
  · exact absurd (eq_of_key_eq hmem h hkey) hne

theorem Free.insert (h : t.Free r.value r.state) :
    ∃ t', t.insert r = .ok t' ∧ t'.rules = t.rules ++ [r] := by
  rcases t.insert_cases r with ⟨hr, -⟩ | ⟨-, hinsert⟩ | ⟨existing, hmem, hkey, -, -⟩
  · exact absurd rfl (h r hr)
  · exact hinsert
  · exact absurd hkey (h existing hmem)

/-- An accepted rule is put last, unless it was present. -/
theorem rules_of_insert (h : t.insert r = .ok t') : t'.rules = (t.rules ++ [r]).eraseDups := by
  rcases t.insert_cases r with ⟨hr, hinsert⟩ | ⟨-, t₁, hinsert, hrules⟩ | ⟨_, -, -, -, hinsert⟩
  · rw [hinsert] at h
    cases h
    have hremove : [r].removeAll t.rules = [] := by simp [List.removeAll, hr]
    rw [List.eraseDups_append, eraseDups_of_nodup t.nodup_rules, hremove, List.eraseDups_nil,
      List.append_nil]
  · rw [hinsert] at h
    cases h
    rw [← hrules, eraseDups_of_nodup t'.nodup_rules]
  · rw [hinsert] at h
    cases h

theorem prefix_of_insert (h : t.insert r = .ok t') : t.rules <+: t'.rules := by
  rw [rules_of_insert h, List.eraseDups_append, eraseDups_of_nodup t.nodup_rules]
  exact List.prefix_append _ _

theorem mem_of_insert {r' : Rule} (h : t.insert r = .ok t') :
    r' ∈ t'.rules ↔ r' ∈ t.rules ∨ r' = r := by
  rw [rules_of_insert h, List.mem_eraseDups, List.mem_append, List.mem_singleton]

/-- The next rule of a longer table can be inserted. -/
theorem exists_insert_of_append {rs : List Rule} (h : t'.rules = t.rules ++ r :: rs) :
    ∃ t₁, t.insert r = .ok t₁ ∧ t'.rules = t₁.rules ++ rs := by
  have hdistinct := t'.distinct
  rw [h, List.map_append, List.nodup_append] at hdistinct
  have hfree : t.Free r.value r.state := by
    intro r' hr'
    exact hdistinct.2.2 r'.key (List.mem_map_of_mem hr') r.key List.mem_cons_self
  obtain ⟨t₁, hinsert, hrules⟩ := hfree.insert
  exact ⟨t₁, hinsert, by rw [hrules, h, List.append_assoc, List.singleton_append]⟩

/-! ## Several rules -/

/-- Adding rules one by one takes in those before the first that contradicts an earlier one, or all
of them if there is none such. -/
theorem insertAll_cases (t : Table) (rs : List Rule) :
    ∃ taken rest, rs = taken ++ rest ∧
      (t.insertAll rs).2.rules = (t.rules ++ taken).eraseDups ∧
      ((rest = [] ∧ (t.insertAll rs).1 = .ok ()) ∨
        ∃ r ∈ rest.head?, ∃ existing ∈ t.rules ++ taken, existing.key = r.key ∧ existing ≠ r ∧
          (t.insertAll rs).1 = .error (.conflict existing r)) := by
  induction rs generalizing t with
  | nil =>
    refine ⟨[], [], rfl, ?_, .inl ⟨rfl, rfl⟩⟩
    rw [List.append_nil, eraseDups_of_nodup t.nodup_rules]
    rfl
  | cons r rs ih =>
    cases hinsert : t.insert r with
    | error e =>
      obtain ⟨existing, hmem, hkey, hne, hconflict⟩ :
          ∃ existing ∈ t.rules, existing.key = r.key ∧ existing ≠ r ∧
            t.insert r = .error (.conflict existing r) := by
        rcases t.insert_cases r with ⟨-, h⟩ | ⟨-, _, h, -⟩ | h
        · rw [hinsert] at h
          cases h
        · rw [hinsert] at h
          cases h
        · exact h
      have hall : t.insertAll (r :: rs) = (.error (.conflict existing r), t) := by
        rw [insertAll, hconflict]
      refine ⟨[], r :: rs, rfl, ?_, .inr ⟨r, rfl, existing, ?_, hkey, hne, ?_⟩⟩
      · rw [hall, List.append_nil, eraseDups_of_nodup t.nodup_rules]
      · rw [List.append_nil]
        exact hmem
      · rw [hall]
    | ok t' =>
      have hall : t.insertAll (r :: rs) = t'.insertAll rs := by rw [insertAll, hinsert]
      obtain ⟨taken, rest, hrs, hrules, hresult⟩ := ih t'
      -- what the table `t'` and the rules behind `r` take in is what `t` takes in
      have happend : (t'.rules ++ taken).eraseDups = (t.rules ++ r :: taken).eraseDups := by
        rw [rules_of_insert hinsert, eraseDups_append_eraseDups, List.append_assoc,
          List.singleton_append]
      refine ⟨r :: taken, rest, by rw [hrs, List.cons_append], by rw [hall, hrules, happend], ?_⟩
      rcases hresult with ⟨hrest, hok⟩ | ⟨r', hr', existing, hmem, hconflict⟩
      · exact .inl ⟨hrest, hall ▸ hok⟩
      · refine .inr ⟨r', hr', existing, ?_, hall ▸ hconflict⟩
        rw [← List.mem_eraseDups, ← happend, List.mem_eraseDups]
        exact hmem

/-- Adding rules up to one that is refused puts some of them behind the old ones. -/
theorem prefix_of_insertAll (t : Table) (rs : List Rule) :
    t.rules <+: (t.insertAll rs).2.rules := by
  obtain ⟨taken, -, -, hrules, -⟩ := t.insertAll_cases rs
  rw [hrules, List.eraseDups_append, eraseDups_of_nodup t.nodup_rules]
  exact List.prefix_append _ _

theorem mem_of_insertAll {rs : List Rule} (h : r ∈ (t.insertAll rs).2.rules) :
    r ∈ t.rules ∨ r ∈ rs := by
  obtain ⟨taken, rest, hrs, hrules, -⟩ := t.insertAll_cases rs
  rw [hrules, List.mem_eraseDups, List.mem_append] at h
  rw [hrs, List.mem_append]
  exact h.imp_right .inl

/-- Rules that a table is known to hold can be added one by one. -/
theorem insertAll_of_append {rs : List Rule} (h : t'.rules = t.rules ++ rs) :
    t.insertAll rs = (.ok (), t') := by
  induction rs generalizing t with
  | nil =>
    rw [List.append_nil] at h
    rw [insertAll, ext_rules h]
  | cons r rs ih =>
    obtain ⟨t₁, hinsert, hrest⟩ := exists_insert_of_append h
    rw [insertAll, hinsert]
    exact ih hrest

theorem ofRules_eq_ok {rs : List Rule} :
    ofRules rs = .ok t ↔ empty.insertAll rs = (.ok (), t) := by
  rw [ofRules]
  cases empty.insertAll rs with
  | mk result t' => cases result <;> simp

/-- The rules of a table make the same table again. -/
theorem ofRules_rules (t : Table) : ofRules t.rules = .ok t :=
  ofRules_eq_ok.mpr (insertAll_of_append rfl)

theorem mem_of_ofRules {rs : List Rule} (h : ofRules rs = .ok t) (hr : r ∈ t.rules) : r ∈ rs := by
  have hall : r ∈ (empty.insertAll rs).2.rules := by
    rw [ofRules_eq_ok.mp h]
    exact hr
  exact (mem_of_insertAll hall).resolve_left List.not_mem_nil

end TapeCompiler.Table
