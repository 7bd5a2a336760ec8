import TapeCompiler.Proofs.Insertion
import TapeCompiler.Table.Ledger

/-!
# The two stores of a ledger agree

`Ledger.Holds` ties a ledger to a table: its order is that of the rules, and its map is what the
table says. A ledger and its table go through additions and truncations side by side, with the same
refusals. So the two stores agree after any changes, and truncating a ledger to its former size takes
back exactly what was added since (`Ledger.stores_agree`).
-/

namespace TapeCompiler.Table

variable {t t' : Table} {r : Rule}

/-- A table with one more rule says something about one more situation. -/
theorem lookup_of_append (h : t'.rules = t.rules ++ [r]) (v q : Symbol) :
    t'.lookup v q = if (v, q) = r.key then some r.transition else t.lookup v q := by
  by_cases hkey : (v, q) = r.key
  · obtain ⟨rfl, rfl⟩ := Prod.mk.inj hkey
    have hmem : r ∈ t'.rules := by simp [h]
    rw [if_pos hkey, mem_rules_iff_lookup.mp hmem]
  · have hnone : [r].find? (fun r => r.key == (v, q)) = none := by simp [Ne.symm hkey]
    have hfind : t'.find? v q = t.find? v q := by
      rw [find?, h, List.find?_append, hnone, Option.or_none]
      rfl
    rw [if_neg hkey, lookup, lookup, hfind]

/-- A shorter table says nothing about the situations of the rules behind its own. -/
theorem lookup_truncate (t : Table) (n : Nat) (v q : Symbol) :
    (t.truncate n).lookup v q =
      if (v, q) ∈ (t.rules.drop n).map Rule.key then none else t.lookup v q := by
  split
  · rename_i hdropped
    have hdistinct := t.distinct
    rw [← List.take_append_drop n t.rules, List.map_append, List.nodup_append] at hdistinct
    refine lookup_eq_none_iff.mpr fun r hr => ?_
    exact hdistinct.2.2 r.key (List.mem_map_of_mem hr) _ hdropped
  · rename_i hkept
    have hnone : (t.rules.drop n).find? (fun r => r.key == (v, q)) = none :=
      List.find?_eq_none.mpr fun r hr hkey =>
        hkept (List.mem_map.mpr ⟨r, hr, eq_of_beq hkey⟩)
    have hfind : t.find? v q = (t.truncate n).find? v q := by
      rw [find?, ← List.take_append_drop n t.rules, List.find?_append, hnone, Option.or_none]
      rfl
    rw [lookup, lookup, hfind]

namespace Ledger

variable {l l' : Ledger}

/-- Situations are forgotten one by one. -/
theorem foldl_forget (transitions : Symbol × Symbol → Option Transition)
    (keys : List (Symbol × Symbol)) (key : Symbol × Symbol) :
    keys.foldl forget transitions key = if key ∈ keys then none else transitions key := by
  induction keys generalizing transitions with
  | nil => rfl
  | cons k keys ih =>
    rw [List.foldl_cons, ih, forget]
    by_cases hkey : key ∈ keys
    · simp [hkey]
    · simp [hkey]

/-- A ledger holds the rules of a table. -/
structure Holds (l : Ledger) (t : Table) : Prop where
  order : l.order = t.rules.map Rule.key
  transitions : ∀ v q, l.transitions (v, q) = t.lookup v q

theorem holds_empty : empty.Holds Table.empty := ⟨rfl, fun _ _ => rfl⟩

namespace Holds

/-- A table has one ledger. -/
theorem eq (h : l.Holds t) (h' : l'.Holds t) : l = l' := by
  have hmap : l.transitions = l'.transitions :=
    funext fun key => (h.transitions key.1 key.2).trans (h'.transitions key.1 key.2).symm
  have horder : l.order = l'.order := h.order.trans h'.order.symm
  cases l
  cases l'
  cases hmap
  cases horder
  rfl

theorem length_order (h : l.Holds t) : l.order.length = t.size := by
  rw [h.order, List.length_map, size]

/-- The rule that a ledger has for a situation is the one in the table. -/
theorem rule?_eq (h : l.Holds t) (v q : Symbol) : l.rule? (v, q) = t.find? v q := by
  rw [rule?, h.transitions, lookup, Option.map_map]
  cases hfind : t.find? v q with
  | none => rfl
  | some r =>
    obtain ⟨-, rfl, rfl⟩ := find?_eq_some_iff.mp hfind
    rfl

theorem rule?_key (h : l.Holds t) (hr : r ∈ t.rules) : l.rule? r.key = some r :=
  (h.rule?_eq _ _).trans (find?_eq_some_iff.mpr ⟨hr, rfl, rfl⟩)

/-- The map knows all situations that are listed, and the rules are those of the table. -/
theorem rules?_eq (h : l.Holds t) : l.rules? = some t.rules := by
  have listed (rs : List Rule) (hrs : rs ⊆ t.rules) :
      (rs.map Rule.key).mapM l.rule? = some rs := by
    induction rs with
    | nil => rfl
    | cons r rs ih =>
      rw [List.cons_subset] at hrs
      simp [h.rule?_key hrs.1, ih hrs.2]
  rw [rules?, h.order]
  exact listed t.rules (List.Subset.refl _)

/-- A ledger refuses what its table refuses, and takes in what its table does. -/
theorem add (h : l.Holds t) (r : Rule) :
    (∃ l' t', l.add r = .ok l' ∧ t.insert r = .ok t' ∧ l'.Holds t') ∨
      ∃ e, l.add r = .error e ∧ t.insert r = .error e := by
  rcases t.insert_cases r with ⟨hr, hinsert⟩ | ⟨hfree, t', hinsert, hrules⟩ |
    ⟨existing, hmem, hkey, hne, hinsert⟩
  · left
    refine ⟨l, t, ?_, hinsert, h⟩
    rw [Ledger.add, h.rule?_key hr]
    exact if_pos rfl
  · left
    have hnone : l.rule? r.key = none := (h.rule?_eq _ _).trans (find?_eq_none_iff.mpr hfree)
    refine ⟨⟨record l.transitions r, l.order ++ [r.key]⟩, t', ?_, hinsert, ?_, fun v q => ?_⟩
    · rw [Ledger.add, hnone]
    · simp [hrules, h.order]
    · rw [lookup_of_append hrules, ← h.transitions]
      rfl
  · right
    refine ⟨_, ?_, hinsert⟩
    rw [Ledger.add, ← hkey, h.rule?_key hmem]
    exact if_neg fun heq => hne (Rule.ext_parts hkey heq)

theorem truncate (h : l.Holds t) (n : Nat) : (l.truncate n).Holds (t.truncate n) where
  order := by
    rw [Ledger.truncate, h.order, ← List.map_take]
    rfl
  transitions v q := by
    rw [Ledger.truncate, lookup_truncate, ← h.transitions, List.map_drop, ← h.order]
    exact foldl_forget _ _ _

theorem addAll (h : l.Holds t) (rs : List Rule) :
    (l.addAll rs).1 = (t.insertAll rs).1 ∧ (l.addAll rs).2.Holds (t.insertAll rs).2 := by
  induction rs generalizing l t with
  | nil => exact ⟨rfl, h⟩
  | cons r rs ih =>
    rw [Ledger.addAll, insertAll]
    rcases h.add r with ⟨l', t', hadd, hinsert, h'⟩ | ⟨e, hadd, hinsert⟩
    · rw [hadd, hinsert]
      exact ih h'
    · rw [hadd, hinsert]
      exact ⟨rfl, h⟩

/-- Truncating to the former size takes back what was added, in both stores. -/
theorem truncate_addAll (h : l.Holds t) (rs : List Rule) :
    (l.addAll rs).2.truncate l.order.length = l := by
  have hback := (h.addAll rs).2.truncate l.order.length
  rw [h.length_order, truncate_of_prefix (t.prefix_of_insertAll rs)] at hback
  rw [h.length_order]
  exact hback.eq h

theorem undergo (h : l.Holds t) (change : Change) : ∃ t', (l.undergo change).Holds t' := by
  cases change with
  | add r =>
    rw [Ledger.undergo]
    rcases h.add r with ⟨l', t', hadd, -, h'⟩ | ⟨e, hadd, -⟩
    · rw [hadd]
      exact ⟨t', h'⟩
    · rw [hadd]
      exact ⟨t, h⟩
  | truncate n => exact ⟨_, h.truncate n⟩

theorem after (h : l.Holds t) (changes : List Change) : ∃ t', (l.after changes).Holds t' := by
  induction changes generalizing l t with
  | nil => exact ⟨t, h⟩
  | cons change changes ih =>
    obtain ⟨t', h'⟩ := h.undergo change
    exact ih h'

end Holds

/-- **The two stores agree after any changes.** The order lists each situation that the map knows,
and no other, once. So the rules can be listed, and they are the ones that the map gives. Rules that
are added are taken back, in both stores, by truncating to the former size. -/
theorem stores_agree (changes : List Change) :
    let l := empty.after changes
    l.order.Nodup ∧ (∀ key, key ∈ l.order ↔ (l.transitions key).isSome) ∧
      (∃ rules, l.rules? = some rules ∧ rules.map Rule.key = l.order ∧
        ∀ r, r ∈ rules ↔ l.transitions r.key = some r.transition) ∧
      ∀ rs, (l.addAll rs).2.truncate l.order.length = l := by
  intro l
  obtain ⟨t, h⟩ : ∃ t, l.Holds t := holds_empty.after changes
  refine ⟨?_, ?_, ⟨t.rules, h.rules?_eq, h.order.symm, ?_⟩, h.truncate_addAll⟩
  · rw [h.order]
    exact t.distinct
  · rintro ⟨v, q⟩
    rw [h.order, h.transitions, Option.isSome_iff_exists, List.mem_map]
    simp only [lookup_eq_some_iff]
    constructor
    · rintro ⟨r, hr, hkey⟩
      exact ⟨r.transition, r, hr, hkey, rfl⟩
    · rintro ⟨-, r, hr, hkey, -⟩
      exact ⟨r, hr, hkey⟩
  · intro r
    rw [mem_rules_iff_lookup, ← h.transitions]
    rfl

end Ledger

end TapeCompiler.Table
