import TapeCompiler.Error

/-!
# Transition tables

A table is a list of rules of which no two share a value and a state, in the order in which they
were added. It is a partial function from situations to transitions: `lookup`. Adding a rule that is
present changes nothing, and one that contradicts another is refused.
-/

namespace TapeCompiler

/-- Rules with distinct keys. -/
structure Table where
  rules : List Rule
  distinct : (rules.map Rule.key).Nodup
  deriving DecidableEq, Repr

namespace Table

/-- The table without rules. -/
def empty : Table := ⟨[], by simp⟩

instance : EmptyCollection Table := ⟨empty⟩

/-- The rule for a situation. -/
def find? (t : Table) (value state : Symbol) : Option Rule :=
  t.rules.find? fun r => r.key == (value, state)

/-- What to do in a situation. -/
def lookup (t : Table) (value state : Symbol) : Option Transition :=
  (t.find? value state).map Rule.transition

/-- The number of rules. -/
def size (t : Table) : Nat := t.rules.length

theorem key_notMem_of_find? {t : Table} {r : Rule} (h : t.find? r.value r.state = none) :
    r.key ∉ t.rules.map Rule.key := by
  simp only [find?, List.find?_eq_none, beq_iff_eq] at h
  intro hm
  obtain ⟨s, hs, hk⟩ := List.mem_map.mp hm
  exact h s hs hk

theorem nodup_append_key {t : Table} {r : Rule} (h : t.find? r.value r.state = none) :
    ((t.rules ++ [r]).map Rule.key).Nodup := by
  rw [List.map_append, List.nodup_append]
  refine ⟨t.distinct, by simp, ?_⟩
  intro a ha b hb hab
  simp only [List.map_cons, List.map_nil, List.mem_singleton] at hb
  subst hb hab
  exact key_notMem_of_find? h ha

/-- Adds a rule at the end. -/
def insert (t : Table) (r : Rule) : Except Error Table :=
  match h : t.find? r.value r.state with
  | some existing =>
    if existing.transition = r.transition then .ok t else .error (.conflict existing r)
  | none => .ok ⟨t.rules ++ [r], nodup_append_key h⟩

/-- Adds rules one by one up to the first that is refused. The table holds those before it. -/
def insertAll (t : Table) : List Rule → Except Error Unit × Table
  | [] => (.ok (), t)
  | r :: rs =>
    match t.insert r with
    | .ok t' => t'.insertAll rs
    | .error e => (.error e, t)

/-- The table of the first `n` rules. -/
def truncate (t : Table) (n : Nat) : Table :=
  ⟨t.rules.take n, t.distinct.sublist ((List.take_sublist n t.rules).map Rule.key)⟩

/-- The table of a list of rules, if no two of them contradict each other. -/
def ofRules (rules : List Rule) : Except Error Table :=
  match empty.insertAll rules with
  | (.ok _, t) => .ok t
  | (.error e, _) => .error e

theorem find?_eq_some_iff {t : Table} {v s : Symbol} {r : Rule} :
    t.find? v s = some r ↔ r ∈ t.rules ∧ r.value = v ∧ r.state = s := by
  constructor
  · intro h
    rw [find?] at h
    have hk := List.find?_some h
    simp only [Rule.key, beq_iff_eq, Prod.mk.injEq] at hk
    exact ⟨List.mem_of_find?_eq_some h, hk⟩
  · rintro ⟨hr, rfl, rfl⟩
    have unique : ∀ l : List Rule, (l.map Rule.key).Nodup → r ∈ l →
        l.find? (fun x => x.key == (r.value, r.state)) = some r := by
      intro l hl hr
      induction l with
      | nil => simp at hr
      | cons x l ih =>
        rw [List.map_cons, List.nodup_cons] at hl
        rcases List.mem_cons.mp hr with rfl | hr
        · simp [Rule.key]
        · have hx : (x.key == (r.value, r.state)) = false := by
            rw [beq_eq_false_iff_ne]
            intro hxr
            exact hl.1 (hxr ▸ List.mem_map_of_mem hr)
          rw [List.find?_cons, hx]
          exact ih hl.2 hr
    exact unique t.rules t.distinct hr

end Table

end TapeCompiler
