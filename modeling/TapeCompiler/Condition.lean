import TapeCompiler.Rule

/-!
# Conditions

A condition says where a program under construction may be: which value is under the head, in which
state. `single` is one such pair, `branch` one value in several states, `pairs` a list of values
matched with a list of states.
-/

namespace TapeCompiler

/-- The three forms of a condition. -/
inductive Shape where
  | single
  | branch
  | pairs
  deriving DecidableEq, Repr

namespace Shape

/-- The word for a shape. -/
def word : Shape → String
  | single => "single"
  | branch => "branch"
  | pairs => "pairs"

end Shape

/-- The values and states a program under construction may be in. -/
inductive Condition where
  | single (value state : Symbol)
  | branch (value : Symbol) (states : List Symbol)
  | pairs (values states : List Symbol)
  deriving DecidableEq, Repr

namespace Condition

/-- The form of a condition. -/
def shape : Condition → Shape
  | single .. => .single
  | branch .. => .branch
  | pairs .. => .pairs

/-- The values a condition names; a branch names its value once. -/
def values : Condition → List Symbol
  | single v _ => [v]
  | branch v _ => [v]
  | pairs vs _ => vs

/-- The states a condition names. -/
def states : Condition → List Symbol
  | single _ s => [s]
  | branch _ ss => ss
  | pairs _ ss => ss

/-- The situations a condition describes, as pairs of a value and a state. -/
def entries : Condition → List (Symbol × Symbol)
  | single v s => [(v, s)]
  | branch v ss => ss.map fun s => (v, s)
  | pairs vs ss => vs.zip ss

/-- Several symbols as shown to a reader. -/
def renderList (symbols : List Symbol) : String := "[" ++ ", ".intercalate symbols ++ "]"

/-- A condition as shown to a reader. -/
def render : Condition → String
  | single v s => "(" ++ v ++ ", " ++ s ++ ")"
  | branch v ss => "(" ++ v ++ ", " ++ renderList ss ++ ")"
  | pairs vs ss => "(" ++ renderList vs ++ ", " ++ renderList ss ++ ")"

/-- Several values that lead to one state: a single condition for one value, pairs otherwise. -/
def meeting (values : List Symbol) (state : Symbol) : Condition :=
  match values with
  | [v] => single v state
  | vs => pairs vs (List.replicate vs.length state)

@[simp] theorem entries_single (v s : Symbol) : (single v s).entries = [(v, s)] := rfl

@[simp] theorem mem_entries_branch {v : Symbol} {ss : List Symbol} {e : Symbol × Symbol} :
    e ∈ (branch v ss).entries ↔ e.1 = v ∧ e.2 ∈ ss := by
  obtain ⟨a, b⟩ := e
  simp only [entries, List.mem_map, Prod.mk.injEq]
  constructor
  · rintro ⟨s, hs, rfl, rfl⟩
    exact ⟨rfl, hs⟩
  · rintro ⟨rfl, hs⟩
    exact ⟨b, hs, rfl, rfl⟩

@[simp] theorem values_meeting (vs : List Symbol) (s : Symbol) : (meeting vs s).values = vs := by
  unfold meeting
  split <;> rfl

/-- A meeting of some values describes each of them in the one state. -/
theorem mem_entries_meeting {vs : List Symbol} {s : Symbol} {e : Symbol × Symbol} :
    e ∈ (meeting vs s).entries ↔ e.1 ∈ vs ∧ e.2 = s := by
  obtain ⟨a, b⟩ := e
  have zip_replicate : ∀ l : List Symbol,
      (a, b) ∈ l.zip (List.replicate l.length s) ↔ a ∈ l ∧ b = s := by
    intro l
    induction l with
    | nil => simp
    | cons x l ih =>
      simp only [List.length_cons, List.replicate_succ, List.zip_cons_cons, List.mem_cons,
        Prod.mk.injEq, ih]
      constructor
      · rintro (⟨rfl, rfl⟩ | ⟨h, rfl⟩)
        · exact ⟨.inl rfl, rfl⟩
        · exact ⟨.inr h, rfl⟩
      · rintro ⟨rfl | h, rfl⟩
        · exact .inl ⟨rfl, rfl⟩
        · exact .inr ⟨h, rfl⟩
  unfold meeting
  split
  · simp [entries]
  · exact zip_replicate vs

end Condition

end TapeCompiler
