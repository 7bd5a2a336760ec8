/-!
# Symbols, actions and rules

A rule of a Turing machine says what to do when the head reads `value` in `state`: write `write`,
enter `next`, and carry out `action`. Tape values and states are both symbols, that is, texts.
-/

namespace TapeCompiler

/-- A tape value or a state. -/
abbrev Symbol := String

/-- The value that stands for the blank in written rules. -/
def blankSign : Symbol := "DEF"

/-- What the head does after writing. -/
inductive Action where
  | left
  | right
  | stay
  | halt
  deriving DecidableEq, Repr, Inhabited

namespace Action

/-- The code of an action in a written rule. -/
def code : Action → String
  | left => "L"
  | right => "R"
  | stay => "S"
  | halt => "STOP"

/-- The full name of an action. -/
def name : Action → String
  | left => "Left"
  | right => "Right"
  | stay => "Stay"
  | halt => "Halt"

/-- All actions, in the order in which they are listed to a reader. -/
def all : List Action := [left, right, stay, halt]

/-- The action with the given code. -/
def ofCode? (text : String) : Option Action := all.find? (·.code == text)

/-- The action with the given full name. -/
def ofName? (text : String) : Option Action := all.find? (·.name == text)

/-- The action that moves the other way; staying and halting have no other way. -/
def opposite : Action → Action
  | left => right
  | right => left
  | stay => stay
  | halt => halt

/-- Whether the action moves the head. -/
def moves : Action → Bool
  | left | right => true
  | stay | halt => false

/-- How far the action takes the head. -/
def offset : Action → Int
  | left => -1
  | right => 1
  | stay | halt => 0

@[simp] theorem ofCode?_code (a : Action) : ofCode? a.code = some a := by
  cases a <;> decide

@[simp] theorem ofName?_name (a : Action) : ofName? a.name = some a := by
  cases a <;> decide

@[simp] theorem opposite_opposite (a : Action) : a.opposite.opposite = a := by
  cases a <;> rfl

@[simp] theorem offset_opposite (a : Action) : a.opposite.offset = -a.offset := by
  cases a <;> rfl

end Action

/-- The outcome of a rule. -/
structure Transition where
  write : Symbol
  next : Symbol
  action : Action
  deriving DecidableEq, Repr

/-- One entry of a transition table. -/
structure Rule where
  value : Symbol
  state : Symbol
  write : Symbol
  next : Symbol
  action : Action
  deriving DecidableEq, Repr

namespace Rule

/-- The situation in which the rule applies. -/
def key (r : Rule) : Symbol × Symbol := (r.value, r.state)

/-- What the rule does. -/
def transition (r : Rule) : Transition := ⟨r.write, r.next, r.action⟩

/-- The rule as shown to a reader, its symbols as they are. -/
def render (r : Rule) : String :=
  r.value ++ " " ++ r.state ++ " -> " ++ r.write ++ " " ++ r.next ++ " " ++ r.action.code

/-- A rule is its key together with its transition. -/
theorem ext_parts {r s : Rule} (hk : r.key = s.key) (ht : r.transition = s.transition) : r = s := by
  cases r
  cases s
  simp_all [key, transition]

end Rule

end TapeCompiler
