import TapeCompiler.Table

/-!
# Tables in two stores

A ledger keeps a table in two places: a map that says what to do in a situation, and the situations
in the order in which they were added. Looking up needs only the map. Listing the rules, and going
back to the first of them, goes by the order, and both rely on the map to know the situations that
are listed there, and no others.
-/

namespace TapeCompiler.Table

/-- A map from situations to transitions, and its situations in the order of their addition. -/
structure Ledger where
  transitions : Symbol × Symbol → Option Transition
  order : List (Symbol × Symbol)

namespace Ledger

/-- A ledger without rules. -/
def empty : Ledger := ⟨fun _ => none, []⟩

/-- The rule for a situation. -/
def rule? (l : Ledger) (key : Symbol × Symbol) : Option Rule :=
  (l.transitions key).map fun x => ⟨key.1, key.2, x.write, x.next, x.action⟩

/-- The rules in the order of their addition, if the map knows all situations that are listed. -/
def rules? (l : Ledger) : Option (List Rule) := l.order.mapM l.rule?

/-- A map with one more rule. -/
def record (transitions : Symbol × Symbol → Option Transition) (r : Rule) :
    Symbol × Symbol → Option Transition :=
  fun key => if key = r.key then some r.transition else transitions key

/-- Adds a rule. -/
def add (l : Ledger) (r : Rule) : Except Error Ledger :=
  match l.rule? r.key with
  | some existing =>
    if existing.transition = r.transition then .ok l else .error (.conflict existing r)
  | none => .ok ⟨record l.transitions r, l.order ++ [r.key]⟩

/-- Adds rules one by one up to the first that is refused. -/
def addAll (l : Ledger) : List Rule → Except Error Unit × Ledger
  | [] => (.ok (), l)
  | r :: rs =>
    match l.add r with
    | .ok l' => l'.addAll rs
    | .error e => (.error e, l)

/-- A map without one of its situations. -/
def forget (transitions : Symbol × Symbol → Option Transition) (key : Symbol × Symbol) :
    Symbol × Symbol → Option Transition :=
  fun other => if other = key then none else transitions other

/-- The ledger of the first `n` rules. The situations behind them are taken out of the map one by
one. -/
def truncate (l : Ledger) (n : Nat) : Ledger where
  transitions := (l.order.drop n).foldl forget l.transitions
  order := l.order.take n

/-- Changes to a ledger. -/
inductive Change where
  | add (rule : Rule)
  | truncate (n : Nat)
  deriving DecidableEq, Repr

/-- The ledger after a change. A rule that is refused changes nothing. -/
def undergo (l : Ledger) : Change → Ledger
  | .add r =>
    match l.add r with
    | .ok l' => l'
    | .error _ => l
  | .truncate n => l.truncate n

/-- The ledger after several changes. -/
def after (l : Ledger) (changes : List Change) : Ledger := changes.foldl undergo l

end Ledger

end TapeCompiler.Table
