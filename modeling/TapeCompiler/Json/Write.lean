import TapeCompiler.Json.Text
import TapeCompiler.Program

/-!
# Writing programs as JSON

Documents are written over several lines, two spaces deeper inside every bracket.
-/

namespace TapeCompiler

namespace Json

/-- Lines at a depth. -/
def indent (depth : Nat) : String := String.ofList (List.replicate (2 * depth) ' ')

/-- Entries between brackets, each on a line of its own. -/
def writeBlock (opening closing : String) (depth : Nat) (entries : List String) : String :=
  if entries = [] then opening ++ closing
  else
    opening ++ "\n" ++ ",\n".intercalate (entries.map fun e => indent (depth + 1) ++ e) ++ "\n" ++
      indent depth ++ closing

/-- A list of values as written. -/
def writeList (depth : Nat) (entries : List String) : String := writeBlock "[" "]" depth entries

/-- An object of keys with values as written. -/
def writeObject (depth : Nat) (fields : List (String × String)) : String :=
  writeBlock "\x7b" "\x7d" depth (fields.map fun (key, value) => writeString key ++ ": " ++ value)

/-- A rule as written. -/
def writeRule (depth : Nat) (r : Rule) : String :=
  writeObject depth [
    ("value", writeString r.value),
    ("state", writeString r.state),
    ("next_value", writeString r.write),
    ("next_state", writeString r.next),
    ("action", writeString r.action.name)]

end Json

open Json in
/-- The JSON document of a program. -/
def Program.toJson (p : Program) : String :=
  writeObject 0 [
    ("tape", writeList 1 (p.cells.map writeString)),
    ("index", toString p.head),
    ("default", writeString p.blank),
    ("initial_state", writeString p.start),
    ("rules", writeList 1 (p.rules.map (writeRule 2)))]

end TapeCompiler
