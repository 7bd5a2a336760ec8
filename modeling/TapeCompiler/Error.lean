import TapeCompiler.Condition
import TapeCompiler.Json.Fault
import TapeCompiler.Text.Report

/-!
# Errors

Every refusal of the library is a value of `Error`. An error is a cause; its wording is in `message`
alone, and `kind` sorts the causes into six kinds.
-/

namespace TapeCompiler

/-- The parts of a program that have to be writable. -/
inductive Role where
  | value
  | state
  | cell
  | filler
  deriving DecidableEq, Repr

namespace Role

/-- The word for a role. -/
def word : Role → String
  | value => "value"
  | state => "state"
  | cell => "tape cell"
  | filler => "filler"

end Role

/-- The lists of a branch move that have one entry per path. -/
inductive BranchPart where
  | writes
  | expected
  | targets
  deriving DecidableEq, Repr

namespace BranchPart

/-- The words for the entries of a list. -/
def word : BranchPart → String
  | writes => "values to write"
  | expected => "supposed values"
  | targets => "next states"

end BranchPart

/-- Requests that make no sense as they are given. -/
inductive Misuse where
  | action (text : String)
  | unwritable (role : Role) (symbol : Symbol)
  | noCells
  | alphabet (text : String)
  | label (text : Symbol)
  | lastLabel (text : Symbol)
  | pairing (values states : Nat)
  | spread (given : Nat) (part : BranchPart) (paths : Nat)
  | noValues
  | scanDirection (direction : Action)
  | noTerminal
  | notOneTerminal (operation : String)
  | transferDirection (direction : Action)
  | noSource
  | boundaryTwice (symbol : Symbol)
  | boundaryInside (symbol : Symbol)
  | blankAfter (symbol : Symbol)
  | json (fault : Json.Fault)
  deriving DecidableEq, Repr

namespace Misuse

/-- The words for a misuse. -/
def message : Misuse → String
  | action text => "wrong action '" ++ text ++ "', must be one of 'R', 'L', 'S' or 'STOP'"
  | unwritable role symbol => "The " ++ role.word ++ " '" ++ symbol ++ "' has no textual encoding"
  | noCells => "A program needs at least one tape cell"
  | alphabet text => "Alphabet '" ++ text ++ "' has no character a name can start with"
  | label text => "Disallowed template label: '" ++ text ++ "'"
  | lastLabel text => "Template label '" ++ text ++ "' has no successor"
  | pairing values states =>
    toString values ++ " values paired with " ++ toString states ++ " states"
  | spread given part paths =>
    toString given ++ " " ++ part.word ++ " for a branch of " ++ toString paths ++ " states"
  | noValues => "parallelise_by_vals needs at least one value"
  | scanDirection d => "A traversal must move left or right, not '" ++ d.code ++ "'"
  | noTerminal => "A traversal needs at least one terminal value"
  | notOneTerminal operation => operation ++ " needs exactly one terminal value"
  | transferDirection d => "Range transfer can not go '" ++ d.code ++ "'"
  | noSource => "Range transfer needs at least one source value"
  | boundaryTwice s => "Boundary '" ++ s ++ "' is used twice"
  | boundaryInside s => "Boundary '" ++ s ++ "' is also an interior value"
  | blankAfter s => "The filler '" ++ s ++ "' can not follow the destination"
  | json fault => "Invalid program JSON: " ++ fault.describe

end Misuse

/-- Ways in which a cursor does not fit an operation. -/
inductive Unsettled where
  | stale (current : Condition)
  | shape (operation : String) (wanted : Shape) (current : Condition)
  | joinInPlace (current : Condition)
  deriving DecidableEq, Repr

namespace Unsettled

/-- The words for an unsettled cursor. -/
def message : Unsettled → String
  | stale current =>
    "cursor " ++ current.render ++ " is stale after a manual rule, set it first"
  | shape operation wanted current =>
    operation ++ " needs a " ++ wanted.word ++ " cursor, found " ++ current.shape.word ++ " " ++
      current.render
  | joinInPlace current => "join of " ++ current.render ++ " can not stay in the previous state"

end Unsettled

/-- The reasons for which a file system refuses a request. -/
inductive SystemFault where
  | missing
  | notDirectory
  | isDirectory
  | notText
  deriving DecidableEq, Repr

namespace SystemFault

/-- The words for a refusal of the file system. -/
def message : SystemFault → String
  | missing => "No such file or directory (os error 2)"
  | notDirectory => "Not a directory (os error 20)"
  | isDirectory => "Is a directory (os error 21)"
  | notText => "stream did not contain valid UTF-8"

end SystemFault

/-- Requests on files that fail. -/
inductive FileFault where
  | read (path : String) (reason : SystemFault)
  | write (path : String) (reason : SystemFault)
  | noDirectory (path : String)
  | list (path : String) (reason : SystemFault)
  deriving DecidableEq, Repr

namespace FileFault

/-- The words for a failed request on files. -/
def message : FileFault → String
  | read path reason => "Failed to read file " ++ path ++ ": " ++ reason.message
  | write path reason => "Failed to write file " ++ path ++ ": " ++ reason.message
  | noDirectory path => "Directory " ++ path ++ " does not exist"
  | list path reason => "Failed to read directory " ++ path ++ ": " ++ reason.message

end FileFault

/-- All that can be refused. -/
inductive Error where
  /-- A request that makes no sense as it is given. -/
  | misuse (cause : Misuse)
  /-- A text that is no program, or no list of rules. -/
  | unreadable (report : Text.Report)
  /-- A second rule for the situation of another one, with another outcome. -/
  | conflict (existing requested : Rule)
  /-- A cursor that does not fit the operation. -/
  | unsettled (cause : Unsettled)
  /-- A situation for which the table holds no rule. -/
  | missingRule (value state : Symbol) (rules : List Rule)
  /-- A failed request on files. -/
  | file (fault : FileFault)
  /-- The failure to load one of several files. -/
  | load (path : String) (cause : Error)
  deriving DecidableEq, Repr

namespace Error

/-- The kinds of errors. -/
inductive Kind where
  | configuration
  | parse
  | conflict
  | undetermined
  | missingRule
  | file
  deriving DecidableEq, Repr

/-- The kind of an error. -/
def kind : Error → Kind
  | misuse _ => .configuration
  | unreadable _ => .parse
  | conflict .. => .conflict
  | unsettled _ => .undetermined
  | missingRule .. => .missingRule
  | file _ => .file
  | load .. => .file

/-- The words for an error. -/
def message : Error → String
  | misuse cause => "Configuration error: " ++ cause.message
  | unreadable report => "Program parsing error: " ++ report.render
  | conflict existing requested =>
    "Rule with value '" ++ requested.value ++ "' and state '" ++ requested.state ++
      "' already exists: " ++ existing.render ++ " (requested: " ++ requested.render ++ ")"
  | unsettled cause => "Undetermined state: " ++ cause.message
  | missingRule value state rules =>
    "No rule for value '" ++ value ++ "' in state '" ++ state ++
      "', rules on this machine:\n" ++ "\n".intercalate (rules.map Rule.render)
  | file fault => "File error: " ++ fault.message
  | load path cause => "File error: Failed to load program from " ++ path ++ ": " ++ cause.message

end Error

end TapeCompiler
