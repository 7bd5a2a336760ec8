import TapeCompiler.Files.Store
import TapeCompiler.Json.Read
import TapeCompiler.Json.Write
import TapeCompiler.Program.Encode
import TapeCompiler.Program.Parse

/-!
# Programs in files

A file with the extension `json` holds a program as JSON, any other its text form with a rule on
every line. The programs of a directory are those of its files with the extensions `tm` and `json`.
-/

namespace TapeCompiler

/-- The forms in which a program is kept in a file. -/
inductive Format where
  | text
  | json
  deriving DecidableEq, Repr

namespace Format

/-- The format of a file by its extension. -/
def ofPath (path : String) : Format := if Path.extension? path = some "json" then json else text

/-- Writes a program. -/
def write (p : Program) : Format → Except Error String
  | text => p.encodeLines
  | json => .ok p.toJson

/-- Reads a program. -/
def read (content : String) : Format → Except Error Program
  | text => Program.parse content
  | json => Program.ofJson content

end Format

namespace Files

/-- The program in a file. -/
def load (files : Files) (path : String) : Except Error Program :=
  match files.readText path with
  | .ok content => (Format.ofPath path).read content
  | .error reason => .error (.file (.read path reason))

/-- Writes a program to a file. A program that cannot be written leaves the file alone. -/
def save (files : Files) (path : String) (p : Program) : Except Error Unit × Files :=
  match (Format.ofPath path).write p with
  | .error e => (.error e, files)
  | .ok content =>
    match files.write path content.toUTF8 with
    | (.ok _, files') => (.ok (), files')
    | (.error reason, files') => (.error (.file (.write path reason)), files')

/-- Whether an entry of a directory is to be loaded with it. -/
def isProgram (files : Files) (path : String) : Bool :=
  !files.isDirectory path && (Path.extension? path).any fun e => e == "tm" || e == "json"

/-- The program in one of several files, with its path. -/
def loadOne (files : Files) (path : String) : Except Error (String × Program) :=
  match files.load path with
  | .ok p => .ok (path, p)
  | .error e => .error (.load path e)

/-- The failures of a list of results. -/
def failures (results : List (Except Error (String × Program))) : List Error :=
  results.filterMap fun
    | .error e => some e
    | .ok _ => none

/-- The programs of a list of results. -/
def programs (results : List (Except Error (String × Program))) : List (String × Program) :=
  results.filterMap fun
    | .error _ => none
    | .ok loaded => some loaded

/-- The path that a result is sorted by. A failure has none. -/
def sortPath? : Except Error (String × Program) → Option String
  | .ok (path, _) => some path
  | .error _ => none

/-- Whether a path may stand in front of another one. A missing path is in front of all. -/
def precedes : Option String → Option String → Bool
  | none, _ => true
  | some _, none => false
  | some a, some b => decide (a ≤ b)

/-- The results in the order of their paths. Results with the same path, such as all failures, stay
in the order in which they are. -/
def arrange (results : List (Except Error (String × Program))) :
    List (Except Error (String × Program)) :=
  results.mergeSort fun r r' => precedes (sortPath? r) (sortPath? r')

/-- Loads the programs among the given entries of a directory, in whatever order these are listed.
-/
def loadEntries (files : Files) (directory : String) (names : List String) :
    List (Except Error (String × Program)) :=
  arrange (((names.map (Path.join directory)).filter files.isProgram).map files.loadOne)

/-- Loads the programs of a directory. -/
def loadAll (files : Files) (directory : String) : List (Except Error (String × Program)) :=
  if files.contains directory then
    match files.list directory with
    | .ok names => files.loadEntries directory names
    | .error reason => [.error (.file (.list directory reason))]
  else [.error (.file (.noDirectory directory))]

end Files

end TapeCompiler
