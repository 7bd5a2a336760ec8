/-!
# Paths

A path is a text whose parts are divided by slashes. Empty parts and single dots lead nowhere, and a
double dot leads to the enclosing directory. A place is where a path leads: the names on the way
from where it starts, the last one first. A path that begins with a slash starts at the root, any
other in the working directory. Where the working directory is under the root is left open.
-/

namespace TapeCompiler

/-- The names that lead to a file or directory, innermost first. Double dots at the outer end stand
for the directories around the working directory, and an empty name there for the root. -/
abbrev Place := List String

namespace Place

/-- The root. Its name is what is in front of the first slash of a path that begins with one. -/
def root : Place := [""]

/-- The place around a place. There is none around the root. -/
def parent : Place → Place
  | [] => [".."]
  | name :: outer =>
    if name = ".." then ".." :: name :: outer
    else if name = "" then root
    else outer

/-- The place to which a part of a path leads. -/
def enter (place : Place) (part : String) : Place :=
  if part = "" ∨ part = "." then place
  else if part = ".." then place.parent
  else part :: place

/-- Whether a place is the working directory, one around it or the root. -/
def isOutermost (place : Place) : Bool := place.all (· == "..") || place == root

end Place

namespace Path

/-- The parts of a path. -/
def parts (path : String) : List String := (path.toList.splitOn '/').map String.ofList

/-- The place from which a path leads on. -/
def start (path : String) : Place := if path.toList.head? = some '/' then Place.root else []

/-- The place to which a path leads if all its parts are there. -/
def place (path : String) : Place := (parts path).foldl Place.enter (start path)

/-- The path of an entry of a directory. -/
def join (directory name : String) : String :=
  if directory = "" then name
  else if directory.toList.getLast? = some '/' then directory ++ name
  else directory ++ "/" ++ name

/-- The part of a name behind its last dot. A dot in front of all other characters does not count.
-/
def extensionOf (name : String) : Option String :=
  let backwards := name.toList.reverse
  match backwards.dropWhile (· != '.') with
  | [] | [_] => none
  | _ :: _ :: _ => some (String.ofList (backwards.takeWhile (· != '.')).reverse)

/-- The name at the end of a path. -/
def name? (path : String) : Option String :=
  match (parts path).reverse.find? fun part => part != "" && part != "." with
  | some part => if part = ".." then none else some part
  | none => none

/-- The extension of the name at the end of a path. -/
def extension? (path : String) : Option String := (name? path).bind extensionOf

end Path

end TapeCompiler
