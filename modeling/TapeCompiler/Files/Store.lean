import TapeCompiler.Error
import TapeCompiler.Files.Path

/-!
# Files and directories

A store maps places to files, with their bytes, and to directories. The root, the working directory
and those around it are always there. Requests name places by paths, and every part of a path but
the last has to lead to a directory.

`find?` is the meaning of a store, and `find?_put` says what the one operation that changes an entry
does to it.
-/

namespace TapeCompiler

/-- What is at a place. -/
inductive Files.Entry where
  | file (bytes : ByteArray)
  | directory

/-- Whether an entry is a directory. -/
def Files.Entry.isDirectory : Files.Entry → Bool
  | file _ => false
  | directory => true

/-- Files and directories by their places, of which no two are alike. -/
structure Files where
  entries : List (Place × Files.Entry)
  distinct : (entries.map Prod.fst).Nodup

namespace Files

/-- A store with an empty working directory. -/
def empty : Files := ⟨[], by simp⟩

/-- What is at a place. -/
def find? (files : Files) (place : Place) : Option Entry :=
  if place.isOutermost then some .directory else files.entries.lookup place

theorem nodup_cons_filter (files : Files) (place : Place) (entry : Entry) :
    (((place, entry) :: files.entries.filter (·.1 != place)).map Prod.fst).Nodup := by
  rw [List.map_cons, List.nodup_cons]
  constructor
  · simp
  · exact files.distinct.sublist (List.filter_sublist.map _)

/-- The store with an entry at a place, instead of the one that was there. -/
def put (files : Files) (place : Place) (entry : Entry) : Files :=
  ⟨(place, entry) :: files.entries.filter (·.1 != place), nodup_cons_filter files place entry⟩

theorem lookup_filter_ne {place other : Place} (h : other ≠ place)
    (entries : List (Place × Entry)) :
    (entries.filter (·.1 != place)).lookup other = entries.lookup other := by
  induction entries with
  | nil => rfl
  | cons e entries ih =>
    obtain ⟨p, a⟩ := e
    by_cases hp : p = place
    · subst hp
      rw [List.filter_cons_of_neg (by simp), ih, List.lookup_cons, beq_eq_false_iff_ne.mpr h]
    · rw [List.filter_cons_of_pos (by simpa using hp), List.lookup_cons, List.lookup_cons, ih]

/-- Putting an entry changes what is at one place. -/
theorem find?_put (files : Files) {place : Place} (h : place.isOutermost = false) (entry : Entry)
    (other : Place) :
    (files.put place entry).find? other =
      if other = place then some entry else files.find? other := by
  by_cases ho : other = place
  · subst ho
    simp only [find?, put, h, List.lookup_cons, BEq.rfl, if_true, Bool.false_eq_true, if_false]
  · simp only [find?, put, List.lookup_cons, beq_eq_false_iff_ne.mpr ho, if_neg ho,
      lookup_filter_ne ho]

/-- The store with a directory at a place that is free, and with those around it. -/
def makeDirectory (files : Files) : Place → Files
  | [] => files
  | name :: outer =>
    let files := files.makeDirectory outer
    if (files.find? (name :: outer)).isSome then files else files.put (name :: outer) .directory

/-- The store with an entry at a place and with the directories around it. -/
def install (files : Files) (place : Place) (entry : Entry) : Files :=
  match entry with
  | .directory => files.makeDirectory place
  | .file bytes => (files.makeDirectory place.parent).put place (.file bytes)

/-- Refuses a place where there is no directory. -/
def requireDirectory (files : Files) (place : Place) : Except SystemFault Unit :=
  match files.find? place with
  | none => .error .missing
  | some (.file _) => .error .notDirectory
  | some .directory => .ok ()

/-- The place to which parts lead from a place. There has to be a directory before every part. -/
def walk (files : Files) : Place → List String → Except SystemFault Place
  | place, [] => .ok place
  | place, part :: rest => do
    files.requireDirectory place
    files.walk (place.enter part) rest

/-- The place to which a path leads. The empty path leads nowhere. -/
def locate (files : Files) (path : String) : Except SystemFault Place :=
  if path = "" then .error .missing else files.walk (Path.start path) (Path.parts path)

/-- The bytes of a file. -/
def read (files : Files) (path : String) : Except SystemFault ByteArray := do
  match files.find? (← files.locate path) with
  | none => .error .missing
  | some .directory => .error .isDirectory
  | some (.file bytes) => .ok bytes

/-- The text of a file. -/
def readText (files : Files) (path : String) : Except SystemFault String := do
  match String.fromUTF8? (← files.read path) with
  | some text => .ok text
  | none => .error .notText

/-- The place at which a file can be written. Its directory has to be there, its path has to end
with a name, and no directory may have that name. A path of slashes only is that of the root. -/
def writable (files : Files) (path : String) : Except SystemFault Place := do
  let backwards := (Path.parts path).reverse
  match backwards.dropWhile (· == "") with
  | [] => .error (if path = "" then .missing else .isDirectory)
  | last :: outer =>
    let directory ← files.walk (Path.start path) outer.reverse
    files.requireDirectory directory
    if last = "." ∨ last = ".." ∨ backwards.head? = some "" then .error .isDirectory
    else if (files.find? (last :: directory)).any Entry.isDirectory then .error .isDirectory
    else .ok (last :: directory)

/-- Writes a file, instead of the one that was there. -/
def write (files : Files) (path : String) (bytes : ByteArray) :
    Except SystemFault Unit × Files :=
  match files.writable path with
  | .ok place => (.ok (), files.put place (.file bytes))
  | .error e => (.error e, files)

/-- The names of the entries of a directory. -/
def list (files : Files) (path : String) : Except SystemFault (List String) := do
  let directory ← files.locate path
  files.requireDirectory directory
  pure (files.entries.filterMap fun (place, _) =>
    match place with
    | name :: outer => if outer = directory then some name else none
    | [] => none)

/-- Whether a path leads to a file or a directory. -/
def contains (files : Files) (path : String) : Bool :=
  match files.locate path with
  | .ok place => (files.find? place).isSome
  | .error _ => false

/-- Whether a path leads to a directory. -/
def isDirectory (files : Files) (path : String) : Bool :=
  match files.locate path with
  | .ok place => (files.find? place).any Entry.isDirectory
  | .error _ => false

end Files

end TapeCompiler
