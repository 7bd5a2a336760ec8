import TapeCompiler.Files.Library
import TapeCompiler.Proofs.Document
import TapeCompiler.Proofs.RoundTrip

/-!
# Saving and loading

A program is saved at the place to which its path leads. Writing there changes no directory, so that
every path leads where it did, and what is loaded from the path is the program that was saved. A
program without a text is refused before anything is written.
-/

namespace TapeCompiler

/-- Both forms of a program are read back. -/
theorem Format.read_of_write {format : Format} {p : Program} {content : String}
    (hp : Program.Representable p.head) (h : format.write p = .ok content) :
    format.read content = .ok p := by
  cases format with
  | text => exact Program.parse_encodeLines hp h
  | json =>
    cases h
    rw [read]
    exact Program.ofJson_of_takes (Json.takes_program hp)

/-- Only a text can be refused. -/
theorem Format.write_eq_error {path : String} {p : Program} {e : Error} :
    (ofPath path).write p = .error e ↔
      Path.extension? path ≠ some "json" ∧ p.encodeLines = .error e := by
  by_cases hjson : Path.extension? path = some "json" <;> simp [ofPath, write, hjson]

namespace Place

/-- What has a name lies inside the places that are always there. -/
theorem isOutermost_of_name {name : String} {place : Place} (h : name ∉ ["", ".", ".."]) :
    isOutermost (name :: place) = false := by
  simp only [List.mem_cons, List.not_mem_nil, or_false, not_or] at h
  simp [isOutermost, root, h]

theorem mem_parent (place : Place) : "" ∈ place.parent ↔ "" ∈ place := by
  cases place with
  | nil => simp [parent]
  | cons name outer =>
    rw [parent]
    split
    · simp
    · split
      · simp [root, *]
      · simp [eq_comm, *]

/-- No part of a path leads to the root or away from under it. -/
theorem mem_enter (place : Place) (part : String) : "" ∈ place.enter part ↔ "" ∈ place := by
  rw [enter]
  split
  · rfl
  · rename_i hpart
    split
    · exact mem_parent place
    · simp [eq_comm, not_or.mp hpart]

end Place

namespace Files

variable {files files' : Files} {path : String} {place start other : Place} {xs ys : List String}
  {bytes : ByteArray}

/-- What a path leads to. -/
def target? (files : Files) (path : String) : Option Entry :=
  match files.locate path with
  | .ok place => files.find? place
  | .error _ => none

theorem target?_eq_some {entry : Entry} :
    files.target? path = some entry ↔
      ∃ place, files.locate path = .ok place ∧ files.find? place = some entry := by
  rw [target?]
  cases files.locate path <;> simp

/-! ## Where paths lead -/

theorem requireDirectory_eq_ok {u : Unit} :
    files.requireDirectory place = .ok u ↔ files.find? place = some .directory := by
  rw [requireDirectory]
  cases files.find? place with
  | none => simp
  | some entry => cases entry <;> simp

theorem walk_cons {part : String} :
    files.walk start (part :: xs) = .ok place ↔
      files.find? start = some .directory ∧ files.walk (start.enter part) xs = .ok place := by
  rw [walk, bind_eq_ok]
  simp only [requireDirectory_eq_ok, exists_const]

theorem walk_append :
    files.walk start (xs ++ ys) = .ok place ↔
      ∃ mid, files.walk start xs = .ok mid ∧ files.walk mid ys = .ok place := by
  induction xs generalizing start with
  | nil => simp [walk]
  | cons x xs ih => simp only [List.cons_append, walk_cons, ih, exists_and_left, and_assoc]

/-- Paths lead to the same places in stores with the same directories. -/
theorem walk_congr
    (h : ∀ place, files'.find? place = some .directory ↔ files.find? place = some .directory) :
    files'.walk start xs = .ok place ↔ files.walk start xs = .ok place := by
  induction xs generalizing start with
  | nil => rfl
  | cons x xs ih => rw [walk_cons, walk_cons, h, ih]

theorem locate_eq_ok : files.locate path = .ok place ↔
    path ≠ "" ∧ files.walk (Path.start path) (Path.parts path) = .ok place := by
  rw [locate]
  split <;> simp_all

theorem mem_walk (h : files.walk start xs = .ok place) : "" ∈ place ↔ "" ∈ start := by
  induction xs generalizing start with
  | nil =>
    cases h
    rfl
  | cons x xs ih => rw [ih (walk_cons.mp h).2, Place.mem_enter]

/-- A path leads to a place under the root if it begins with a slash, and only then. -/
theorem locate_under_root (h : files.locate path = .ok place) :
    "" ∈ place ↔ path.toList.head? = some '/' := by
  rw [mem_walk (locate_eq_ok.mp h).2, Path.start]
  split <;> simp [Place.root, *]

/-- A place where a file can be written. -/
structure Writable (files : Files) (place : Place) : Prop where
  named : place.isOutermost = false
  file : files.find? place ≠ some .directory

/-- A file is written at the name at the end of its path, in the directory to which the other parts
lead. -/
theorem writable_eq_ok (h : files.writable path = .ok place) :
    ∃ outer last directory, Path.parts path = outer ++ [last] ∧ last ∉ ["", ".", ".."] ∧
      files.walk (Path.start path) outer = .ok directory ∧
      files.find? directory = some .directory ∧ place = last :: directory ∧
      files.find? place ≠ some .directory := by
  rw [writable] at h
  split at h
  · cases h
  · rename_i last outer hdrop
    obtain ⟨directory, hwalk, h⟩ := bind_eq_ok.mp h
    obtain ⟨⟨⟩, hdirectory, h⟩ := bind_eq_ok.mp h
    split at h
    · cases h
    · rename_i hname
      split at h
      · cases h
      · rename_i hfile
        cases h
        rw [not_or, not_or] at hname
        obtain ⟨hdot, hdots, hempty⟩ := hname
        -- The path does not end with a slash, so that no part is dropped.
        have hback : (Path.parts path).reverse = last :: outer := by
          cases hreverse : (Path.parts path).reverse with
          | nil =>
            rw [hreverse] at hdrop
            cases hdrop
          | cons x xs =>
            rw [hreverse, List.head?_cons] at hempty
            rwa [hreverse, List.dropWhile_cons_of_neg (by simpa using hempty)] at hdrop
        rw [hback, List.head?_cons] at hempty
        refine ⟨outer.reverse, last, directory, ?_, ?_, hwalk, requireDirectory_eq_ok.mp hdirectory,
          rfl, fun hdirectory => hfile (by rw [hdirectory]; rfl)⟩
        · rw [← List.reverse_cons, ← hback, List.reverse_reverse]
        · simpa [hdot, hdots] using hempty

/-- A path that ends with a name leads to that name in the directory in front of it. -/
theorem locate_of_parts {last : String} (hparts : Path.parts path = xs ++ [last])
    (hlast : last ∉ ["", ".", ".."]) (hwalk : files.walk (Path.start path) xs = .ok place)
    (hdirectory : files.find? place = some .directory) :
    files.locate path = .ok (last :: place) := by
  simp only [List.mem_cons, List.not_mem_nil, or_false, not_or] at hlast
  obtain ⟨hempty, hdot, hdots⟩ := hlast
  refine locate_eq_ok.mpr ⟨?_, ?_⟩
  · rintro rfl
    have hone : Path.parts "" = [""] := rfl
    rw [hone] at hparts
    cases xs with
    | nil => exact hempty (List.singleton_inj.mp hparts).symm
    | cons x xs => simp at hparts
  · rw [hparts, walk_append]
    refine ⟨place, hwalk, walk_cons.mpr ⟨hdirectory, ?_⟩⟩
    simp [walk, Place.enter, hempty, hdot, hdots]

/-- A file is written where its path leads. -/
theorem locate_of_writable (h : files.writable path = .ok place) :
    files.locate path = .ok place ∧ files.Writable place := by
  obtain ⟨outer, last, directory, hparts, hlast, hwalk, hdirectory, rfl, hfile⟩ := writable_eq_ok h
  exact ⟨locate_of_parts hparts hlast hwalk hdirectory, Place.isOutermost_of_name hlast, hfile⟩

/-! ## Writing a file -/

/-- A file that is written replaces no directory and is none. -/
theorem find?_put_directory (h : files.Writable place) :
    (files.put place (.file bytes)).find? other = some .directory ↔
      files.find? other = some .directory := by
  rw [find?_put _ h.named]
  split
  · rename_i hother
    subst hother
    exact iff_of_false (by simp) h.file
  · rfl

theorem locate_put (h : files.Writable place) :
    (files.put place (.file bytes)).locate path = .ok other ↔ files.locate path = .ok other := by
  rw [locate_eq_ok, locate_eq_ok, walk_congr fun _ => find?_put_directory h]

/-- A path that leads elsewhere leads to what it did. -/
theorem target?_put (h : files.Writable place) (hother : files.locate path ≠ .ok place) :
    (files.put place (.file bytes)).target? path = files.target? path := by
  have elsewhere {found : Place} (hfound : files.locate path = .ok found) : found ≠ place := by
    rintro rfl
    exact hother hfound
  ext entry
  rw [target?_eq_some, target?_eq_some]
  constructor
  · rintro ⟨found, hfound, hentry⟩
    rw [locate_put h] at hfound
    rw [find?_put _ h.named, if_neg (elsewhere hfound)] at hentry
    exact ⟨found, hfound, hentry⟩
  · rintro ⟨found, hfound, hentry⟩
    refine ⟨found, (locate_put h).mpr hfound, ?_⟩
    rwa [find?_put _ h.named, if_neg (elsewhere hfound)]

/-- What is written is read. -/
theorem readText_put {content : String} (h : files.Writable place)
    (hpath : files.locate path = .ok place) :
    (files.put place (.file content.toUTF8)).readText path = .ok content := by
  have hread : (files.put place (.file content.toUTF8)).read path = .ok content.toUTF8 := by
    refine bind_eq_ok.mpr ⟨place, (locate_put h).mpr hpath, ?_⟩
    rw [find?_put _ h.named, if_pos rfl]
  have htext : String.fromUTF8? content.toUTF8 = some content := by
    rw [String.fromUTF8?, String.toUTF8_eq_toByteArray, dif_pos content.isValidUTF8]
    rfl
  refine bind_eq_ok.mpr ⟨_, hread, ?_⟩
  rw [htext]

/-- How saving a program ends. -/
theorem save_cases (files : Files) (path : String) (p : Program) :
    (∃ e, (Format.ofPath path).write p = .error e ∧ files.save path p = (.error e, files)) ∨
    (∃ content reason, (Format.ofPath path).write p = .ok content ∧
      files.writable path = .error reason ∧
      files.save path p = (.error (.file (.write path reason)), files)) ∨
    ∃ content place, (Format.ofPath path).write p = .ok content ∧ files.writable path = .ok place ∧
      files.save path p = (.ok (), files.put place (.file content.toUTF8)) := by
  rw [save]
  cases (Format.ofPath path).write p with
  | error e => exact .inl ⟨e, rfl, rfl⟩
  | ok content =>
    dsimp only
    rw [write]
    cases files.writable path with
    | error reason => exact .inr (.inl ⟨content, reason, rfl, rfl, rfl⟩)
    | ok place => exact .inr (.inr ⟨content, place, rfl, rfl, rfl⟩)

/-- **What is saved is loaded, and what is refused changes nothing.** Let the head of a program be
at an index that can be read. If the program is saved, it is loaded from the path, which leads where
it did. What is at any other place is what was there, and every path that leads to another place or
nowhere leads to what it did. If saving fails, the store is as it was. At a path where a file can be
written it fails exactly if the path does not have the extension `json` and the program has no text.
-/
theorem saved_program_loads (files : Files) (path : String) {p : Program}
    (hp : Program.Representable p.head) :
    (∀ files', files.save path p = (.ok (), files') →
      files'.load path = .ok p ∧
      ∃ place, files.locate path = .ok place ∧ files'.locate path = .ok place ∧
        (∀ other, other ≠ place → files'.find? other = files.find? other) ∧
        ∀ other, files.locate other ≠ .ok place → files'.target? other = files.target? other) ∧
    (∀ e files', files.save path p = (.error e, files') → files' = files) ∧
    ∀ place, files.writable path = .ok place →
      ((∃ e, (files.save path p).1 = .error e) ↔
        Path.extension? path ≠ some "json" ∧ ∃ e, p.encodeLines = .error e) := by
  rcases files.save_cases path p with ⟨e, hwrite, hsave⟩ | ⟨content, reason, -, hplace, hsave⟩ |
    ⟨content, place, hwrite, hplace, hsave⟩
  all_goals rw [hsave]
  · refine ⟨by simp, by simp [eq_comm], fun place hplace => ?_⟩
    obtain ⟨hjson, hlines⟩ := Format.write_eq_error.mp hwrite
    exact ⟨fun _ => ⟨hjson, e, hlines⟩, fun _ => ⟨e, rfl⟩⟩
  · refine ⟨by simp, by simp [eq_comm], fun place hplace' => ?_⟩
    rw [hplace] at hplace'
    cases hplace'
  · obtain ⟨hpath, hwritable⟩ := locate_of_writable hplace
    refine ⟨fun files' h => ?_, by simp, fun _ _ => ?_⟩
    · cases h
      refine ⟨?_, place, hpath, (locate_put hwritable).mpr hpath, fun other hother => ?_,
        fun other hother => target?_put hwritable hother⟩
      · rw [load, readText_put hwritable hpath]
        exact Format.read_of_write hp hwrite
      · rw [find?_put _ hwritable.named, if_neg hother]
    · refine iff_of_false (by simp) ?_
      rintro ⟨hjson, e, hlines⟩
      rw [Format.write_eq_error.mpr ⟨hjson, hlines⟩] at hwrite
      cases hwrite

/-- A store with a directory and a file in it. -/
def shelf : Files := empty.install ["x.tm", "a"] (.file "old".toUTF8)

/-- A program whose start state cannot be written. -/
def wordy : Program := ⟨["a b"], -1, "", "q 1", []⟩

/-- It is refused as a text, and the file that is there survives; as a document it is saved beside
that file, and loaded. -/
theorem saved_program_loads_wordy :
    Program.Representable wordy.head ∧ shelf.writable "a/x.tm" = .ok ["x.tm", "a"] ∧
      (∃ e, shelf.save "a/x.tm" wordy = (.error e, shelf)) ∧
      ∃ files', shelf.save "a/.././a/x.json" wordy = (.ok (), files') ∧
        files'.load "a/.././a/x.json" = .ok wordy ∧
        files'.target? "a/x.tm" = some (.file "old".toUTF8) := by
  have hhead : Program.Representable wordy.head := by decide
  have hplace : shelf.writable "a/x.tm" = .ok ["x.tm", "a"] := rfl
  obtain ⟨-, hrefused, hfails⟩ := saved_program_loads shelf "a/x.tm" hhead
  obtain ⟨e, he⟩ := (hfails _ hplace).mpr ⟨by decide, _, rfl⟩
  obtain ⟨files', hsave⟩ : ∃ files', shelf.save "a/.././a/x.json" wordy = (.ok (), files') :=
    ⟨_, rfl⟩
  obtain ⟨hloads, place, hplace', -, -, hothers⟩ :=
    (saved_program_loads shelf "a/.././a/x.json" hhead).1 files' hsave
  have hnew : shelf.locate "a/.././a/x.json" = .ok ["x.json", "a"] := rfl
  have hold : shelf.locate "a/x.tm" = .ok ["x.tm", "a"] := rfl
  have hdiffers : shelf.locate "a/x.tm" ≠ .ok place := by
    rw [← hplace', hnew, hold]
    simp
  have hkept : shelf.save "a/x.tm" wordy = (.error e, shelf) :=
    Prod.ext he (hrefused e _ (Prod.ext he rfl))
  refine ⟨hhead, hplace, ⟨e, hkept⟩, files', hsave, hloads, ?_⟩
  rw [hothers "a/x.tm" hdiffers, target?_eq_some]
  exact ⟨_, hold, rfl⟩

end Files

end TapeCompiler
