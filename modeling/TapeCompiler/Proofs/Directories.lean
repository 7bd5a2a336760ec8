import Mathlib.Data.List.Perm.Basic
import TapeCompiler.Proofs.Saving

/-!
# Loading a directory

The path of an entry leads to the entry, and its extension is that of the entry's name. Each entry
to be loaded has one result, and sorting the results loses none of them. As no two entries have the
same path, the order of the programs does not depend on that in which the entries are listed.
-/

namespace TapeCompiler

namespace Path

variable {directory name extension : String}

/-- A name that an entry of a directory can have: one part of a path, which leads into the
directory. -/
structure IsName (name : String) : Prop where
  part : name ∉ ["", ".", ".."]
  whole : '/' ∉ name.toList

theorem parts_append_slash (outer inner : String) :
    parts (outer ++ "/" ++ inner) = parts outer ++ parts inner := by
  have htext : (outer ++ "/" ++ inner).toList = outer.toList ++ '/' :: inner.toList := by
    simp [String.toList_append]
  rw [parts, htext, List.splitOn_append_cons_self, List.map_append]
  rfl

theorem parts_of_whole (h : '/' ∉ name.toList) : parts name = [name] := by
  have hsplit : name.toList.splitOn '/' = [name.toList] := by
    rw [List.splitOn_eq_splitOnP]
    refine List.splitOnP_eq_singleton fun c hc => beq_eq_false_iff_ne.mpr ?_
    rintro rfl
    exact h hc
  rw [parts, hsplit, List.map_singleton, String.ofList_toList]

/-- The path of an entry ends with its name. In front of it is the path of the directory, without a
slash at its end. -/
theorem exists_parts_join (directory : String) (h : '/' ∉ name.toList) :
    ∃ outer, parts (join directory name) = outer ++ [name] ∧
      (parts directory = outer ∨ parts directory = outer ++ [""]) := by
  by_cases hempty : directory = ""
  · refine ⟨[], ?_, .inr ?_⟩
    · rw [join, if_pos hempty, parts_of_whole h, List.nil_append]
    · rw [hempty]
      rfl
  by_cases hslash : directory.toList.getLast? = some '/'
  · obtain ⟨cs, hcs⟩ := List.getLast?_eq_some_iff.mp hslash
    have hdirectory : directory = String.ofList cs ++ "/" ++ "" := by
      rw [← String.toList_inj]
      simpa [String.toList_append] using hcs
    refine ⟨parts (String.ofList cs), ?_, .inr ?_⟩
    · rw [join, if_neg hempty, if_pos hslash, hdirectory, String.append_empty, parts_append_slash,
        parts_of_whole h]
    · rw [hdirectory, parts_append_slash]
      rfl
  · refine ⟨parts directory, ?_, .inl rfl⟩
    rw [join, if_neg hempty, if_neg hslash, parts_append_slash, parts_of_whole h]

/-- The path of an entry starts where that of its directory does. -/
theorem start_join (directory : String) (h : '/' ∉ name.toList) :
    start (join directory name) = start directory := by
  have hhead : (join directory name).toList.head? = some '/' ↔
      directory.toList.head? = some '/' := by
    by_cases hempty : directory = ""
    · rw [join, if_pos hempty, hempty]
      exact iff_of_false (fun hslash => h (List.mem_of_head? hslash)) (by simp)
    · obtain ⟨c, cs, hcs⟩ := List.exists_cons_of_ne_nil (mt String.toList_eq_nil_iff.mp hempty)
      rw [join, if_neg hempty]
      split <;> simp [String.toList_append, hcs]
  simp only [start, hhead]

theorem join_injective (directory : String) : Function.Injective (join directory) := by
  intro name other h
  rw [join, join] at h
  split at h
  · exact h
  · split at h <;> exact (String.append_right_inj _).mp h

/-- The extension of an entry is that of its name. -/
theorem extension?_join (h : IsName name) :
    extension? (join directory name) = extensionOf name := by
  obtain ⟨outer, hparts, -⟩ := exists_parts_join directory h.whole
  have hname := h.part
  simp only [List.mem_cons, List.not_mem_nil, or_false, not_or] at hname
  obtain ⟨hempty, hdot, hdots⟩ := hname
  have hlast : name? (join directory name) = some name := by
    rw [name?, hparts, List.reverse_append, List.reverse_singleton, List.singleton_append,
      List.find?_cons_of_pos (by simp [hempty, hdot])]
    exact if_neg hdots
  rw [extension?, hlast, Option.bind_some]

/-- A name has an extension if there is a dot in it with something in front. -/
theorem extensionOf_eq_some :
    extensionOf name = some extension ↔
      '.' ∉ extension.toList ∧ ∃ stem, stem ≠ "" ∧ name = stem ++ "." ++ extension := by
  rw [extensionOf]
  constructor
  · intro h
    split at h
    · cases h
    · cases h
    · rename_i c d rest hdrop
      cases h
      obtain rfl : c = '.' := by
        have hhead := List.head?_dropWhile_not (· != '.') name.toList.reverse
        rw [hdrop] at hhead
        simpa using hhead
      have hback : name.toList.reverse.takeWhile (· != '.') ++ '.' :: d :: rest =
          name.toList.reverse := by
        rw [← hdrop, List.takeWhile_append_dropWhile]
      refine ⟨fun hdot => ?_, String.ofList (d :: rest).reverse, ?_, ?_⟩
      · rw [String.toList_ofList, List.mem_reverse] at hdot
        simpa using List.all_eq_true.mp List.all_takeWhile _ hdot
      · simp [← String.toList_inj]
      · rw [← String.toList_inj, ← List.reverse_inj]
        refine hback.symm.trans ?_
        simp [String.toList_append]
  · rintro ⟨hdot, stem, hstem, rfl⟩
    have hback : (stem ++ "." ++ extension).toList.reverse =
        extension.toList.reverse ++ '.' :: stem.toList.reverse := by
      simp [String.toList_append]
    have hplain : ∀ c ∈ extension.toList.reverse, (c != '.') = true := by
      intro c hc
      rw [bne_iff_ne]
      rintro rfl
      exact hdot (List.mem_reverse.mp hc)
    obtain ⟨d, rest, hrest⟩ : ∃ d rest, stem.toList.reverse = d :: rest := by
      refine List.exists_cons_of_ne_nil fun hnil => hstem ?_
      rwa [List.reverse_eq_nil_iff, String.toList_eq_nil_iff] at hnil
    rw [hback, hrest, List.dropWhile_append_of_pos hplain, List.takeWhile_append_of_pos hplain]
    simp

theorem extensionOf_eq_tm_or_json :
    extensionOf name = some "tm" ∨ extensionOf name = some "json" ↔
      ∃ stem, stem ≠ "" ∧ (name = stem ++ ".tm" ∨ name = stem ++ ".json") := by
  have htm : '.' ∉ "tm".toList := by decide
  have hjson : '.' ∉ "json".toList := by decide
  simp only [extensionOf_eq_some, htm, hjson, not_false_eq_true, true_and, String.append_assoc,
    ← exists_or, ← and_or_left]
  rfl

end Path

/-- The name of a place in a directory, if it is there. -/
def Place.nameIn? (directory : Place) : Place → Option String
  | name :: outer => if outer = directory then some name else none
  | [] => none

@[simp] theorem Place.nameIn?_eq_some {directory place : Place} {name : String} :
    directory.nameIn? place = some name ↔ place = name :: directory := by
  cases place with
  | nil => simp [nameIn?]
  | cons inner outer =>
    rw [nameIn?]
    split <;> simp_all

namespace Files

variable {files files' : Files} {directory path name : String} {place : Place}
  {names order : List String} {r : Except Error (String × Program)}
  {results results' : List (Except Error (String × Program))}
  {loaded loaded' : List (String × Program)}

/-! ## The entries of a directory -/

/-- A path leads to a directory. -/
structure Opens (files : Files) (directory : String) (place : Place) : Prop where
  locates : files.locate directory = .ok place
  found : files.find? place = some .directory

theorem Opens.list (h : files.Opens directory place) :
    files.list directory = .ok (files.entries.filterMap fun e => place.nameIn? e.1) :=
  bind_eq_ok.mpr ⟨place, h.locates, bind_eq_ok.mpr ⟨(), requireDirectory_eq_ok.mpr h.found, rfl⟩⟩

theorem find?_of_isName (h : Path.IsName name) :
    files.find? (name :: place) = files.entries.lookup (name :: place) := by
  rw [find?, Place.isOutermost_of_name h.part, if_neg Bool.false_ne_true]

/-- The names of all that is in a directory are listed, each of them once. -/
theorem Opens.exists_list (h : files.Opens directory place) :
    ∃ names, files.list directory = .ok names ∧ names.Nodup ∧
      ∀ name, Path.IsName name → (name ∈ names ↔ (files.find? (name :: place)).isSome) := by
  refine ⟨_, h.list, ?_, ?_⟩
  · refine List.Pairwise.filterMap _ ?_ (List.pairwise_map.mp files.distinct)
    intro e e' hne name hname name' hname' heq
    rw [Place.nameIn?_eq_some] at hname hname'
    exact hne (by rw [hname, hname', heq])
  · intro name hname
    rw [find?_of_isName hname]
    simp only [List.mem_filterMap, Place.nameIn?_eq_some, List.lookup_isSome_iff, beq_iff_eq]
    exact exists_congr fun e => and_congr_right fun _ => eq_comm

/-- The path of an entry leads to it. -/
theorem Opens.locate_join (h : files.Opens directory place) (hname : Path.IsName name) :
    files.locate (Path.join directory name) = .ok (name :: place) := by
  obtain ⟨-, hwalk⟩ := locate_eq_ok.mp h.locates
  obtain ⟨outer, hparts, hdirectory⟩ := Path.exists_parts_join directory hname.whole
  refine locate_of_parts hparts hname.part ?_ h.found
  rw [Path.start_join directory hname.whole]
  rcases hdirectory with hsame | hslash
  · rwa [hsame] at hwalk
  · -- The empty part behind a slash leads nowhere else.
    rw [hslash, walk_append] at hwalk
    obtain ⟨mid, hmid, hwalk⟩ := hwalk
    obtain ⟨-, hwalk⟩ := walk_cons.mp hwalk
    rw [walk, Place.enter, if_pos (.inl rfl)] at hwalk
    cases hwalk
    exact hmid

theorem isProgram_iff :
    files.isProgram path = true ↔ files.isDirectory path = false ∧
      (Path.extension? path = some "tm" ∨ Path.extension? path = some "json") := by
  rw [isProgram]
  cases Path.extension? path <;> simp

/-- An entry of a directory that is a file with the extension `tm` or `json`. -/
def IsProgramFile (files : Files) (place : Place) (name : String) : Prop :=
  (∃ bytes, files.find? (name :: place) = some (.file bytes)) ∧
    ∃ stem, stem ≠ "" ∧ (name = stem ++ ".tm" ∨ name = stem ++ ".json")

theorem isDirectory_of_locate (h : files.locate path = .ok place) :
    files.isDirectory path = (files.find? place).any Entry.isDirectory := by
  rw [isDirectory, h]

theorem Opens.isProgram_join (h : files.Opens directory place) (hname : Path.IsName name) :
    (files.find? (name :: place)).isSome ∧ files.isProgram (Path.join directory name) ↔
      files.IsProgramFile place name := by
  rw [isProgram_iff, Path.extension?_join hname, Path.extensionOf_eq_tm_or_json,
    isDirectory_of_locate (h.locate_join hname), IsProgramFile]
  cases files.find? (name :: place) with
  | none => simp
  | some entry => cases entry <;> simp [Entry.isDirectory]

/-! ## The result for an entry -/

/-- What is answered for a file: its program with its path, or a failed request on files that gives
the reason for which the file cannot be loaded. -/
def Answers (files : Files) (path : String) : Except Error (String × Program) → Prop
  | .ok (found, p) => found = path ∧ files.load path = .ok p
  | .error e => ∃ reason, files.load path = .error reason ∧ e = .load path reason ∧
      e.kind = .file ∧
      e.message = "File error: Failed to load program from " ++ path ++ ": " ++ reason.message

theorem answers_iff : files.Answers path r ↔ r = files.loadOne path := by
  rw [loadOne]
  cases hload : files.load path with
  | ok p =>
    cases r with
    | ok loaded => simp [Answers, hload, Prod.ext_iff, eq_comm]
    | error e => simp [Answers, hload]
  | error reason =>
    cases r with
    | ok loaded => simp [Answers, hload]
    | error e =>
      simp only [Answers, hload, Except.error.injEq, exists_eq_left']
      refine and_iff_left_of_imp ?_
      rintro rfl
      exact ⟨rfl, rfl⟩

theorem fst_of_loadOne {found : String × Program} (h : files.loadOne path = .ok found) :
    found.1 = path :=
  (answers_iff.mpr h.symm).1

/-- A result tells for which file it is. -/
theorem Answers.path_eq {other : String} (h : files.Answers path r) (h' : files.Answers other r) :
    path = other := by
  cases r with
  | ok loaded => exact h.1.symm.trans h'.1
  | error e =>
    obtain ⟨reason, -, rfl, -⟩ := h
    obtain ⟨reason', -, heq, -⟩ := h'
    cases heq
    rfl

theorem Answers.congr (h : files.Answers path r) (hload : files'.load path = files.load path) :
    files'.Answers path r := by
  rwa [answers_iff, loadOne, hload, ← loadOne, ← answers_iff]

/-- What is loaded depends on the file alone. -/
theorem load_congr (h : files.locate path = .ok place) (h' : files'.locate path = .ok place)
    (hfile : files'.find? place = files.find? place) : files'.load path = files.load path := by
  simp only [load, readText, read, h, h', hfile, bind, Except.bind]

/-! ## The order of the results -/

theorem precedes_trans : ∀ a b c : Option String,
    precedes a b = true → precedes b c = true → precedes a c = true
  | none, _, _ => fun _ _ => rfl
  | some _, none, _ => nofun
  | some _, some _, none => fun _ => nofun
  | some a, some b, some c => by simpa [precedes] using String.le_trans

theorem precedes_total : ∀ a b : Option String, (precedes a b || precedes b a) = true
  | none, _ => rfl
  | some _, none => rfl
  | some a, some b => by simpa [precedes] using String.le_total a b

/-- Results none of which would have to stand in front of an earlier one. -/
def InOrder (results : List (Except Error (String × Program))) : Prop :=
  results.Pairwise fun r r' => precedes (sortPath? r) (sortPath? r') = true

/-- No result is lost, and none is added. -/
theorem arrange_perm (results : List (Except Error (String × Program))) :
    (arrange results).Perm results :=
  List.mergeSort_perm _ _

theorem inOrder_arrange (results : List (Except Error (String × Program))) :
    InOrder (arrange results) :=
  List.pairwise_mergeSort (fun r _ _ => precedes_trans (sortPath? r) _ _)
    (fun r _ => precedes_total (sortPath? r) _) results

/-- Results that are in order among themselves stay in their order. -/
theorem sublist_arrange (h : InOrder results) (hsub : results.Sublist results') :
    results.Sublist (arrange results') :=
  List.sublist_mergeSort (fun r _ _ => precedes_trans (sortPath? r) _ _)
    (fun r _ => precedes_total (sortPath? r) _) h hsub

theorem programs_perm (h : results.Perm results') : (programs results).Perm (programs results') :=
  h.filterMap _

@[simp] theorem programs_append (errors : List Error) (loaded : List (String × Program)) :
    programs (errors.map .error ++ loaded.map .ok) = loaded := by
  simp [programs]

/-- There is no failure behind a program. -/
theorem InOrder.failures_eq_nil {found : String × Program} (h : InOrder (.ok found :: results)) :
    failures results = [] := by
  rw [failures, List.filterMap_eq_nil_iff]
  intro r hr
  have hbehind := List.rel_of_pairwise_cons h hr
  cases r with
  | ok _ => rfl
  | error e => cases hbehind

/-- Results in order are the failures and, behind them, the programs. -/
theorem InOrder.eq_append (h : InOrder results) :
    results = (failures results).map .error ++ (programs results).map .ok := by
  induction results with
  | nil => rfl
  | cons r results ih =>
    have hrest := ih h.of_cons
    cases r with
    | error e => exact congrArg (Except.error e :: ·) hrest
    | ok found =>
      have hnone : failures (.ok found :: results) = [] := h.failures_eq_nil
      rw [h.failures_eq_nil] at hrest
      rw [hnone]
      exact congrArg (Except.ok found :: ·) hrest

theorem failures_sublist (results : List (Except Error (String × Program))) :
    ((failures results).map .error).Sublist results := by
  induction results with
  | nil => exact .slnil
  | cons r results ih =>
    cases r with
    | error e => exact ih.cons_cons _
    | ok found => exact ih.cons _

/-- Failures are not sorted among themselves. -/
theorem failures_arrange (results : List (Except Error (String × Program))) :
    failures (arrange results) = failures results := by
  have hinOrder : InOrder ((failures results).map .error) :=
    List.pairwise_map.mpr (List.pairwise_of_forall fun _ _ => rfl)
  have hkept : (failures results).Sublist (failures (arrange results)) := by
    have hfound : failures ((failures results).map .error) = failures results := by
      simp [failures]
    rw [← hfound]
    exact (sublist_arrange hinOrder (failures_sublist results)).filterMap _
  have hcount : (failures (arrange results)).Perm (failures results) :=
    (arrange_perm results).filterMap _
  exact (hkept.eq_of_length hcount.length_eq.symm).symm

/-- Failures come first, in the order in which they are, and programs behind them. -/
theorem arrange_eq (results : List (Except Error (String × Program))) :
    arrange results =
      (failures results).map .error ++ (programs (arrange results)).map .ok := by
  rw [← failures_arrange]
  exact (inOrder_arrange results).eq_append

/-- Programs with different paths are sorted into strictly increasing order. -/
theorem pairwise_programs (h : ((programs results).map Prod.fst).Nodup) :
    (programs (arrange results)).Pairwise fun a b => a.1 < b.1 := by
  have hsorted : (programs (arrange results)).Pairwise fun a b => a.1 ≤ b.1 := by
    refine List.Pairwise.filterMap _ ?_ (inOrder_arrange results)
    intro r r' hle a ha b hb
    cases r <;> cases r' <;> cases ha <;> cases hb
    exact of_decide_eq_true hle
  have hdistinct := ((programs_perm (arrange_perm results)).map Prod.fst).nodup_iff.mpr h
  refine hsorted.imp₂ (fun a b hle hne => ?_) (List.pairwise_map.mp hdistinct)
  exact String.not_le.mp fun hge => hne (String.le_antisymm hle hge)

/-- Programs in strictly increasing order are listed in one way only. -/
theorem eq_of_perm (h : loaded.Perm loaded') (hlt : loaded.Pairwise fun a b => a.1 < b.1)
    (hlt' : loaded'.Pairwise fun a b => a.1 < b.1) : loaded = loaded' := by
  refine h.eq_of_pairwise ?_ hlt hlt'
  intro a b _ _ hab hba
  exact absurd (String.lt_trans hab hba) (String.lt_irrefl _)

/-- The order of the programs does not depend on that of the results. -/
theorem programs_arrange_congr (h : results.Perm results')
    (hpaths : ((programs results).map Prod.fst).Nodup) :
    programs (arrange results) = programs (arrange results') := by
  have hpaths' := ((programs_perm h).map Prod.fst).nodup_iff.mp hpaths
  refine eq_of_perm (programs_perm ?_) (pairwise_programs hpaths) (pairwise_programs hpaths')
  exact (arrange_perm results).trans (h.trans (arrange_perm results').symm)

/-! ## All entries of a directory -/

/-- The results for the entries to be loaded, in the order in which the entries are listed. -/
def outcomes (files : Files) (directory : String) (order : List String) :
    List (Except Error (String × Program)) :=
  (order.filter fun name => files.isProgram (Path.join directory name)).map fun name =>
    files.loadOne (Path.join directory name)

theorem loadEntries_eq :
    files.loadEntries directory order = arrange (files.outcomes directory order) := by
  rw [loadEntries, List.filter_map, List.map_map]
  rfl

theorem Opens.loadAll_eq (h : files.Opens directory place)
    (hlist : files.list directory = .ok names) :
    files.loadAll directory = files.loadEntries directory names := by
  have hthere : files.contains directory = true := by
    rw [contains, h.locates]
    simp [h.found]
  rw [loadAll, if_pos hthere, hlist]

/-- Different entries have programs with different paths. -/
theorem nodup_paths (h : names.Nodup) :
    ((programs (files.outcomes directory names)).map Prod.fst).Nodup := by
  rw [programs, outcomes, List.Nodup, List.pairwise_map, List.pairwise_filterMap,
    List.pairwise_map]
  refine (h.filter _).imp ?_
  intro name other hne a ha b hb heq
  split at ha
  · cases ha
  · rename_i hloaded
    split at hb
    · cases hb
    · rename_i hloaded'
      cases ha
      cases hb
      rw [fst_of_loadOne hloaded, fst_of_loadOne hloaded'] at heq
      exact hne (Path.join_injective directory heq)

/-- Each entry to be loaded has its result. -/
theorem exists_answers (files : Files) (directory : String) (order : List String) :
    ∃ chosen, chosen.Perm (order.filter fun name => files.isProgram (Path.join directory name)) ∧
      List.Forall₂ (fun name => files.Answers (Path.join directory name)) chosen
        (files.loadEntries directory order) := by
  have hanswers : List.Forall₂ (fun name => files.Answers (Path.join directory name))
      (order.filter fun name => files.isProgram (Path.join directory name))
      (files.outcomes directory order) := by
    rw [outcomes, List.forall₂_map_right_iff, List.forall₂_same]
    intro name _
    exact answers_iff.mpr rfl
  have hcomp : Relation.Comp (List.Forall₂ fun name => files.Answers (Path.join directory name))
      List.Perm _ (files.loadEntries directory order) :=
    ⟨_, hanswers, loadEntries_eq ▸ (arrange_perm _).symm⟩
  -- The entries are put into the order of their results.
  rw [List.forall₂_comp_perm_eq_perm_comp_forall₂] at hcomp
  obtain ⟨chosen, hperm, hsorted⟩ := hcomp
  exact ⟨chosen, hperm.symm, hsorted⟩

theorem mem_loadEntries :
    r ∈ files.loadEntries directory order ↔
      ∃ name ∈ order, files.isProgram (Path.join directory name) ∧
        files.Answers (Path.join directory name) r := by
  rw [loadEntries_eq, (arrange_perm _).mem_iff]
  simp only [outcomes, List.mem_map, List.mem_filter, answers_iff, and_assoc, eq_comm]

/-- A result is among those of its directory exactly if the file is one to be loaded. -/
theorem Opens.mem_loadAll (h : files.Opens directory place) (hname : Path.IsName name)
    (hr : files.Answers (Path.join directory name) r) :
    r ∈ files.loadAll directory ↔ files.IsProgramFile place name := by
  obtain ⟨names, hlist, -, hnames⟩ := h.exists_list
  rw [h.loadAll_eq hlist, mem_loadEntries, ← h.isProgram_join hname, ← hnames name hname]
  constructor
  · rintro ⟨other, hother, hprogram, hanswers⟩
    obtain rfl := Path.join_injective directory (hanswers.path_eq hr)
    exact ⟨hother, hprogram⟩
  · rintro ⟨hlisted, hprogram⟩
    exact ⟨name, hlisted, hprogram, hr⟩

/-- **Loading a directory loses nothing and makes up nothing.** Let a path lead to a directory. Its
entries are listed, each of them once, and what is loaded are the results for them. In whatever
order they are listed, failures come first and programs behind them, and the programs are always the
same, in strictly increasing order of their paths. There is exactly one result for each entry that
is not a directory and has the extension `tm` or `json`, that is, for each file in the directory
whose name has something in front of `.tm` or `.json` at its end: the program that is loaded from
its path, or else the failure to load it, with its own reason. A file that cannot be loaded hides no
other one: the result for a file is among those of the directory if and only if it is among them in
any other store that has the same file there. -/
theorem directory_loads_every_file (h : files.Opens directory place) :
    ∃ (names : List String) (programs : List (String × Program)),
      files.list directory = .ok names ∧ names.Nodup ∧
      files.loadAll directory = files.loadEntries directory names ∧
      (programs.Pairwise fun a b => a.1 < b.1) ∧
      (∀ order, order.Perm names →
        ∃ (failures : List Error) (chosen : List String),
          files.loadEntries directory order = failures.map .error ++ programs.map .ok ∧
          List.Forall₂ (fun name => files.Answers (Path.join directory name)) chosen
            (files.loadEntries directory order) ∧
          chosen.Nodup ∧
          (∀ name, name ∈ chosen ↔
            name ∈ names ∧ files.isDirectory (Path.join directory name) = false ∧
              (Path.extension? (Path.join directory name) = some "tm" ∨
                Path.extension? (Path.join directory name) = some "json")) ∧
          ∀ name, Path.IsName name → (name ∈ chosen ↔ files.IsProgramFile place name)) ∧
      ∀ files' : Files, files'.Opens directory place →
        ∀ name, Path.IsName name → files'.find? (name :: place) = files.find? (name :: place) →
          ∀ r, files.Answers (Path.join directory name) r →
            (r ∈ files'.loadAll directory ↔ r ∈ files.loadAll directory) := by
  obtain ⟨names, hlist, hnodup, hnames⟩ := h.exists_list
  refine ⟨names, programs (arrange (files.outcomes directory names)), hlist, hnodup,
    h.loadAll_eq hlist, pairwise_programs (nodup_paths hnodup), ?_, ?_⟩
  · intro order horder
    obtain ⟨chosen, hperm, hanswers⟩ := exists_answers files directory order
    have hchosen : ∀ name, name ∈ chosen ↔
        name ∈ names ∧ files.isProgram (Path.join directory name) := by
      intro name
      rw [hperm.mem_iff, List.mem_filter, horder.mem_iff]
    refine ⟨failures (files.outcomes directory order), chosen, ?_, hanswers,
      hperm.nodup_iff.mpr ((horder.nodup_iff.mpr hnodup).filter _), ?_, ?_⟩
    · have houtcomes : (files.outcomes directory names).Perm (files.outcomes directory order) :=
        (horder.symm.filter _).map _
      rw [loadEntries_eq, programs_arrange_congr houtcomes (nodup_paths hnodup)]
      exact arrange_eq _
    · intro name
      rw [hchosen, isProgram_iff]
    · intro name hname
      rw [hchosen, hnames name hname, h.isProgram_join hname]
  · intro files' h' name hname hsame r hr
    have hload := load_congr (h.locate_join hname) (h'.locate_join hname) hsame
    rw [h.mem_loadAll hname hr, h'.mem_loadAll hname (hr.congr hload), IsProgramFile, IsProgramFile,
      hsame]

/-- A directory with two programs and a document that ends early. Its other entries, a directory and
a file with nothing in front of the dot of its name, are not to be loaded. -/
def cabinet : Files :=
  ((((empty.install ["a.tm", "c"] (.file "a:0::q".toUTF8)).install ["d.tm", "c"] .directory).install
    [".tm", "c"] (.file "c:0::q".toUTF8)).install ["b.tm", "c"] (.file "b:0::q".toUTF8)).install
    ["a.json", "c"] (.file "[".toUTF8)

/-- In whatever order the entries are listed, both programs are loaded, and in the same order. -/
theorem directory_loads_every_file_mixed :
    cabinet.Opens "c/" ["c"] ∧ (∃ e, cabinet.load "c/a.json" = .error e) ∧
      ∃ names, cabinet.list "c/" = .ok names ∧ ∀ order, order.Perm names →
        ∃ failures : List Error, cabinet.loadEntries "c/" order = failures.map .error ++
          [.ok ("c/a.tm", ⟨["a"], 0, "", "q", []⟩), .ok ("c/b.tm", ⟨["b"], 0, "", "q", []⟩)] := by
  have hopens : cabinet.Opens "c/" ["c"] := ⟨rfl, rfl⟩
  obtain ⟨names, loaded, hlist, -, -, hordered, hresults, -⟩ := directory_loads_every_file hopens
  have hnames : names = ["a.json", "b.tm", ".tm", "d.tm", "a.tm"] := (Except.ok.inj hlist).symm
  have hloaded : loaded =
      [("c/a.tm", ⟨["a"], 0, "", "q", []⟩), ("c/b.tm", ⟨["b"], 0, "", "q", []⟩)] := by
    obtain ⟨failures, -, hsplit, -⟩ := hresults names (.refl _)
    have hkept := programs_perm (arrange_perm (cabinet.outcomes "c/" names))
    rw [← loadEntries_eq, hsplit, programs_append, hnames] at hkept
    exact eq_of_perm (hkept.trans (.swap _ _ _)) hordered (by decide)
  refine ⟨hopens, ⟨_, rfl⟩, names, hlist, ?_⟩
  intro order horder
  obtain ⟨failures, -, hsplit, -⟩ := hresults order horder
  rw [hloaded] at hsplit
  exact ⟨failures, hsplit⟩

end Files

end TapeCompiler
