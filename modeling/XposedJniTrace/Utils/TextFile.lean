import Mathlib.Data.List.DropRight
import XposedJniTrace.Linker.Maps
import XposedJniTrace.Trace.Mylibc
import XposedJniTrace.Utils.MakeDir
import XposedJniTrace.Utils.UnZipUtils

/-!
# Reading and writing texts

`writeText` and the two `readText` of `utils/fileUtils.cpp` over a disk without links, with
`dirname` and the streams as far as they are used; all that is opened is read or written to its end.
`writeText` makes the directory first, for which `makeDir` has a buffer that is too small for some
paths, and which it makes at another place when the current directory does not fit there.

The overload for a name puts lines together without what separates them, and the one for an open
file takes what it has read into its buffer for a string, which ends at the first zero.
-/

namespace XposedJniTrace.fileUtils

open FileTree MakeDir Mylibc
open Maps (fgets)
open UnZipUtils (Disk createNewFile)

/-- What a `std::string` is for a function that takes a C string. -/
def data (file : List UInt8) : List UInt8 := (c_str file).bytes

/-- `dirname`: the path without its last component, and without the slashes in front of that. -/
def dirname (path : List UInt8) : List UInt8 :=
  let front := (path.rdropWhile (· = slash)).rdropWhile (· ≠ slash)
  let dir := front.rdropWhile (· = slash)
  if dir ≠ [] then dir else if path.head? = some slash then [slash] else dot

/-- What an open stream reads of a file, if there is one. -/
def openIn (disk : Disk) (cwd : Place) (path : List UInt8) : Option (List UInt8) :=
  ((UnZipUtils.file cwd path).find disk.tree).bind fun place =>
    if disk.tree.kind place = some .file then some (disk.content place) else none

/-- `getline`: the line without the newline, and what is left. -/
def getline : List UInt8 → List UInt8 × List UInt8
  | [] => ([], [])
  | c :: text => if c = 0x0a then ([], text) else (c :: (getline text).1, (getline text).2)

/-- What is left behind a line is not longer. -/
theorem length_getline_le (text : List UInt8) : (getline text).2.length ≤ text.length := by
  induction text with
  | nil => exact le_refl _
  | cons c text ih =>
    rw [getline]
    split_ifs
    · exact Nat.le_succ _
    · exact Nat.le_succ_of_le ih

/-- Of a text that is not empty, less is left. -/
theorem length_getline {text : List UInt8} (h : text ≠ []) :
    (getline text).2.length < text.length := by
  cases text with
  | nil => exact absurd rfl h
  | cons c text =>
    rw [getline]
    split_ifs
    · exact Nat.lt_succ_self _
    · exact Nat.lt_succ_of_le (length_getline_le text)

/-- The loop over the lines. -/
def readText.lines (result text : List UInt8) : List UInt8 :=
  if _h : text = [] then result else lines (result ++ (getline text).1) (getline text).2
termination_by text.length
decreasing_by exact length_getline _h

/-- `readText` of a name. -/
def readText (disk : Disk) (cwd : Place) (file : List UInt8) : List UInt8 :=
  match openIn disk cwd (data file) with
  | none => []
  | some text => readText.lines [] text

/-- The size of the buffer that the pieces are read into. -/
def PATH_MAX : ℕ := 4096

/-- `readText` of an open file, of which so much is left. -/
def readTextFile (result text : List UInt8) : List UInt8 :=
  if _h : text = [] then result
  else readTextFile (result ++ (c_str (fgets (PATH_MAX - 1) text).1).bytes)
    (fgets (PATH_MAX - 1) text).2
termination_by text.length
decreasing_by exact Maps.length_fgets _ _h

/-- What an output stream that has been opened at a place writes. -/
def write (disk : Disk) (place : Place) (str : List UInt8) (isAppend : Bool) : Disk :=
  let opened := createNewFile disk place
  let kept := if isAppend then opened.content place else []
  ⟨opened.tree, Function.update opened.content place (kept ++ str)⟩

/-- `writeText`, unless the buffer of `makeDir` is too small. -/
def writeText (fails : Place → Bool) (disk : Disk) (cwd : Place) (file str : List UInt8)
    (isAppend : Bool) :
    Option Disk :=
  (makeDir fails disk.tree cwd (dirname (data file))).map fun made =>
    match (UnZipUtils.file cwd (data file)).target made.2 with
    | none => ⟨made.2, disk.content⟩
    | some place => write ⟨made.2, disk.content⟩ place str isAppend

/-- A call of `writeText` on a file. -/
structure Write where
  str : List UInt8
  isAppend : Bool

/-- Writes, one behind the other. -/
def writeTexts (fails : Place → Bool) (cwd : Place) (file : List UInt8) :
    List Write → Disk → Option Disk
  | [], disk => some disk
  | call :: calls, disk =>
    (writeText fails disk cwd file call.str call.isAppend).bind (writeTexts fails cwd file calls)

/-- What has been written since the last call that does not append, that one included. -/
def written (content : List UInt8) (calls : List Write) : List UInt8 :=
  calls.foldl (fun content call => if call.isAppend then content ++ call.str else call.str) content

/-- A file that can be written, in a directory that exists. -/
structure Target (disk : Disk) (cwd : Place) (file : List UInt8) where
  place : Place
  opens : (UnZipUtils.file cwd (data file)).target disk.tree = some place
  directory : NamesDirectory disk.tree cwd (dirname (data file))

/-- What is in the file, which is nothing if it does not exist. -/
def content (disk : Disk) (cwd : Place) (file : List UInt8) : List UInt8 :=
  (openIn disk cwd (data file)).getD []

/-- What a disk behind the calls has to be. -/
structure ReadsBack (fails : Place → Bool) (disk : Disk) (cwd : Place) (file : List UInt8)
    (calls : List Write) (disk' : Disk) : Prop where
  runs : writeTexts fails cwd file calls disk = some disk'
  reads : readText disk' cwd file = written (content disk cwd file) calls
  agree : ∀ text, openIn disk' cwd (data file) = some text →
    readText disk' cwd file = text ∧ readTextFile [] text = text

/-- There is room in the buffer of `makeDir` for the directory of a file. -/
def Fits (cwd : Place) (file : List UInt8) : Prop :=
  (currentPath cwd (dirname (data file))).length ≤ 127

/-- A directory is made where the file is to be: the current directory is lost, and the components
of the file's directory lead from the root to the place. -/
structure Blocked (fails : Place → Bool) (disk : Disk) (cwd : Place) (file : List UInt8)
    (place : Place) : Prop where
  lost : Lost cwd (dirname (data file))
  made : MadeOnTheWay fails disk.tree (components (dirname (data file))) place

/-- What is written is what is read, and both overloads read what is in the file. -/
def WrittenIsRead (fails : Place → Bool) (disk : Disk) (cwd : Place) (file : List UInt8)
    (calls : List Write) : Prop :=
  ∃ disk', ReadsBack fails disk cwd file calls disk'

section Reading

/-- A line and what is left, without the ends of lines, are the text without them. -/
theorem getline_append (text : List UInt8) :
    (getline text).1 ++ (getline text).2.filter (· ≠ 0x0a) = text.filter (· ≠ 0x0a) := by
  induction text with
  | nil => rfl
  | cons c text ih =>
    rw [getline, List.filter_cons]
    by_cases hc : c = 0x0a
    · rw [if_pos hc, if_neg (by simp [hc])]
      rfl
    · rw [if_neg hc, if_pos (decide_eq_true hc)]
      exact congrArg (c :: ·) ih

/-- The lines are put together without the newlines. -/
theorem lines_eq (result text : List UInt8) :
    readText.lines result text = result ++ text.filter (· ≠ 0x0a) := by
  induction hlength : text.length using Nat.strongRecOn generalizing result text with
  | ind length ih =>
    rw [readText.lines]
    split_ifs with hend
    · rw [hend, List.filter_nil, List.append_nil]
    · rw [ih _ (hlength ▸ length_getline hend) _ _ rfl, List.append_assoc, getline_append]

/-- No zero gets into what is read in pieces. -/
theorem zero_notMem_readTextFile {result : List UInt8} (h : 0 ∉ result) (text : List UInt8) :
    0 ∉ readTextFile result text := by
  induction hlength : text.length using Nat.strongRecOn generalizing result text with
  | ind length ih =>
    rw [readTextFile]
    split_ifs with hend
    · exact h
    · refine ih _ (hlength ▸ Maps.length_fgets _ hend) ?_ _ rfl
      rw [List.mem_append, not_or]
      exact ⟨h, (c_str _).nonzero⟩

/-- A text without a zero is read as it is. -/
theorem readTextFile_of_notMem (result : List UInt8) {text : List UInt8} (h : 0 ∉ text) :
    readTextFile result text = result ++ text := by
  induction hlength : text.length using Nat.strongRecOn generalizing result text with
  | ind length ih =>
    rw [readTextFile]
    split_ifs with hend
    · rw [hend, List.append_nil]
    · have hpieces := Maps.fgets_append (PATH_MAX - 1) text
      rw [← hpieces, List.mem_append, not_or] at h
      have hpiece : (c_str (fgets (PATH_MAX - 1) text).1).bytes =
          (fgets (PATH_MAX - 1) text).1 := by
        rw [c_str, List.takeWhile_eq_self_iff]
        intro c hc
        rw [decide_eq_true_iff]
        rintro rfl
        exact h.1 hc
      rw [ih _ (hlength ▸ Maps.length_fgets _ hend) _ h.2 rfl, hpiece, List.append_assoc, hpieces]

/-- A text is read back whole exactly when no byte is a terminator. -/
theorem readTextFile_eq_self_iff (text : List UInt8) : readTextFile [] text = text ↔ 0 ∉ text := by
  constructor
  · intro h
    rw [← h]
    exact zero_notMem_readTextFile List.not_mem_nil text
  · exact readTextFile_of_notMem []

/-- Taking away the ends of lines changes nothing exactly when there is none. -/
theorem filter_eq_self_iff (text : List UInt8) : text.filter (· ≠ 0x0a) = text ↔ 0x0a ∉ text := by
  rw [List.filter_eq_self]
  constructor
  · intro h hmem
    exact absurd (h _ hmem) (by decide)
  · intro h c hc
    rw [decide_eq_true_iff]
    rintro rfl
    exact h hc

/-- `readText` of a name reads what is in the file, without the newlines. -/
theorem readText_eq (disk : Disk) (cwd : Place) (file : List UInt8) :
    readText disk cwd file = (content disk cwd file).filter (· ≠ 0x0a) := by
  rw [readText, content]
  cases openIn disk cwd (data file) with
  | none => rfl
  | some text => exact lines_eq [] text

end Reading

section Writing

variable {fails : Place → Bool} {disk disk' : Disk} {cwd : Place} {file : List UInt8}
  {f : UnZipUtils.File}
  {t t' : Tree} {place : Place}

/-- A file that is there where one can be opened is found. -/
theorem find_of_target (h : f.target t = some place) (hfile : t.kind place = some .file) :
    f.find t = some place := by
  obtain ⟨hvalid, parent, name, hwalk, hlast, hdir, rfl⟩ := UnZipUtils.File.target_iff.mp h
  have henter := Tree.enter_of_isName hdir.2.1 parent
  have hleads : t.leads parent name = true := by
    rw [Tree.leads, hdir.1, henter, hfile]
    rfl
  rw [UnZipUtils.File.find, hvalid,
    if_neg Bool.false_ne_true, ← List.dropLast_append_getLast? name hlast,
    Tree.walk_append, hwalk, Option.bind_some, Tree.walk, if_pos hleads, henter]
  rfl

/-- The same place is opened in a larger tree that has no directory there. -/
theorem target_of_le (h : f.target t = some place) (hle : t.Le t')
    (hnot : t'.kind place ≠ some .dir) : f.target t' = some place := by
  obtain ⟨hvalid, parent, name, hwalk, hlast, hdir, rfl⟩ := UnZipUtils.File.target_iff.mp h
  exact UnZipUtils.File.target_iff.mpr
    ⟨hvalid, parent, name, hle.walk hwalk, hlast, ⟨hle _ _ hdir.1, hdir.2.1, hnot⟩, rfl⟩

/-- Nothing is opened in a tree that has a directory there. -/
theorem target_of_dir (h : f.target t = some place) (hdir : t'.kind place = some .dir) :
    f.target t' = none := by
  cases htarget : f.target t' with
  | none => rfl
  | some place' =>
    obtain ⟨-, -, -, -, -, hnot⟩ := UnZipUtils.File.target_eq_some htarget
    rw [UnZipUtils.File.place_of_target htarget, ← UnZipUtils.File.place_of_target h] at hnot
    exact absurd hdir hnot

/-- What names a directory does so in a larger tree. -/
theorem namesDirectory_of_le {path : List UInt8} (h : NamesDirectory t cwd path) (hle : t.Le t') :
    NamesDirectory t' cwd path := by
  obtain ⟨place, hplace, hdir⟩ := h
  refine ⟨place, ?_, hle _ _ hdir⟩
  rw [resolve] at hplace ⊢
  split_ifs at hplace ⊢ with hempty habs
  · exact hle.walk hplace
  · exact hle.walk hplace

/-- What is opened for reading is what is at the place that is opened for writing. -/
theorem openIn_eq (target : Target disk cwd file) :
    openIn disk cwd (data file) =
      if disk.tree.kind target.place = some .file then
        some (disk.content target.place) else none := by
  rw [openIn]
  by_cases hfile : disk.tree.kind target.place = some .file
  · rw [find_of_target target.opens hfile, Option.bind_some]
  · rw [if_neg hfile, Option.bind_eq_none_iff]
    intro place hplace
    rw [UnZipUtils.File.place_of_find hplace, ← UnZipUtils.File.place_of_target target.opens,
      if_neg hfile]

/-- Where a file can be opened, there is one afterwards, with what was in it. -/
theorem createNewFile_spec (target : Target disk cwd file) :
    disk.tree.Le (createNewFile disk target.place).tree ∧
      (createNewFile disk target.place).tree.kind target.place = some .file ∧
      (createNewFile disk target.place).content target.place = content disk cwd file := by
  obtain ⟨name, -, hname, hplace, hdir, hnot⟩ := UnZipUtils.File.target_eq_some target.opens
  rw [content, openIn_eq target, createNewFile]
  cases hkind : disk.tree.kind target.place with
  | none =>
    have hfree : disk.tree.Free target.place := by
      refine ⟨?_, ?_, ?_, hkind⟩
      · rw [hplace]
        exact List.cons_ne_nil _ _
      · rw [hplace]
        exact hdir
      · rw [hplace]
        intro other hother
        obtain rfl : name = other := Option.some.inj hother
        exact hname
    rw [if_pos rfl, if_neg (fun h => by cases h)]
    refine ⟨Tree.le_put .file disk.tree _, ?_, Function.update_self ..⟩
    rw [Tree.kind_put, if_pos ⟨hfree, rfl⟩]
  | some k =>
    cases k with
    | dir => exact absurd hkind hnot
    | file =>
      rw [if_neg (fun h => by cases h), if_pos rfl]
      exact ⟨Tree.Le.refl _, hkind, rfl⟩

/-- The same file in a larger tree that has no directory in its place. -/
def Target.grown (target : Target disk cwd file) (hle : disk.tree.Le t)
    (hnot : t.kind target.place ≠ some .dir) : Target ⟨t, disk.content⟩ cwd file :=
  ⟨target.place, target_of_le target.opens hle hnot, namesDirectory_of_le target.directory hle⟩

/-- The same file behind a call that has written it. -/
def Target.next (target : Target disk cwd file) (str : List UInt8) (isAppend : Bool) :
    Target (write disk target.place str isAppend) cwd file :=
  have hspec := createNewFile_spec target
  have hnot : (write disk target.place str isAppend).tree.kind target.place ≠ some .dir := by
    intro hdir
    cases hspec.2.1.symm.trans hdir
  ⟨target.place, target_of_le target.opens hspec.1 hnot,
    namesDirectory_of_le target.directory hspec.1⟩

/-- In a larger tree with the same at its place, the same is in the file. -/
theorem content_grown (target : Target disk cwd file) (hle : disk.tree.Le t)
    (hnot : t.kind target.place ≠ some .dir)
    (hsame : t.kind target.place = disk.tree.kind target.place) :
    content ⟨t, disk.content⟩ cwd file = content disk cwd file := by
  rw [content, content, openIn_eq target, openIn_eq (target.grown hle hnot)]
  change Option.getD (if t.kind target.place = some .file then _ else _) _ = _
  rw [hsame]
  rfl

/-- What has been written is in the file. -/
theorem content_write (target : Target disk cwd file) (str : List UInt8) (isAppend : Bool) :
    content (write disk target.place str isAppend) cwd file =
      if isAppend then content disk cwd file ++ str else str := by
  have hspec := createNewFile_spec target
  have hkind : (write disk target.place str isAppend).tree.kind (target.next str isAppend).place =
      some .file := hspec.2.1
  rw [content, openIn_eq (target.next str isAppend), if_pos hkind, Option.getD_some, ← hspec.2.2]
  refine (Function.update_self ..).trans ?_
  cases isAppend with
  | true => rfl
  | false => rfl

/-- No directory is in the place of a file that can be written. -/
theorem kind_ne_dir (target : Target disk cwd file) :
    disk.tree.kind target.place ≠ some .dir := by
  obtain ⟨-, -, -, -, -, hnot⟩ := UnZipUtils.File.target_eq_some target.opens
  exact hnot

/-- `makeDir` leaves a larger tree, in which the place of the file is as it was unless a directory
is made there. -/
theorem makeDir_grows (target : Target disk cwd file) (hfits : Fits cwd file)
    (hblocked : ¬ Blocked fails disk cwd file target.place) :
    ∃ result t, makeDir fails disk.tree cwd (dirname (data file)) = some (result, t) ∧
      disk.tree.Le t ∧ t.kind target.place = disk.tree.kind target.place := by
  by_cases hlost : Lost cwd (dirname (data file))
  · have hcs : ∀ c ∈ components (dirname (data file)), slash ∉ c := fun _ h =>
      slash_not_mem_components h
    refine ⟨_, _, makeDir_of_lost fails hlost hfits, visit_le fails hcs _ _, ?_⟩
    rcases visit_changed fails hcs disk.tree [] target.place with hsame | ⟨hfree, hdir, -⟩
    · exact hsame
    · obtain ⟨hworks, hway⟩ := (visit_makes_iff fails hcs _ disk.tree.root hfree).mp hdir
      exact absurd ⟨hlost, hfree, hworks, hway⟩ hblocked
  · refine ⟨0, disk.tree, ?_, Tree.Le.refl _, rfl⟩
    rw [makeDir_existing fails target.directory hlost]
    exact if_pos hfits

/-- Without room for the directory a call does not come to its end. -/
theorem fits_of_writeText {str : List UInt8} {isAppend : Bool}
    (h : writeText fails disk cwd file str isAppend = some disk') : Fits cwd file := by
  by_contra hfits
  rw [Fits] at hfits
  rw [writeText, makeDir, if_neg hfits] at h
  cases h

/-- A call of `writeText` writes the file if no directory is made in its place. -/
theorem writeText_spec (target : Target disk cwd file) (hfits : Fits cwd file)
    (hblocked : ¬ Blocked fails disk cwd file target.place) (str : List UInt8) (isAppend : Bool) :
    ∃ disk', writeText fails disk cwd file str isAppend = some disk' ∧
      (∃ next : Target disk' cwd file, disk'.tree.kind next.place = some .file) ∧
      content disk' cwd file = if isAppend then content disk cwd file ++ str else str := by
  obtain ⟨result, t, hmade, hle, hsame⟩ := makeDir_grows target hfits hblocked
  have hnot : t.kind target.place ≠ some .dir := hsame ▸ kind_ne_dir target
  let grown := target.grown hle hnot
  refine ⟨write ⟨t, disk.content⟩ target.place str isAppend, ?_, ⟨grown.next str isAppend, ?_⟩, ?_⟩
  · rw [writeText, hmade, Option.map_some]
    simp only [grown.opens]
    rfl
  · exact (createNewFile_spec grown).2.1
  · rw [← content_grown target hle hnot hsame]
    exact content_write grown str isAppend

/-- A file that is there is not in the way of a directory. -/
theorem not_blocked_of_file {disk : Disk} (hfile : disk.tree.kind place = some .file) :
    ¬ Blocked fails disk cwd file place := by
  intro h
  have hfree := h.made.free
  rw [hfile] at hfree
  cases hfree

/-- The calls write what is to be written, if there are none or the file is not blocked. -/
theorem writeTexts_spec {calls : List Write} (target : Target disk cwd file)
    (h : calls = [] ∨ Fits cwd file ∧ ¬ Blocked fails disk cwd file target.place) :
    ∃ disk', writeTexts fails cwd file calls disk = some disk' ∧
      content disk' cwd file = written (content disk cwd file) calls := by
  induction calls generalizing disk with
  | nil => exact ⟨disk, rfl, rfl⟩
  | cons call calls ih =>
    obtain ⟨hfits, hblocked⟩ := h.resolve_left (List.cons_ne_nil _ _)
    obtain ⟨next, hnext, ⟨there, hfile⟩, hwritten⟩ :=
      writeText_spec target hfits hblocked call.str call.isAppend
    obtain ⟨disk', hrun, hcontent⟩ := ih there (.inr ⟨hfits, not_blocked_of_file hfile⟩)
    refine ⟨disk', ?_, ?_⟩
    · rw [writeTexts, hnext, Option.bind_some]
      exact hrun
    · rw [hcontent, hwritten]
      rfl

/-- Nothing is read where a directory is in the place of the file. -/
theorem openIn_of_dir (target : Target disk cwd file)
    (hdir : disk'.tree.kind target.place = some .dir) : openIn disk' cwd (data file) = none := by
  rw [openIn, Option.bind_eq_none_iff]
  intro place hplace
  rw [UnZipUtils.File.place_of_find hplace, ← UnZipUtils.File.place_of_target target.opens, if_neg]
  rw [hdir]
  exact fun hkind => by cases hkind

/-- A call of `writeText` leaves a directory in the place of the file. -/
theorem writeText_of_dir (target : Target disk cwd file) (hfits : Fits cwd file)
    (hlost : Lost cwd (dirname (data file))) {between : Disk}
    (hdir : (visit fails between.tree [] (components (dirname (data file)))).2.kind target.place =
      some .dir) (str : List UInt8) (isAppend : Bool) :
    ∃ disk', writeText fails between cwd file str isAppend = some disk' ∧
      disk'.tree.kind target.place = some .dir := by
  refine ⟨⟨_, between.content⟩, ?_, hdir⟩
  rw [writeText, makeDir_of_lost fails hlost hfits, Option.map_some]
  simp only [target_of_dir target.opens hdir]

/-- The calls leave a directory in the place of the file. -/
theorem writeTexts_of_dir (target : Target disk cwd file) (hfits : Fits cwd file)
    (hlost : Lost cwd (dirname (data file))) {between : Disk}
    (hdir : between.tree.kind target.place = some .dir) (calls : List Write) :
    ∃ disk', writeTexts fails cwd file calls between = some disk' ∧
      disk'.tree.kind target.place = some .dir := by
  induction calls generalizing between with
  | nil => exact ⟨between, rfl, hdir⟩
  | cons call calls ih =>
    have hcs : ∀ c ∈ components (dirname (data file)), slash ∉ c := fun _ h =>
      slash_not_mem_components h
    obtain ⟨next, hnext, hkind⟩ := writeText_of_dir target hfits hlost
      (visit_le fails hcs between.tree [] _ _ hdir) call.str call.isAppend
    obtain ⟨disk', hrun, hend⟩ := ih hkind
    refine ⟨disk', ?_, hend⟩
    rw [writeTexts, hnext, Option.bind_some]
    exact hrun

/-- Calls on a blocked file leave a directory in its place. -/
theorem Blocked.writeTexts (target : Target disk cwd file) (hfits : Fits cwd file)
    (h : Blocked fails disk cwd file target.place) {calls : List Write} (hcalls : calls ≠ []) :
    ∃ disk', writeTexts fails cwd file calls disk = some disk' ∧
      disk'.tree.kind target.place = some .dir := by
  obtain ⟨call, calls, rfl⟩ := List.exists_cons_of_ne_nil hcalls
  have hcs : ∀ c ∈ components (dirname (data file)), slash ∉ c := fun _ h =>
    slash_not_mem_components h
  have hdir := (visit_makes_iff fails hcs _ disk.tree.root h.made.free).mpr
    ⟨h.made.works, h.made.way⟩
  obtain ⟨next, hnext, hkind⟩ := writeText_of_dir target hfits h.lost hdir call.str call.isAppend
  obtain ⟨disk', hrun, hend⟩ := writeTexts_of_dir target hfits h.lost hkind calls
  refine ⟨disk', ?_, hend⟩
  rw [fileUtils.writeTexts, hnext, Option.bind_some]
  exact hrun

/-- A run has no calls, or room for the directory of the file. -/
theorem fits_of_writeTexts {calls : List Write}
    (h : writeTexts fails cwd file calls disk = some disk') : calls = [] ∨ Fits cwd file := by
  cases calls with
  | nil => exact .inl rfl
  | cons call calls =>
    obtain ⟨next, hnext, -⟩ := Option.bind_eq_some_iff.mp h
    exact .inr (fits_of_writeText hnext)

end Writing

variable {fails : Place → Bool} {disk disk' : Disk} {cwd : Place} {file : List UInt8}
  {calls : List Write}

/-- Where the file is blocked, nothing is read, which is right when nothing is to be in it. -/
theorem readsBack_of_dir (target : Target disk cwd file)
    (hrun : writeTexts fails cwd file calls disk = some disk')
    (hdir : disk'.tree.kind target.place = some .dir) :
    ReadsBack fails disk cwd file calls disk' ↔ written (content disk cwd file) calls = [] := by
  have hnone := openIn_of_dir target hdir
  have hread : readText disk' cwd file = [] := by rw [readText, hnone]
  constructor
  · intro h
    rw [← h.reads, hread]
  · intro h
    refine ⟨hrun, by rw [hread, h], fun text hopen => ?_⟩
    rw [hnone] at hopen
    cases hopen

/-- Where the file is as it is to be, it is read back when it has neither newlines nor zeros. -/
theorem readsBack_of_content
    (hrun : writeTexts fails cwd file calls disk = some disk')
    (hcontent : content disk' cwd file = written (content disk cwd file) calls) :
    ReadsBack fails disk cwd file calls disk' ↔
      0x0a ∉ written (content disk cwd file) calls ∧
        0 ∉ written (content disk cwd file) calls := by
  constructor
  · intro h
    have hreads := h.reads
    rw [readText_eq, hcontent, filter_eq_self_iff] at hreads
    refine ⟨hreads, ?_⟩
    rw [← hcontent, content]
    cases hopen : openIn disk' cwd (data file) with
    | none => exact List.not_mem_nil
    | some text => exact (readTextFile_eq_self_iff text).mp (h.agree text hopen).2
  · rintro ⟨hnewline, hzero⟩
    have hread : readText disk' cwd file = written (content disk cwd file) calls := by
      rw [readText_eq, hcontent]
      exact (filter_eq_self_iff _).mpr hnewline
    refine ⟨hrun, hread, fun text hopen => ?_⟩
    have htext : written (content disk cwd file) calls = text := by
      rw [← hcontent, content, hopen, Option.getD_some]
    rw [htext] at hread hzero
    exact ⟨hread, (readTextFile_eq_self_iff text).mpr hzero⟩

/-- The calls have one run. -/
theorem writtenIsRead_iff_readsBack (hrun : writeTexts fails cwd file calls disk = some disk') :
    WrittenIsRead fails disk cwd file calls ↔ ReadsBack fails disk cwd file calls disk' := by
  constructor
  · rintro ⟨disk'', h⟩
    obtain rfl : disk'' = disk' := Option.some.inj (h.runs.symm.trans hrun)
    exact h
  · exact fun h => ⟨disk', h⟩

/-- What is written is what is read exactly if the path of the directory fits into the buffer of
`makeDir`, where anything is written, no directory is made in the place of the file, where anything
is to be in it, and what is in the file in the end has neither a newline nor a zero. -/
theorem writtenIsRead_iff (fails : Place → Bool) (target : Target disk cwd file)
    (calls : List Write) :
    WrittenIsRead fails disk cwd file calls ↔
      (calls = [] ∨ Fits cwd file ∧ (Blocked fails disk cwd file target.place →
        written (content disk cwd file) calls = [])) ∧
        0x0a ∉ written (content disk cwd file) calls ∧
          0 ∉ written (content disk cwd file) calls := by
  by_cases hfits : calls = [] ∨ Fits cwd file
  · by_cases hblocked : calls ≠ [] ∧ Blocked fails disk cwd file target.place
    · obtain ⟨hcalls, hblocked⟩ := hblocked
      have hfits := hfits.resolve_left hcalls
      obtain ⟨disk', hrun, hdir⟩ := hblocked.writeTexts target hfits hcalls
      rw [writtenIsRead_iff_readsBack hrun, readsBack_of_dir target hrun hdir]
      constructor
      · intro hnil
        rw [hnil]
        exact ⟨.inr ⟨hfits, fun _ => rfl⟩, List.not_mem_nil, List.not_mem_nil⟩
      · rintro ⟨h, -⟩
        exact (h.resolve_left hcalls).2 hblocked
    · have hwrites : calls = [] ∨ Fits cwd file ∧ ¬ Blocked fails disk cwd file target.place := by
        rcases hfits with hnil | hfits
        · exact .inl hnil
        · by_cases hnil : calls = []
          · exact .inl hnil
          · exact .inr ⟨hfits, fun h => hblocked ⟨hnil, h⟩⟩
      obtain ⟨disk', hrun, hcontent⟩ := writeTexts_spec target hwrites
      rw [writtenIsRead_iff_readsBack hrun, readsBack_of_content hrun hcontent]
      refine (and_iff_right ?_).symm
      exact hwrites.imp_right fun h => ⟨h.1, fun hblocked => absurd hblocked h.2⟩
  · refine iff_of_false ?_ fun h => hfits (h.1.imp_right And.left)
    rintro ⟨disk', h⟩
    exact hfits (fits_of_writeTexts h.runs)

/-- Two lines are read as one. -/
theorem joined : ¬ WrittenIsRead (fun _ => false) ⟨Tree.bare, fun _ => []⟩ [] [0x66]
    [⟨[0x61, 0x0a, 0x62], false⟩] := by
  have target : Target ⟨Tree.bare, fun _ => []⟩ [] [0x66] :=
    ⟨[[0x66]], by decide, ⟨[], by decide, by decide⟩⟩
  have hlost : ¬ Lost [] (dirname (data [0x66])) := by decide
  have hfits : Fits [] [0x66] := by
    unfold Fits
    decide
  obtain ⟨disk', hrun, hcontent⟩ : ∃ disk', writeTexts (fun _ => false) [] [0x66]
      [⟨[0x61, 0x0a, 0x62], false⟩] ⟨Tree.bare, fun _ => []⟩ = some disk' ∧ _ :=
    writeTexts_spec target (.inr ⟨hfits, fun h => hlost h.lost⟩)
  rw [writtenIsRead_iff_readsBack hrun, readsBack_of_content hrun hcontent]
  exact fun h => h.1 (by decide)

end XposedJniTrace.fileUtils
