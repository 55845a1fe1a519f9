import Mathlib.Data.List.Infix
import XposedJniTrace.Library.FileTree

/-!
# Unpacking an archive

`UnZipFolder` of `UnZipUtils.java` and `makeSureDirExist` of `FileUtils.java` over a disk without
links, with the operations of `java.io.File` that they use. What the entries are handed over with is
their names and contents; what else goes wrong while one is handled is an input: the places at which
nothing can be made, opened or changed, and where something throws. Every exception ends the
unpacking and is swallowed. What `delFiles` does to the disk is any function.

An entry's name is put behind the directory as it is, so that what is made, overwritten or changed
is in the directory only as far as the names of the entries lead there.
-/

namespace XposedJniTrace.UnZipUtils

open FileTree

/-- A file: where its path begins, and the components of the path. -/
structure File where
  origin : Place
  names : List Name

/-- The file of a path. -/
def file (userDir : Place) (path : List UInt8) : File :=
  ⟨if path.head? = some slash then [] else userDir, components path⟩

namespace File

/-- The place of the normalised path. -/
def place (f : File) : Place := Tree.normal f.origin f.names

/-- No file has a path with a zero byte. -/
def isInvalid (f : File) : Bool := f.names.any fun c => 0 ∈ c

/-- What the path leads to. -/
def find (f : File) (t : Tree) : Option Place := if f.isInvalid then none
    else t.walk f.origin f.names

/-- `File.exists` -/
def «exists» (f : File) (t : Tree) : Bool := (f.find t).isSome

/-- `File.isFile` -/
def isFile (f : File) (t : Tree) : Bool := (f.find t).any fun place => t.kind place = some .file

/-- The path without its last name. -/
def getParentFile (f : File) : File := ⟨f.origin, f.names.dropLast⟩

/-- `mkdirs`, which goes by the canonical path, and what it makes. -/
def mkdirs (denied : Place → Bool) (f : File) (t : Tree) : Tree × List Place :=
  if f.isInvalid then (t, []) else t.makeAll denied f.place

/-- Where the file is that `createNewFile` makes or an output stream opens: in a directory, under a
name that is not that of a directory. -/
def target (f : File) (t : Tree) : Option Place :=
  if f.isInvalid then none
  else
    (t.walk f.getParentFile.origin f.getParentFile.names).bind fun place =>
      f.names.getLast?.bind fun name =>
        if t.kind place = some .dir ∧ IsName name ∧ t.kind (name :: place) ≠ some .dir then
          some (name :: place)
        else none

end File

/-- The entries of the disk, and what is in its files. -/
structure Disk where
  tree : Tree
  content : Place → List UInt8

/-- An entry of the archive. -/
structure ZipEntry where
  name : List UInt8
  content : List UInt8

/-- What throws while an entry is handled, apart from what the disk does. -/
inductive Throw where
  /-- `getNextEntry`, so that the entry is not handed over. -/
  | next
  /-- The constructor of the output stream. -/
  | stream
  /-- A `read` or a `write`, with so much of the content written. -/
  | copy (written : ℕ)
  deriving DecidableEq

/-- An entry, and what goes wrong while it is handled. -/
structure Item where
  entry : ZipEntry
  denied : Place → Bool
  thrown : Option Throw

/-- The disk behind the handling of an entry, what has been made, overwritten or changed, and
whether something has been thrown. -/
structure Handled where
  disk : Disk
  touched : List Place
  ended : Bool

/-- `makeSureDirExist`, and what it makes or changes the permissions of. -/
def makeSureDirExist (denied : Place → Bool) (t : Tree) (f : File) : Tree × List Place :=
  if f.names = [[]] then (t, [])
  else if f.isFile t then (t, [])
  else
    let made := f.mkdirs denied t
    (made.1, made.2 ++ ((f.find made.1).filter fun place => !denied place).toList)

/-- `createNewFile`, at a place that a file can be opened at. -/
def createNewFile (disk : Disk) (place : Place) : Disk :=
  if disk.tree.kind place = none then
    ⟨disk.tree.put .file place, Function.update disk.content place []⟩
  else disk

/-- The file is created and copied to. -/
def write (item : Item) (disk : Disk) (place : Place) : Handled :=
  let created := createNewFile disk place
  match item.thrown with
  | some .stream => ⟨created, if disk.tree.kind place = none then [place] else [], true⟩
  | some (.copy n) =>
    ⟨⟨created.tree, Function.update created.content place (item.entry.content.take n)⟩,
      [place], true⟩
  | _ => ⟨⟨created.tree, Function.update created.content place item.entry.content⟩, [place], false⟩

/-- An entry that is a file. -/
def unzipFile (item : Item) (disk : Disk) (f : File) : Handled :=
  let made := if f.exists disk.tree then (disk.tree, [])
    else f.getParentFile.mkdirs item.denied disk.tree
  match (f.target made.1).filter fun place => !item.denied place with
  | none => ⟨⟨made.1, disk.content⟩, made.2, true⟩
  | some place =>
    let written := write item ⟨made.1, disk.content⟩ place
    ⟨written.disk, made.2 ++ written.touched, written.ended⟩

/-- `ZipEntry.isDirectory`. -/
def ZipEntry.isDirectory (e : ZipEntry) : Bool := e.name.getLast? = some slash

/-- `lib` -/
def lib : List UInt8 := [0x6c, 0x69, 0x62]

/-- The file that an entry is unpacked to. -/
def ZipEntry.file (userDir : Place) (cachePath : List UInt8) (e : ZipEntry) : File :=
  UnZipUtils.file userDir (cachePath ++ [slash] ++ if e.isDirectory then
    e.name.dropLast else e.name)

/-- One round of the loop. -/
def handle (userDir : Place) (cachePath : List UInt8) (item : Item) (disk : Disk) : Handled :=
  let f := item.entry.file userDir cachePath
  if item.thrown = some .next then ⟨disk, [], true⟩
  else if item.entry.isDirectory then
    let made := makeSureDirExist item.denied disk.tree f
    ⟨⟨made.1, disk.content⟩, made.2, false⟩
  else if lib <:+: item.entry.name then unzipFile item disk f
  else ⟨disk, [], false⟩

/-- The loop over the entries. -/
def unzip (userDir : Place) (cachePath : List UInt8) : List Item → Disk → Disk × List Place
  | [], disk => (disk, [])
  | item :: items, disk =>
    let handled := handle userDir cachePath item disk
    if handled.ended then (handled.disk, handled.touched)
    else
      let rest := unzip userDir cachePath items handled.disk
      (rest.1, handled.touched ++ rest.2)

/-- The disk that is unpacked to. -/
def cleanUp (userDir : Place) (delFiles : Disk → Disk) (cachePath : List UInt8)
    (disk : Disk) : Disk :=
  if (file userDir cachePath).exists disk.tree then delFiles disk else disk

/-- `UnZipFolder`: the disk that it leaves, and what it makes, overwrites or changes. -/
def UnZipFolder (userDir : Place) (delFiles : Disk → Disk) (items : List Item)
    (cachePath : List UInt8)
    (disk : Disk) : Disk × List Place :=
  unzip userDir cachePath items (cleanUp userDir delFiles cachePath disk)

/-- All that is made, overwritten or changed is in the directory. -/
def StaysInside (userDir : Place) (delFiles : Disk → Disk) (items : List Item)
    (cachePath : List UInt8)
    (disk : Disk) : Prop :=
  ∀ place ∈ (UnZipFolder userDir delFiles items cachePath disk).2,
    (file userDir cachePath).place <:+ place

/-- The first directory that is missing on the way to a file, if it can be made, is inside. -/
def MakesInside (top : Place) (denied : Place → Bool) (t : Tree) (f : File) : Prop :=
  f.isInvalid = false → ∀ first, t.firstMissing f.place = some first → t.Free first →
    denied first = false → top <:+ first

/-- What an entry makes first, opens or changes on a disk is inside. -/
def EntryInside (userDir : Place) (cachePath : List UInt8) (item : Item) (t : Tree) : Prop :=
  let top := (file userDir cachePath).place
  let f := item.entry.file userDir cachePath
  if item.entry.isDirectory then
    f.isFile t = true ∨ MakesInside top item.denied t f ∧
      ∀ place, f.find t = some place → item.denied place = false → top <:+ place
  else
    lib <:+: item.entry.name → MakesInside top item.denied t f.getParentFile ∧
      ∀ place, f.target t = some place → item.denied place = false →
        (item.thrown = some .stream → t.kind place = none) → top <:+ place

/-- Every entry that is handed over is inside, on the disk in front of it. -/
def EachInside (userDir : Place) (cachePath : List UInt8) : List Item → Disk → Prop
  | [], _ => True
  | item :: items, disk =>
    (item.thrown ≠ some .next → EntryInside userDir cachePath item disk.tree) ∧
      ((handle userDir cachePath item disk).ended = false →
        EachInside userDir cachePath items (handle userDir cachePath item disk).disk)

section Files

variable {denied : Place → Bool} {t : Tree} {f : File} {place top : Place}

/-- What a path leads to is its normalised place. -/
theorem File.place_of_find (h : f.find t = some place) : place = f.place := by
  rw [File.find] at h
  split_ifs at h
  exact Tree.normal_of_walk h

/-- A path can be opened where its parent is a directory and its last name is that of none. -/
theorem File.target_iff : f.target t = some place ↔
    f.isInvalid = false ∧ ∃ parent name, t.walk f.origin f.names.dropLast = some parent ∧
      f.names.getLast? = some name ∧
      (t.kind parent = some .dir ∧ IsName name ∧ t.kind (name :: parent) ≠ some .dir) ∧
        place = name :: parent := by
  rw [File.target]
  constructor
  · intro h
    split_ifs at h with hinvalid
    obtain ⟨parent, hwalk, h⟩ := Option.bind_eq_some_iff.mp h
    obtain ⟨name, hlast, h⟩ := Option.bind_eq_some_iff.mp h
    split_ifs at h with hdir
    exact ⟨Bool.eq_false_iff.mpr hinvalid, parent, name, hwalk, hlast, hdir,
      (Option.some.inj h).symm⟩
  · intro h
    obtain ⟨hvalid, parent, name, hwalk, hlast, hdir, rfl⟩ := h
    have hparent : t.walk f.getParentFile.origin f.getParentFile.names = some parent := hwalk
    rw [hvalid, if_neg Bool.false_ne_true, hparent, Option.bind_some, hlast,
      Option.bind_some, if_pos hdir]

/-- A target is under a name in the parent, which is a directory. -/
theorem File.target_eq_some (h : f.target t = some place) :
    ∃ name, f.names = f.getParentFile.names ++ [name] ∧ IsName name ∧
      place = name :: f.getParentFile.place ∧
      t.kind f.getParentFile.place = some .dir ∧ t.kind place ≠ some .dir := by
  obtain ⟨-, parent, name, hwalk, hlast, hdir, rfl⟩ := File.target_iff.mp h
  obtain rfl : parent = f.getParentFile.place := Tree.normal_of_walk hwalk
  exact ⟨name, (List.dropLast_append_getLast? name hlast).symm, hdir.2.1, rfl, hdir.1, hdir.2.2⟩

/-- A file that is opened is below the place of its parent. -/
theorem File.parent_suffix_of_target (h : f.target t = some place) :
    f.getParentFile.place <:+ place := by
  obtain ⟨name, -, -, rfl, -, -⟩ := File.target_eq_some h
  exact List.suffix_cons name _

/-- A file that is opened is at the normalised place of its path. -/
theorem File.place_of_target (h : f.target t = some place) : place = f.place := by
  obtain ⟨name, hnames, hname, rfl, -, -⟩ := File.target_eq_some h
  have hplace : f.place = enter f.getParentFile.place name :=
    (congrArg (Tree.normal f.origin) hnames).trans (List.foldl_concat ..)
  rw [hplace, Tree.enter_of_isName hname]

/-- The way to a file that exists is there. -/
theorem File.firstMissing_of_find (hnames : f.names ≠ []) (h : f.find t = some place) :
    t.firstMissing f.getParentFile.place = none := by
  rw [File.find] at h
  split_ifs at h
  rw [← List.dropLast_concat_getLast hnames, Tree.walk_append] at h
  cases hwalk : t.walk f.origin f.names.dropLast with
  | none =>
    rw [hwalk] at h
    cases h
  | some parent =>
    rw [hwalk, Option.bind_some, Tree.walk] at h
    split_ifs at h with hleads
    rw [Tree.leads, Bool.and_eq_true, decide_eq_true_eq] at hleads
    have hparent : f.getParentFile.place = parent := (Tree.normal_of_walk hwalk).symm
    rw [Tree.firstMissing_eq_none_iff, hparent, hleads.1]
    exact Option.some_ne_none _

/-- `mkdirs` makes nothing, and leaves the tree, or makes what is on the way. -/
theorem File.mkdirs_cases (denied : Place → Bool) (f : File) (t : Tree) :
    ((f.mkdirs denied t).1 = t ∧ (f.mkdirs denied t).2 = []) ∨
      ∃ made ∈ (f.mkdirs denied t).2, made <:+ f.place := by
  rw [File.mkdirs]
  split_ifs
  · exact .inl ⟨rfl, rfl⟩
  · rcases Tree.makeAll_from_first denied t f.place with ⟨hnil, -⟩ | ⟨first, hfirst, -, -, hmem, -⟩
    · exact .inl ⟨Tree.makeAll_of_nil hnil, hnil⟩
    · exact .inr ⟨first, hmem, Tree.firstMissing_suffix hfirst⟩

/-- All that `mkdirs` makes is below a directory exactly when it makes nothing else on the way. -/
theorem File.mkdirs_inside :
    (∀ made ∈ (f.mkdirs denied t).2, top <:+ made) ↔ MakesInside top denied t f := by
  rw [File.mkdirs, MakesInside]
  split_ifs with hinvalid
  · rw [hinvalid]
    exact iff_of_true (List.forall_mem_nil _) fun h => by cases h
  · rw [Bool.not_eq_true] at hinvalid
    rw [forall_prop_of_true hinvalid]
    rcases Tree.makeAll_from_first denied t f.place with
      ⟨hnil, hnot⟩ | ⟨first, hfirst, hfree, hallowed, hmem, hbelow⟩
    · rw [hnil]
      exact iff_of_true (List.forall_mem_nil _) fun first hfirst hfree hallowed =>
        absurd ⟨hfree, hallowed⟩ (hnot first hfirst)
    · constructor
      · intro h other hother _ _
        obtain rfl : first = other := Option.some.inj (hfirst.symm.trans hother)
        exact h first hmem
      · intro h made hmade
        exact (h first hfirst hfree hallowed).trans (hbelow made hmade)

/-- Behind directories that are made inside, what a file leads to is inside if it was in front of
them. -/
theorem found_inside {t' : Tree} {made : List Place} {above : Place} (found : Tree → Option Place)
    (Q : Tree → Place → Prop) (hcases : (t' = t ∧ made = []) ∨ ∃ m ∈ made, m <:+ above)
    (habove : ∀ t place, found t = some place → above <:+ place) (hmade : ∀ m ∈ made, top <:+ m) :
    (∀ place, found t' = some place → Q t' place → top <:+ place) ↔
      ∀ place, found t = some place → Q t place → top <:+ place := by
  rcases hcases with ⟨rfl, -⟩ | ⟨m, hm, hsuffix⟩
  · rfl
  · have hinside := (hmade m hm).trans hsuffix
    exact iff_of_true (fun place hplace _ => hinside.trans (habove t' place hplace))
      fun place hplace _ => hinside.trans (habove t place hplace)

/-- What is found counts unless it is denied. -/
theorem mem_filter_toList {found : Option Place} :
    place ∈ (found.filter fun place => !denied place).toList ↔
      found = some place ∧ denied place = false := by
  rw [Option.mem_toList, Option.filter_eq_some_iff, Bool.not_eq_true']

/-- All that is made or touched for a directory is below another exactly when the one is there, or
is made there. -/
theorem makeSureDirExist_inside (hnames : f.names ≠ [[]]) :
    (∀ place ∈ (makeSureDirExist denied t f).2, top <:+ place) ↔
      f.isFile t = true ∨ MakesInside top denied t f ∧
        ∀ place, f.find t = some place → denied place = false → top <:+ place := by
  rw [makeSureDirExist, if_neg hnames]
  split_ifs with hfile
  · exact iff_of_true (List.forall_mem_nil _) (.inl hfile)
  · rw [or_iff_right hfile, ← File.mkdirs_inside]
    simp only [List.forall_mem_append, mem_filter_toList, and_imp]
    refine and_congr_right fun hmade => ?_
    exact found_inside f.find (fun _ place => denied place = false) (f.mkdirs_cases denied t)
      (fun t place h => File.place_of_find h ▸ List.suffix_rfl) hmade

end Files

section Entries

variable {userDir top : Place} {cachePath : List UInt8} {item : Item} {disk : Disk} {f : File}

/-- What writing touches is below a directory exactly when the place is, where the place is touched
at all. -/
theorem write_inside (hnext : item.thrown ≠ some .next) {place : Place} :
    (∀ p ∈ (write item disk place).touched, top <:+ p) ↔
      ((item.thrown = some .stream → disk.tree.kind place = none) → top <:+ place) := by
  rw [write]
  cases hthrown : item.thrown with
  | none => exact List.forall_mem_singleton.trans (imp_iff_right fun h => by cases h).symm
  | some thrown =>
    cases thrown with
    | next => exact absurd hthrown hnext
    | copy n => exact List.forall_mem_singleton.trans (imp_iff_right fun h => by cases h).symm
    | stream =>
      change (∀ p ∈ (if disk.tree.kind place = none then [place] else []), top <:+ p) ↔ _
      rw [imp_iff_right rfl]
      split_ifs with hnone
      · exact List.forall_mem_singleton.trans (imp_iff_right hnone).symm
      · exact iff_of_true (List.forall_mem_nil _) fun h => absurd h hnone

/-- The directories that are made for a file, and the tree with them. -/
theorem parent_made (top : Place) (denied : Place → Bool) (t : Tree) (hnames : f.names ≠ []) :
    let made := if f.exists t then (t, []) else f.getParentFile.mkdirs denied t
    ((∀ p ∈ made.2, top <:+ p) ↔ MakesInside top denied t f.getParentFile) ∧
      ((made.1 = t ∧ made.2 = []) ∨ ∃ m ∈ made.2, m <:+ f.getParentFile.place) := by
  split_ifs with hexists
  · refine ⟨iff_of_true (List.forall_mem_nil _) fun _ first hfirst => ?_,
      .inl ⟨rfl, rfl⟩⟩
    obtain ⟨place, hplace⟩ := Option.isSome_iff_exists.mp hexists
    rw [File.firstMissing_of_find hnames hplace] at hfirst
    cases hfirst
  · exact ⟨File.mkdirs_inside, File.mkdirs_cases denied _ t⟩

/-- What one file touches is below a directory exactly when the directories that it makes and the
place that it opens are. -/
theorem unzipFile_inside (hnext : item.thrown ≠ some .next) (hnames : f.names ≠ []) :
    (∀ p ∈ (unzipFile item disk f).touched, top <:+ p) ↔
      MakesInside top item.denied disk.tree f.getParentFile ∧
        ∀ place, f.target disk.tree = some place → item.denied place = false →
          (item.thrown = some .stream → disk.tree.kind place = none) → top <:+ place := by
  obtain ⟨hmade, hcases⟩ := parent_made top item.denied disk.tree hnames
  rw [unzipFile, ← hmade]
  generalize (if f.exists disk.tree then (disk.tree, [])
    else f.getParentFile.mkdirs item.denied disk.tree) =
    made at hmade hcases
  have hfound (hinside : ∀ p ∈ made.2, top <:+ p) := found_inside f.target
    (fun t place => item.denied place = false ∧ (item.thrown = some .stream → t.kind place = none))
    hcases (fun t place h => File.parent_suffix_of_target h) hinside
  simp only [and_imp] at hfound
  cases hopened : (f.target made.1).filter fun place => !item.denied place with
  | none =>
    refine (and_iff_left_of_imp fun hinside =>
      (hfound hinside).mp fun place hplace hallowed _ => ?_).symm
    have hnot := Option.filter_eq_none_iff.mp hopened place hplace
    rw [hallowed] at hnot
    exact absurd rfl hnot
  | some place =>
    obtain ⟨hplace, hallowed⟩ := Option.filter_eq_some_iff.mp hopened
    rw [Bool.not_eq_true'] at hallowed
    refine List.forall_mem_append.trans (and_congr_right fun hinside => ?_)
    rw [← hfound hinside, write_inside hnext]
    constructor
    · intro h other hother _ hstream
      obtain rfl : place = other := Option.some.inj (hplace.symm.trans hother)
      exact h hstream
    · intro h hstream
      exact h place hplace hallowed hstream

/-- The path of an entry has names, and is not empty. -/
theorem file_names (userDir : Place) (cachePath : List UInt8) (e : ZipEntry) :
    (e.file userDir cachePath).names ≠ [] ∧ (e.file userDir cachePath).names ≠ [[]] := by
  rw [ZipEntry.file, file]
  constructor
  · exact components_ne_nil _
  · intro h
    have hlength := congrArg List.length h
    rw [List.append_assoc, List.singleton_append, components_joined, List.length_append,
      List.length_singleton] at hlength
    have hfront := List.length_pos_iff.mpr (components_ne_nil cachePath)
    have hback := List.length_pos_iff.mpr
      (components_ne_nil (if e.isDirectory then e.name.dropLast else e.name))
    omega

/-- What one entry makes, overwrites or changes is inside exactly if the entry is on the disk in
front of it. -/
theorem handle_inside : (∀ p ∈ (handle userDir cachePath item disk).touched,
    (file userDir cachePath).place <:+ p) ↔
      (item.thrown ≠ some .next → EntryInside userDir cachePath item disk.tree) := by
  obtain ⟨hnil, hempty⟩ := file_names userDir cachePath item.entry
  rw [handle, EntryInside]
  by_cases hnext : item.thrown = some .next
  · rw [if_pos hnext]
    exact iff_of_true (List.forall_mem_nil _) fun h => absurd hnext h
  · rw [if_neg hnext, imp_iff_right hnext]
    split_ifs with hdir hlib
    · exact makeSureDirExist_inside hempty
    · rw [imp_iff_right hlib]
      exact unzipFile_inside hnext hnil
    · exact iff_of_true (List.forall_mem_nil _) fun h => absurd h hlib

/-- All that is touched is below the target directory exactly when each entry stays there, on the
disk in front of it. -/
theorem unzip_inside (userDir : Place) (cachePath : List UInt8) (items : List Item) (disk : Disk) :
    (∀ p ∈ (unzip userDir cachePath items disk).2, (file userDir cachePath).place <:+ p) ↔
      EachInside userDir cachePath items disk := by
  induction items generalizing disk with
  | nil => exact iff_of_true (List.forall_mem_nil _) trivial
  | cons item items ih =>
    rw [unzip, EachInside, ← handle_inside]
    split_ifs with hended
    · rw [hended]
      exact (and_iff_left fun h => by cases h).symm
    · rw [Bool.not_eq_true] at hended
      rw [hended, imp_iff_right rfl, ← ih]
      exact List.forall_mem_append

end Entries

section Names

variable {userDir top : Place} {cachePath : List UInt8} {denied : Place → Bool}
  {t : Tree} {f : File}
  {item : Item} {disk : Disk}

/-- Above a file that is inside, all that is missing is inside, when the directory is in one that is
there. -/
theorem makesInside_of_suffix (htop : t.kind top.tail ≠ none)
    (h : top <:+ f.place ∨ f.place = top.tail) :
    MakesInside top denied t f := by
  intro _ first hfirst hfree _
  have hway := Tree.firstMissing_suffix hfirst
  rcases h with hinside | hparent
  · by_cases hlength : top.length ≤ first.length
    · exact List.suffix_of_suffix_length_le hinside hway hlength
    · have habove := List.suffix_of_suffix_length_le hway hinside (by omega)
      have hshort : first <:+ top.tail := by
        cases top with
        | nil => exact absurd (Nat.zero_le _) hlength
        | cons name top =>
          rcases List.suffix_cons_iff.mp habove with heq | hshort
          · exact absurd (congrArg List.length heq) (by omega)
          · exact hshort
      exact absurd hfree.none (Tree.kind_above htop hshort)
  · rw [Tree.firstMissing_eq_none_iff.mpr (hparent ▸ htop)] at hfirst
    cases hfirst

/-- The directory of a place below another is below that one too, or is the one in front of it. -/
theorem parent_of_suffix (hnames : f.names ≠ []) (h : top <:+ f.place) :
    top <:+ f.getParentFile.place ∨ f.getParentFile.place = top.tail := by
  have hsplit : f.names = f.names.dropLast ++ [f.names.getLast hnames] :=
    (List.dropLast_concat_getLast hnames).symm
  have hplace : f.place = enter f.getParentFile.place (f.names.getLast hnames) :=
    (congrArg (Tree.normal f.origin) hsplit).trans (List.foldl_concat ..)
  rw [hplace, enter] at h
  split_ifs at h
  · exact .inl h
  · exact .inl (h.trans (List.tail_suffix _))
  · rcases List.suffix_cons_iff.mp h with heq | hshort
    · exact .inr (by rw [heq, List.tail_cons])
    · exact .inl hshort

/-- An entry whose normalised path is inside is inside, when the directory is in one that is
there. -/
theorem entryInside_of_suffix (htop : t.kind (file userDir cachePath).place.tail ≠ none)
    (h : (file userDir cachePath).place <:+ (item.entry.file userDir cachePath).place) :
    EntryInside userDir cachePath item t := by
  obtain ⟨hnames, -⟩ := file_names userDir cachePath item.entry
  rw [EntryInside]
  split_ifs with hdir
  · refine .inr ⟨makesInside_of_suffix htop (.inl h), fun place hplace _ => ?_⟩
    rw [File.place_of_find hplace]
    exact h
  · refine fun _ =>
      ⟨makesInside_of_suffix htop (parent_of_suffix hnames h), fun place hplace _ _ => ?_⟩
    rw [File.place_of_target hplace]
    exact h

/-- Writing keeps what is there. -/
theorem le_write (item : Item) (disk : Disk) (place : Place) :
    disk.tree.Le (write item disk place).disk.tree := by
  have hcreated : disk.tree.Le (createNewFile disk place).tree := by
    rw [createNewFile]
    split_ifs
    · exact Tree.le_put .file _ _
    · exact Tree.Le.refl _
  rw [write]
  cases item.thrown with
  | none => exact hcreated
  | some thrown =>
    cases thrown with
    | next => exact hcreated
    | stream => exact hcreated
    | copy n => exact hcreated

/-- `mkdirs` keeps what is there. -/
theorem File.le_mkdirs (denied : Place → Bool) (f : File) (t : Tree) :
    t.Le (f.mkdirs denied t).1 := by
  rw [File.mkdirs]
  split_ifs
  · exact Tree.Le.refl t
  · exact Tree.le_makeAll denied t f.place

/-- No entry takes anything away. -/
theorem le_handle (userDir : Place) (cachePath : List UInt8) (item : Item) (disk : Disk) :
    disk.tree.Le (handle userDir cachePath item disk).disk.tree := by
  rw [handle]
  split_ifs
  · exact Tree.Le.refl _
  · rw [makeSureDirExist]
    split_ifs
    · exact Tree.Le.refl _
    · exact Tree.Le.refl _
    · exact File.le_mkdirs _ _ _
  · rw [unzipFile]
    have hmade : disk.tree.Le (if (item.entry.file userDir cachePath).exists disk.tree then
        (disk.tree, []) else (item.entry.file userDir cachePath).getParentFile.mkdirs item.denied
          disk.tree).1 := by
      split_ifs
      · exact Tree.Le.refl _
      · exact File.le_mkdirs _ _ _
    generalize (if (item.entry.file userDir cachePath).exists disk.tree then (disk.tree, []) else
      (item.entry.file userDir cachePath).getParentFile.mkdirs item.denied disk.tree) =
        made at hmade ⊢
    cases ((item.entry.file userDir cachePath).target made.1).filter fun place =>
      !item.denied place with
    | none => exact hmade
    | some place => exact hmade.trans (le_write item ⟨made.1, disk.content⟩ place)
  · exact Tree.Le.refl _

/-- Names that do not lead out keep the unpacking inside, on any disk. -/
theorem eachInside_of_names {items : List Item}
    (htop : disk.tree.kind (file userDir cachePath).place.tail ≠ none)
    (h : ∀ item ∈ items, item.entry.isDirectory = true ∨ lib <:+: item.entry.name →
      (file userDir cachePath).place <:+ (item.entry.file userDir cachePath).place) :
    EachInside userDir cachePath items disk := by
  induction items generalizing disk with
  | nil => trivial
  | cons item items ih =>
    obtain ⟨hfirst, hrest⟩ := List.forall_mem_cons.mp h
    refine ⟨fun _ => ?_, fun _ => ?_⟩
    · by_cases hhandled : item.entry.isDirectory = true ∨ lib <:+: item.entry.name
      · exact entryInside_of_suffix htop (hfirst hhandled)
      · rw [not_or] at hhandled
        rw [EntryInside, if_neg hhandled.1]
        exact fun hlib => absurd hlib hhandled.2
    · exact ih ((le_handle userDir cachePath item disk).there htop) hrest

end Names

/-- The unpacking stays inside its directory exactly if every entry that is handed over does, on the
disk in front of it. -/
theorem unpacking_inside_iff (userDir : Place) (delFiles : Disk → Disk) (items : List Item)
    (cachePath : List UInt8) (disk : Disk) :
    StaysInside userDir delFiles items cachePath disk ↔
      EachInside userDir cachePath items (cleanUp userDir delFiles cachePath disk) :=
  unzip_inside userDir cachePath items _

/-- A disk with a directory `c`, and nothing else. -/
def oneDirectory : Disk := ⟨Tree.bare.put .dir [[0x63]], fun _ => []⟩

/-- An entry `../libx`. -/
def upwards : Item := ⟨⟨[0x2e, 0x2e, slash] ++ lib ++ [0x78], [0x31]⟩, fun _ => false, none⟩

/-- A file is made beside the directory. -/
theorem made_outside : ¬ StaysInside [] id [upwards] [slash, 0x63] oneDirectory := by
  intro h
  have htouched : [lib ++ [0x78]] ∈ (UnZipFolder [] id [upwards] [slash, 0x63] oneDirectory).2 := by
    decide
  exact absurd (h _ htouched) (by decide)

end XposedJniTrace.UnZipUtils
