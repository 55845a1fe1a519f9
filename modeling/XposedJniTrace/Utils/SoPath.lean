import XposedJniTrace.Utils.UnZipUtils

/-!
# The path of the library

`getSoPath` of `IntoMySoUtils.java`. The data directory is a place, and the library has a name, so
that the path leads there from the root. What the package manager answers, whether the process is of
64 bits, and what every apk is read as are inputs.

The path is put together behind the unpacking, whatever that has come to: a library is at the path
that an entry was copied to for a part only, or that the clean-up has left there.
-/

namespace XposedJniTrace.IntoMySoUtils

open FileTree UnZipUtils

/-- A name that a file can have. -/
def IsFileName (name : Name) : Prop := IsName name ∧ 0 ∉ name

instance (name : Name) : Decidable (IsFileName name) := inferInstanceAs (Decidable (_ ∧ _))

/-- The path of a place. -/
def absolutePath (place : Place) : List UInt8 := place.reverse.flatMap fun name => slash :: name

/-- `arm64-v8a` -/
def V8 : Name := [0x61, 0x72, 0x6d, 0x36, 0x34, 0x2d, 0x76, 0x38, 0x61]

/-- `armeabi-v7a` -/
def V7 : Name := [0x61, 0x72, 0x6d, 0x65, 0x61, 0x62, 0x69, 0x2d, 0x76, 0x37, 0x61]

/-- `FunJniCache` -/
def LibDIRName : Name := [0x46, 0x75, 0x6e, 0x4a, 0x6e, 0x69, 0x43, 0x61, 0x63, 0x68, 0x65]

/-- What comes of `getPackageInfo`, and the source directory that it tells. -/
inductive PackageInfo where
  | throws
  | null
  | info (publicSourceDir : Option (List UInt8))

/-- What a call of `getSoPath` is given and what it meets. -/
structure Call where
  userDir : Place
  dataDir : Place
  so_name : Name
  into_so_path_baseApk : Option (List UInt8)
  packageInfo : PackageInfo
  /-- Nothing when it throws. -/
  is64bitSelf : Option Bool
  apk : List UInt8 → List Item
  delFiles : Disk → Disk
  placed : ∀ name ∈ dataDir, IsFileName name
  named : IsFileName so_name

namespace Call

/-- The path of the APK: that of the package, or the configured one where looking it up throws. -/
def baseApkPath (c : Call) : Option (List UInt8) :=
  match c.packageInfo with
  | .throws => c.into_so_path_baseApk
  | .null => none
  | .info publicSourceDir => publicSourceDir

/-- The directory of the libraries for an ABI. -/
def abi (is64 : Bool) : Name := if is64 then V8 else V7

/-- The directory that the library is unpacked to. -/
def cacheDir (c : Call) : List UInt8 := absolutePath c.dataDir ++ [slash] ++ LibDIRName

/-- `getSoPath`, and the disk that it leaves. -/
def getSoPath (c : Call) (disk : Disk) : Option (List UInt8) × Disk :=
  match c.baseApkPath with
  | none => (none, disk)
  | some baseApkPath =>
    (c.is64bitSelf.map fun is64 =>
        c.cacheDir ++ [slash] ++ lib ++ [slash] ++ abi is64 ++ [slash] ++ c.so_name,
      (UnZipFolder c.userDir c.delFiles (c.apk baseApkPath) c.cacheDir disk).1)

/-- The name of the library's entry. -/
def entryName (c : Call) (is64 : Bool) : List UInt8 :=
  lib ++ [slash] ++ abi is64 ++ [slash] ++ c.so_name

/-- The complete content of an entry with that name. -/
def IsWhole (c : Call) (items : List Item) (is64 : Bool) (content : List UInt8) : Prop :=
  ∃ item ∈ items, item.entry.name = c.entryName is64 ∧ item.entry.content = content

/-- A path that is answered is that of no file, or of one with the complete content of the library's
entry. -/
def AnswersWhole (c : Call) (disk : Disk) : Prop :=
  ∀ path baseApkPath is64, (c.getSoPath disk).1 = some path → c.baseApkPath = some baseApkPath →
    c.is64bitSelf = some is64 → ∀ place,
      (file c.userDir path).find (c.getSoPath disk).2.tree = some place →
      (c.getSoPath disk).2.tree.kind place = some .file →
        c.IsWhole (c.apk baseApkPath) is64 ((c.getSoPath disk).2.content place)

/-- The place of the library. -/
def library (c : Call) (is64 : Bool) : Place :=
  c.so_name :: abi is64 :: lib :: LibDIRName :: c.dataDir

end Call

section Opened

variable (userDir : Place) (cachePath : List UInt8)

/-- The place that an entry is opened at, on the disk in front of it. -/
def opens (item : Item) (disk : Disk) : Option Place :=
  let f := item.entry.file userDir cachePath
  let made := if f.exists disk.tree then (disk.tree, [])
    else f.getParentFile.mkdirs item.denied disk.tree
  if item.thrown = some .next then none
  else if item.entry.isDirectory then none
  else if lib <:+: item.entry.name then
    (f.target made.1).filter fun place =>
      item.denied place = false ∧ (item.thrown = some .stream → made.1.kind place = none)
  else none

/-- The entries that are opened at a place before something is thrown. -/
def opened (place : Place) : List Item → Disk → List Item
  | [], _ => []
  | item :: items, disk =>
    let handled := handle userDir cachePath item disk
    (if opens userDir cachePath item disk = some place then [item] else []) ++
      if handled.ended then [] else opened place items handled.disk

end Opened

/-- What is copied of an entry. -/
def copied (item : Item) : List UInt8 :=
  match item.thrown with
  | some .stream => []
  | some (.copy n) => item.entry.content.take n
  | _ => item.entry.content

/-- What is at the library's place in the end is whole: what is copied of the last entry that is
opened there, or else what the clean-up leaves. -/
def Call.EndsWhole (c : Call) (items : List Item) (is64 : Bool) (disk : Disk) : Prop :=
  match (opened c.userDir c.cacheDir (c.library is64) items disk).getLast? with
  | some item => c.IsWhole items is64 (copied item)
  | none => disk.tree.kind (c.library is64) = some .file →
      c.IsWhole items is64 (disk.content (c.library is64))

section Steps

variable {userDir top place : Place} {cachePath : List UInt8} {item : Item}
  {disk disk' : Disk} {f : File}

/-- A file at a place is there as before, if one is. -/
structure Same (top : Place) (disk disk' : Disk) : Prop where
  kind : disk'.tree.kind top = some .file ↔ disk.tree.kind top = some .file
  content : disk'.content top = disk.content top

/-- Nothing has changed. -/
theorem Same.refl (top : Place) (disk : Disk) : Same top disk disk := ⟨Iff.rfl, rfl⟩

/-- What is the same twice over is the same. -/
theorem Same.trans {disk'' : Disk} (h : Same top disk disk') (h' : Same top disk' disk'') :
    Same top disk disk'' := ⟨h'.kind.trans h.kind, h'.content.trans h.content⟩

/-- The directories made on the way to a place change no file. -/
theorem same_makeAll (denied : Place → Bool) (place : Place) :
    Same top disk ⟨(disk.tree.makeAll denied place).1, disk.content⟩ := by
  refine ⟨?_, rfl⟩
  rcases Tree.kind_makeAll denied disk.tree place top with ⟨-, hnone, -, hdir⟩ | ⟨-, heq⟩
  · rw [hnone, hdir]
    exact iff_of_false (fun h => by cases h) fun h => by cases h
  · rw [heq]

/-- `mkdirs` changes no file. -/
theorem same_mkdirs (denied : Place → Bool) (f : File) :
    Same top disk ⟨(f.mkdirs denied disk.tree).1, disk.content⟩ := by
  rw [File.mkdirs]
  split_ifs
  · exact Same.refl top disk
  · exact same_makeAll denied f.place

/-- Behind `createNewFile` there is a file, which is empty where there was none. -/
theorem createNewFile_at (htarget : f.target disk.tree = some place) :
    (createNewFile disk place).tree.kind place = some .file ∧
      (disk.tree.kind place = none → (createNewFile disk place).content place = []) := by
  obtain ⟨name, -, hname, rfl, hdir, hother⟩ := File.target_eq_some htarget
  rw [createNewFile]
  split_ifs with hnone
  · have hfree : disk.tree.Free (name :: f.getParentFile.place) :=
      ⟨List.cons_ne_nil _ _, hdir, fun first hfirst => Option.some.inj hfirst ▸ hname, hnone⟩
    refine ⟨?_, fun _ => Function.update_self ..⟩
    rw [Tree.kind_put, if_pos ⟨hfree, rfl⟩]
  · refine ⟨?_, fun h => absurd h hnone⟩
    cases hkind : disk.tree.kind (name :: f.getParentFile.place) with
    | none => exact absurd hkind hnone
    | some k =>
      cases k with
      | dir => exact absurd hkind hother
      | file => rfl

/-- `createNewFile` changes no other file, and none that is there. -/
theorem createNewFile_other (h : top ≠ place ∨ disk.tree.kind place ≠ none) :
    Same top disk (createNewFile disk place) := by
  rw [createNewFile]
  split_ifs with hnone
  · have hne := h.resolve_right fun h => h hnone
    refine ⟨?_, Function.update_of_ne hne _ _⟩
    rw [Tree.kind_put, if_neg fun h => hne h.2]
  · exact Same.refl top disk

/-- What is copied to a file is in it. -/
theorem write_at (hnext : item.thrown ≠ some .next) (htarget : f.target disk.tree = some place)
    (hopen : item.thrown = some .stream → disk.tree.kind place = none) :
    (write item disk place).disk.tree.kind place = some .file ∧
      (write item disk place).disk.content place = copied item := by
  obtain ⟨hkind, hempty⟩ := createNewFile_at htarget
  rw [write, copied]
  cases hthrown : item.thrown with
  | none => exact ⟨hkind, Function.update_self ..⟩
  | some thrown =>
    cases thrown with
    | next => exact absurd hthrown hnext
    | stream => exact ⟨hkind, hempty (hopen hthrown)⟩
    | copy n => exact ⟨hkind, Function.update_self ..⟩

/-- Other files stay, and so does a file whose stream cannot be opened. -/
theorem same_write (h : top = place → item.thrown = some .stream ∧ disk.tree.kind place ≠ none) :
    Same top disk (write item disk place).disk := by
  have hcreated : Same top disk (createNewFile disk place) := by
    refine createNewFile_other ?_
    by_cases heq : top = place
    · exact .inr (h heq).2
    · exact .inl heq
  have hcopied (hthrown : item.thrown ≠ some .stream) (content : List UInt8) : Same top disk
      ⟨(createNewFile disk place).tree,
        Function.update (createNewFile disk place).content place content⟩ :=
    hcreated.trans ⟨Iff.rfl, Function.update_of_ne (fun heq => hthrown (h heq).1) _ _⟩
  rw [write]
  cases hthrown : item.thrown with
  | none => exact hcopied (by rw [hthrown]; exact fun h => by cases h) _
  | some thrown =>
    cases thrown with
    | next => exact hcopied (by rw [hthrown]; exact fun h => by cases h) _
    | stream => exact hcreated
    | copy n => exact hcopied (by rw [hthrown]; exact fun h => by cases h) _

/-- Making sure that a directory is there changes no file. -/
theorem same_makeSureDirExist (denied : Place → Bool) (f : File) :
    Same top disk ⟨(makeSureDirExist denied disk.tree f).1, disk.content⟩ := by
  rw [makeSureDirExist]
  split_ifs
  · exact Same.refl top disk
  · exact Same.refl top disk
  · exact same_mkdirs denied f

/-- What one entry that is a file does to the file at a place. -/
theorem unzipFile_at (hnext : item.thrown ≠ some .next) (made : Tree × List Place)
    (hmade : made = if f.exists disk.tree then (disk.tree, []) else
      f.getParentFile.mkdirs item.denied disk.tree) :
    let opened := (f.target made.1).filter fun place =>
      item.denied place = false ∧ (item.thrown = some .stream → made.1.kind place = none)
    (opened = some top ∧ (unzipFile item disk f).disk.tree.kind top = some .file ∧
        (unzipFile item disk f).disk.content top = copied item) ∨
      (opened ≠ some top ∧ Same top disk (unzipFile item disk f).disk) := by
  intro opened
  have hparent : Same top disk ⟨made.1, disk.content⟩ := by
    rw [hmade]
    split_ifs
    · exact Same.refl top disk
    · exact same_mkdirs item.denied f.getParentFile
  rw [unzipFile, ← hmade]
  cases hallowed : (f.target made.1).filter fun place => !item.denied place with
  | none =>
    refine .inr ⟨fun h => ?_, hparent⟩
    obtain ⟨htarget, hdenied⟩ := Option.filter_eq_some_iff.mp h
    have hnot := Option.filter_eq_none_iff.mp hallowed top htarget
    rw [(of_decide_eq_true hdenied).1] at hnot
    exact hnot rfl
  | some place =>
    obtain ⟨htarget, hdenied⟩ := Option.filter_eq_some_iff.mp hallowed
    rw [Bool.not_eq_true'] at hdenied
    by_cases hopen : top = place ∧ (item.thrown = some .stream → made.1.kind place = none)
    · obtain ⟨rfl, hopen⟩ := hopen
      have hwritten : (write item ⟨made.1, disk.content⟩ top).disk.tree.kind top = some .file ∧
          (write item ⟨made.1, disk.content⟩ top).disk.content top = copied item :=
        write_at hnext htarget hopen
      exact .inl ⟨Option.filter_eq_some_iff.mpr ⟨htarget, decide_eq_true ⟨hdenied, hopen⟩⟩,
        hwritten⟩
    · refine .inr ⟨fun h => ?_, hparent.trans (same_write fun heq => ?_)⟩
      · obtain ⟨hother, hboth⟩ := Option.filter_eq_some_iff.mp h
        obtain rfl : place = top := Option.some.inj (htarget.symm.trans hother)
        exact hopen ⟨rfl, (of_decide_eq_true hboth).2⟩
      · rw [not_and, Classical.not_imp] at hopen
        exact hopen heq

/-- What one entry does to the file at a place. -/
theorem handle_at (userDir : Place) (cachePath : List UInt8) (item : Item) (disk : Disk)
    (top : Place) :
    (opens userDir cachePath item disk = some top ∧
        (handle userDir cachePath item disk).disk.tree.kind top = some .file ∧
        (handle userDir cachePath item disk).disk.content top = copied item) ∨
      (opens userDir cachePath item disk ≠ some top ∧
        Same top disk (handle userDir cachePath item disk).disk) := by
  rw [opens, handle]
  by_cases hnext : item.thrown = some .next
  · rw [if_pos hnext, if_pos hnext]
    exact .inr ⟨(Option.some_ne_none top).symm, Same.refl top disk⟩
  · rw [if_neg hnext, if_neg hnext]
    by_cases hdir : item.entry.isDirectory = true
    · rw [if_pos hdir, if_pos hdir]
      exact .inr ⟨(Option.some_ne_none top).symm, same_makeSureDirExist item.denied _⟩
    · rw [if_neg hdir, if_neg hdir]
      by_cases hlib : lib <:+: item.entry.name
      · rw [if_pos hlib, if_pos hlib]
        exact unzipFile_at hnext _ rfl
      · rw [if_neg hlib, if_neg hlib]
        exact .inr ⟨(Option.some_ne_none top).symm, Same.refl top disk⟩

/-- At a place is what has been copied of the last entry that was opened there, or what was there
before. -/
def Leaves (top : Place) (disk : Disk) (last : Option Item) (left : Disk) : Prop :=
  match last with
  | some item => left.tree.kind top = some .file ∧ left.content top = copied item
  | none => Same top disk left

/-- What is left of two pieces of the loop is left by the last item of either. -/
theorem Leaves.trans {first last : Option Item} {left : Disk} (h : Leaves top disk first disk')
    (h' : Leaves top disk' last left) : Leaves top disk (last.or first) left := by
  cases last with
  | some item => exact h'
  | none =>
    cases first with
    | some item => exact ⟨h'.kind.mpr h.1, h'.content.trans h.2⟩
    | none => exact Same.trans h h'

/-- At a place the loop leaves what the last item left that was opened there. -/
theorem unzip_leaves (userDir : Place) (cachePath : List UInt8) (top : Place) (items : List Item)
    (disk : Disk) : Leaves top disk (opened userDir cachePath top items disk).getLast?
      (unzip userDir cachePath items disk).1 := by
  induction items generalizing disk with
  | nil => exact Same.refl top disk
  | cons item items ih =>
    have hstep : Leaves top disk
        (if opens userDir cachePath item disk = some top then [item] else []).getLast?
        (handle userDir cachePath item disk).disk := by
      rcases handle_at userDir cachePath item disk top with ⟨hopens, hleft⟩ | ⟨hnot, hsame⟩
      · rw [if_pos hopens]
        exact hleft
      · rw [if_neg hnot]
        exact hsame
    rw [opened, unzip, List.getLast?_append]
    by_cases hended : (handle userDir cachePath item disk).ended = true
    · rw [if_pos hended, if_pos hended]
      exact hstep
    · rw [if_neg hended, if_neg hended]
      exact hstep.trans (ih _)

end Steps

section Library

variable {c : Call} {is64 : Bool}

/-- The names on the way to the library are file names. -/
theorem Call.fileNames (c : Call) (is64 : Bool) : ∀ name ∈ c.library is64, IsFileName name := by
  have hfixed : IsFileName (Call.abi is64) ∧ IsFileName lib ∧ IsFileName LibDIRName := by
    cases is64 <;> decide
  intro name hname
  simp only [Call.library, List.mem_cons] at hname
  rcases hname with rfl | rfl | rfl | rfl | hplaced
  · exact c.named
  · exact hfixed.1
  · exact hfixed.2.1
  · exact hfixed.2.2
  · exact c.placed name hplaced

/-- The path of a place is that of its directory, with a slash and its name. -/
theorem absolutePath_cons (name : Name) (place : Place) :
    absolutePath (name :: place) = absolutePath place ++ slash :: name := by
  rw [absolutePath, List.reverse_cons, List.flatMap_append, List.flatMap_singleton]
  rfl

/-- The path that is put together is that of the library's place. -/
theorem Call.path_eq (c : Call) (is64 : Bool) :
    c.cacheDir ++ [slash] ++ lib ++ [slash] ++ Call.abi is64 ++ [slash] ++ c.so_name =
      absolutePath (c.library is64) := by
  rw [Call.library, absolutePath_cons, absolutePath_cons, absolutePath_cons, absolutePath_cons,
    Call.cacheDir]
  simp only [List.append_assoc, List.cons_append, List.nil_append]

/-- The path of a place leads to it. -/
theorem file_absolutePath (userDir : Place) {place : Place} (hne : place ≠ [])
    (h : ∀ name ∈ place, IsFileName name) :
    file userDir (absolutePath place) = ⟨[], [] :: place.reverse⟩ := by
  have hcomponents : components (absolutePath place) = [] :: place.reverse :=
    components_names fun name hname => (h name hname).1.2.2.2
  have hhead : (absolutePath place).head? = some slash := by
    obtain ⟨first, rest, hrev⟩ := List.exists_cons_of_ne_nil (List.reverse_ne_nil_iff.mpr hne)
    rw [absolutePath, hrev]
    rfl
  rw [file, if_pos hhead, hcomponents]

/-- The path of a place leads there if something is there, and nowhere else. -/
theorem find_absolutePath (userDir : Place) {t : Tree} {place found : Place} (hne : place ≠ [])
    (h : ∀ name ∈ place, IsFileName name) :
    (file userDir (absolutePath place)).find t = some found ↔ found = place ∧
      t.kind place ≠ none := by
  have hinvalid : (⟨[], [] :: place.reverse⟩ : File).isInvalid = false := by
    rw [File.isInvalid, List.any_eq_false]
    intro name hname
    rw [decide_eq_true_eq]
    rcases List.mem_cons.mp hname with rfl | hname
    · exact List.not_mem_nil
    · exact (h name (List.mem_reverse.mp hname)).2
  rw [file_absolutePath userDir hne h, File.find,
    if_neg (by rw [hinvalid]; exact Bool.false_ne_true)]
  constructor
  · intro hwalk
    have hfound : found = place :=
      (Tree.normal_of_walk hwalk).trans (Tree.normal_names fun name hname => (h name hname).1)
    have hroot : t.kind [] ≠ none := Option.ne_none_iff_exists'.mpr ⟨_, t.kind_root⟩
    exact ⟨hfound, hfound ▸ Tree.kind_walk hwalk hroot⟩
  · rintro ⟨rfl, hthere⟩
    have hnames := walk_names hthere
    rw [components_names fun name hname => (h name hname).1.2.2.2] at hnames
    exact hnames

/-- A call whose package and ABI are known returns the path of the library, on the disk that
unpacking leaves. -/
theorem Call.getSoPath_eq {baseApkPath : List UInt8} (disk : Disk)
    (hbase : c.baseApkPath = some baseApkPath)
    (his64 : c.is64bitSelf = some is64) : c.getSoPath disk =
      (some (absolutePath (c.library is64)),
        (unzip c.userDir c.cacheDir (c.apk baseApkPath)
          (cleanUp c.userDir c.delFiles c.cacheDir disk)).1) := by
  rw [Call.getSoPath, hbase, his64, ← c.path_eq is64]
  rfl

/-- What ends whole is whole behind the unpacking. -/
theorem Call.endsWhole_iff (c : Call) (items : List Item) (is64 : Bool) (disk : Disk) :
    c.EndsWhole items is64 disk ↔
      ((unzip c.userDir c.cacheDir items disk).1.tree.kind (c.library is64) = some .file →
        c.IsWhole items is64
          ((unzip c.userDir c.cacheDir items disk).1.content (c.library is64))) := by
  have hleaves := unzip_leaves c.userDir c.cacheDir (c.library is64) items disk
  rw [Call.EndsWhole]
  cases hlast : (opened c.userDir c.cacheDir (c.library is64) items disk).getLast? with
  | some item =>
    rw [hlast] at hleaves
    rw [imp_iff_right hleaves.1, hleaves.2]
  | none =>
    rw [hlast] at hleaves
    rw [hleaves.kind, hleaves.content]

end Library

/-- A path that is answered is that of no file or of a whole library exactly if what is at the
library's place in the end is whole, when there is an apk and the kind of process is known. -/
theorem answersWhole_iff (c : Call) (disk : Disk) :
    c.AnswersWhole disk ↔ ∀ baseApkPath is64, c.baseApkPath = some baseApkPath →
      c.is64bitSelf = some is64 →
      c.EndsWhole (c.apk baseApkPath) is64 (cleanUp c.userDir c.delFiles c.cacheDir disk) := by
  have hne (is64 : Bool) : c.library is64 ≠ [] := List.cons_ne_nil _ _
  constructor
  · intro h baseApkPath is64 hbase his64
    have hcall := h (absolutePath (c.library is64)) baseApkPath is64
    rw [c.getSoPath_eq disk hbase his64] at hcall
    refine (c.endsWhole_iff _ is64 _).mpr fun hkind => hcall rfl hbase his64 _ ?_ hkind
    have hthere := Option.ne_none_iff_exists'.mpr ⟨_, hkind⟩
    exact (find_absolutePath c.userDir (hne is64) (c.fileNames is64)).mpr ⟨rfl, hthere⟩
  · intro h path baseApkPath is64 hpath hbase his64 place hplace hkind
    have hends := (c.endsWhole_iff _ is64 _).mp (h baseApkPath is64 hbase his64)
    rw [c.getSoPath_eq disk hbase his64] at hpath hplace hkind ⊢
    obtain rfl : absolutePath (c.library is64) = path := Option.some.inj hpath
    obtain ⟨rfl, -⟩ := (find_absolutePath c.userDir (hne is64) (c.fileNames is64)).mp hplace
    exact hends hkind

/-- The library's entry, of two bytes, of which one is copied before a `read` or a `write`
throws. -/
def halfCopied : Item :=
  ⟨⟨lib ++ [slash] ++ V8 ++ [slash] ++ [0x61], [0x31, 0x32]⟩, fun _ => false, some (.copy 1)⟩

/-- A call for a library `a`, with a data directory `d` and an apk of that entry. -/
def brokenOff : Call where
  userDir := []
  dataDir := [[0x64]]
  so_name := [0x61]
  into_so_path_baseApk := none
  packageInfo := .info (some [])
  is64bitSelf := some true
  apk _ := [halfCopied]
  delFiles := id
  placed := by decide
  named := by decide

/-- Half of a library is answered. -/
theorem half_answered : ¬ brokenOff.AnswersWhole ⟨Tree.bare.put .dir [[0x64]], fun _ => []⟩ := by
  intro h
  obtain ⟨item, hitem, -, hcontent⟩ :=
    h (absolutePath (brokenOff.library true)) [] true (by decide) rfl rfl
    (brokenOff.library true) (by decide) (by decide)
  obtain rfl := List.mem_singleton.mp hitem
  exact absurd hcontent (by decide)

end XposedJniTrace.IntoMySoUtils
