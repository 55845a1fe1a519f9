import XposedJniTrace.Trace.Mylibc
import XposedJniTrace.Hook.PatchOnce
import Mathlib.Tactic.Ring

/-!
# Relocating the linker

`resolve_symbol` of `linker/Symbol.cpp` over the section headers of an image, and
`relocate_linker` and `linkerHandler::init` of `linker/linkerHandler.cpp` over the state of
`HookUtils`. The symbols of a table are those that can be read, and an image whose headers cannot
be read has no sections. The base address is what `get_addr` finds; the log texts are left out.
-/

namespace XposedJniTrace.LinkerHandler

open Mylibc (ascii)
open HookUtils (Addr Cell World Outcomes Hooker)

/-- An entry of a symbol table. -/
structure Sym where
  st_name : ℕ
  st_value : ℕ
  deriving DecidableEq

/-- A section header and what it leads to. -/
inductive Section where
  | symtab (strtab : Option (List UInt8)) (symbols : List Sym)
  | other
  deriving DecidableEq

/-- The value of the first symbol whose name is the one looked for. -/
def resolve_symbol_from_symtab (strtab symname : List UInt8) : List Sym → Option ℕ
  | [] => none
  | sym :: symbols =>
    if sym.st_name < strtab.length ∧ (strtab.drop sym.st_name).takeWhile (· ≠ 0) = symname then
      some sym.st_value
    else resolve_symbol_from_symtab strtab symname symbols

/-- The sections are looked through in order, up to the first symbol table that answers. -/
def resolve_symbol (symname : List UInt8) : List Section → Option ℕ
  | [] => none
  | .other :: sections => resolve_symbol symname sections
  -- a string table that cannot be read ends the search
  | .symtab none _ :: _ => none
  | .symtab (some strtab) symbols :: sections =>
    match resolve_symbol_from_symtab strtab symname symbols with
    | some symval => some symval
    | none => resolve_symbol symname sections

/-- The linker of a process: the width of its pointers, where it is mapped, and its image. -/
structure Linker where
  bits : ℕ
  linker_addr : Addr
  sections : List Section

/-- The replacements of the functions that load a library. -/
inductive Replacement where
  | dlopen_CI
  | do_dlopen_CIV
  | do_dlopen_CIVV
  deriving DecidableEq

/-- Where the replacements are, and the cells of their originals. -/
structure Replacements where
  new : Replacement → Addr
  orig : Replacement → Cell

/-- The symbols that are looked for, in order, with their replacements. -/
def dlopenSymbols : List (String × Replacement) :=
  [("__dl__Z9do_dlopenPKciPK17android_dlextinfoPKv", .do_dlopen_CIVV),
    ("__dl__Z9do_dlopenPKciPK17android_dlextinfoPv", .do_dlopen_CIVV),
    ("__dl__ZL10dlopen_extPKciPK17android_dlextinfoPv", .do_dlopen_CIVV),
    ("__dl__Z20__android_dlopen_extPKciPK17android_dlextinfoPKv", .do_dlopen_CIVV),
    ("__dl___loader_android_dlopen_ext", .do_dlopen_CIVV),
    ("__dl__Z9do_dlopenPKciPK17android_dlextinfo", .do_dlopen_CIV),
    ("__dl__Z8__dlopenPKciPKv", .do_dlopen_CIV),
    ("__dl___loader_dlopen", .do_dlopen_CIV),
    ("__dl_dlopen", .dlopen_CI)]

namespace Linker

variable (linker : Linker)

/-- Where a symbol is in memory. -/
def symbol (name : String) : Option Addr :=
  (resolve_symbol (ascii name) linker.sections).map fun dlopen_off =>
    (linker.linker_addr + dlopen_off) % 2 ^ linker.bits

/-- The first of the symbols that the image has, and its replacement. -/
def dlopen : Option (Addr × Replacement) :=
  if linker.linker_addr = 0 then none
  else dlopenSymbols.findSome? fun (name, replacement) =>
    (linker.symbol name).map fun symbol => (symbol, replacement)

/-- The functions of the image that load a library. -/
def entryPoints : List Addr := dlopenSymbols.filterMap fun (name, _) => linker.symbol name

end Linker

section Relocate

variable (linker : Linker) (replacements : Replacements)

/-- What `Hooker` answers is not looked at. -/
def relocate_linker (outcomes : Outcomes) (w : World) : Bool × World :=
  match linker.dlopen with
  | none => (false, w)
  | some (symbol, replacement) =>
    (true,
      (Hooker outcomes symbol (replacements.new replacement) (replacements.orig replacement) w).2)

/-- `linkerHandler::init`, with whether it goes on to `findSyscalls` and the state behind it. -/
def init (outcomes : Outcomes) (findSyscalls : World → World) (w : World) : Bool × World :=
  match relocate_linker linker replacements outcomes w with
  | (true, w) => (false, w)
  | (false, w) => (true, findSyscalls w)

/-- A hook is in place: one of the functions runs one of the replacements, which has an original
to call. -/
def HookInPlace (w : World) : Prop :=
  ∃ symbol ∈ linker.entryPoints, ∃ replacement,
    w.redirect symbol = some (replacements.new replacement) ∧
      (w.cells (replacements.orig replacement)).isSome

/-- Success is reported only with a hook in place, and without one `init` goes on to the search
for system calls. -/
def ObservedOrSearched (outcomes : Outcomes) (w : World) : Prop :=
  ((relocate_linker linker replacements outcomes w).1 = true →
    HookInPlace linker replacements (relocate_linker linker replacements outcomes w).2) ∧
  (¬ HookInPlace linker replacements (relocate_linker linker replacements outcomes w).2 →
    ∀ findSyscalls, (init linker replacements outcomes findSyscalls w).1 = true)

/-- `Hooker` comes to hook an address: it is not null and not listed, and one of the three
attempts succeeds. -/
def Hooks (outcomes : Outcomes) (symbol : Addr) (w : World) : Prop :=
  symbol ≠ 0 ∧ symbol ∉ w.hooked ∧
    (outcomes.inlineHook.isSome ∨
      symbol ∉ w.table ∧ (outcomes.dobby.isSome ∨ outcomes.nearBranch.isSome))

variable {linker replacements}

/-- The address that is hooked is an entry point of the linker. -/
theorem mem_entryPoints {symbol : Addr} {replacement : Replacement}
    (h : linker.dlopen = some (symbol, replacement)) : symbol ∈ linker.entryPoints := by
  unfold Linker.dlopen at h
  split_ifs at h
  obtain ⟨⟨name, r⟩, hmem, hname⟩ := List.exists_of_findSome?_eq_some h
  obtain ⟨found, hfound, hpair⟩ := Option.map_eq_some_iff.mp hname
  cases hpair
  exact List.mem_filterMap.mpr ⟨(name, replacement), hmem, hfound⟩

/-- An installed hook runs its replacement, and its cell leads to the original. -/
theorem hookInPlace_of_install {symbol : Addr} {replacement : Replacement} {w : World}
    (hentry : symbol ∈ linker.entryPoints) {kind : HookUtils.Kind}
    (hkind : kind.newrep = some (replacements.new replacement)) {location : ℕ} {next : World}
    (hpatches : next.patches =
      (w.install kind symbol (replacements.orig replacement) location).patches)
    (hcells : next.cells = (w.install kind symbol (replacements.orig replacement) location).cells) :
    HookInPlace linker replacements next := by
  refine ⟨symbol, hentry, replacement, ?_, ?_⟩
  · rw [World.redirect, hpatches]
    simp [World.install, hkind]
  · rw [hcells]
    simp [World.install]

/-- Whether a hook is in place is a matter of the patches and the cells. -/
theorem hookInPlace_congr {w next : World} (hpatches : next.patches = w.patches)
    (hcells : next.cells = w.cells) :
    HookInPlace linker replacements next ↔ HookInPlace linker replacements w := by
  simp only [HookInPlace, World.redirect, hpatches, hcells]

/-- A call of `Hooker` that hooks leaves its patch and its cell behind. -/
theorem Hooker_of_hooks {outcomes : Outcomes} {symbol : Addr} {w : World}
    (h : Hooks outcomes symbol w) (newrep : Addr) (org : Cell) :
    ∃ kind location, kind.newrep = some newrep ∧
      (Hooker outcomes symbol newrep org w).2.patches =
        (w.install kind symbol org location).patches ∧
      (Hooker outcomes symbol newrep org w).2.cells =
        (w.install kind symbol org location).cells := by
  obtain ⟨hnull, hnew, hbackend⟩ := h
  obtain ⟨dobby, inlineHook, nearBranch⟩ := outcomes
  rw [HookUtils.Hooker_of_new _ newrep org hnull hnew]
  by_cases htable : symbol ∈ w.table
  · -- Dobby knows the address: what is left is the other backend
    have hinline : inlineHook.isSome := hbackend.resolve_right fun h => h.1 htable
    obtain ⟨location, rfl⟩ := Option.isSome_iff_exists.mp hinline
    have hdobby : HookUtils.DobbyHook dobby symbol newrep org w.allocate = (false, w.allocate) :=
      if_pos htable
    rw [hdobby]
    exact ⟨.inlineHook newrep, location, rfl, rfl, rfl⟩
  · have hfailed (next : World) (hnext : next.table = w.table) :
        HookUtils.DobbyHook none symbol newrep org next = (false, next) :=
      if_neg (hnext ▸ htable)
    have hhooked (location : ℕ) (next : World) (hnext : next.table = w.table) :
        HookUtils.DobbyHook (some location) symbol newrep org next =
          (true, next.install (.dobbyHook newrep) symbol org location) :=
      if_neg (hnext ▸ htable)
    cases dobby with
    | some location =>
      rw [hhooked location w.allocate rfl]
      exact ⟨.dobbyHook newrep, location, rfl, rfl, rfl⟩
    | none =>
      rw [hfailed w.allocate rfl]
      cases inlineHook with
      | some location => exact ⟨.inlineHook newrep, location, rfl, rfl, rfl⟩
      | none =>
        cases nearBranch with
        | some location =>
          simp only [HookUtils.InlineHookImpl,
            hhooked location { w.allocate with nearBranch := true } rfl]
          exact ⟨.dobbyHook newrep, location, rfl, rfl, rfl⟩
        | none => simp [htable] at hbackend

/-- A call of `Hooker` that does not hook changes no patch and no cell. -/
theorem Hooker_of_not_hooks {outcomes : Outcomes} {symbol : Addr} {w : World}
    (h : ¬ Hooks outcomes symbol w) (newrep : Addr) (org : Cell) :
    (Hooker outcomes symbol newrep org w).2.patches = w.patches ∧
      (Hooker outcomes symbol newrep org w).2.cells = w.cells := by
  rcases HookUtils.Hooker_cases outcomes symbol newrep org w with
    ⟨-, hcall⟩ | ⟨-, -, hcall⟩ | ⟨hnull, hnew, -⟩ | ⟨-, -, -, hcall⟩
  · rw [hcall]
    exact ⟨rfl, rfl⟩
  · rw [hcall]
    exact ⟨rfl, rfl⟩
  · -- neither null nor listed: all three attempts fail
    have hfails : outcomes.inlineHook = none ∧
        (symbol ∉ w.table → outcomes.dobby = none ∧ outcomes.nearBranch = none) := by
      simpa [Hooks, hnull, hnew] using h
    obtain ⟨dobby, inlineHook, nearBranch⟩ := outcomes
    obtain ⟨rfl, hdobby⟩ : inlineHook = none ∧ _ := hfails
    rw [HookUtils.Hooker_of_new _ newrep org hnull hnew]
    have hfail {outcome : Option ℕ} (hnone : symbol ∉ w.table → outcome = none) (next : World)
        (hnext : next.table = w.table) :
        HookUtils.DobbyHook outcome symbol newrep org next = (false, next) := by
      by_cases htable : symbol ∈ w.table
      · exact if_pos (hnext ▸ htable)
      · rw [hnone htable]
        exact if_neg (hnext ▸ htable)
    rw [hfail (fun htable => (hdobby htable).1) w.allocate rfl]
    simp only [HookUtils.InlineHookImpl]
    rw [hfail (fun htable => (hdobby htable).2) { w.allocate with nearBranch := true } rfl]
    exact ⟨rfl, rfl⟩
  · rw [hcall]
    exact ⟨rfl, rfl⟩

/-- What the linker is left with, for an image that has one of the symbols. -/
theorem hookInPlace_relocate {outcomes : Outcomes} {symbol : Addr} {replacement : Replacement}
    (h : linker.dlopen = some (symbol, replacement)) (w : World) :
    HookInPlace linker replacements (relocate_linker linker replacements outcomes w).2 ↔
      Hooks outcomes symbol w ∨ HookInPlace linker replacements w := by
  rw [relocate_linker, h]
  by_cases hhooks : Hooks outcomes symbol w
  · obtain ⟨kind, location, hkind, hpatches, hcells⟩ :=
      Hooker_of_hooks hhooks (replacements.new replacement) (replacements.orig replacement)
    exact iff_of_true (hookInPlace_of_install (mem_entryPoints h) hkind hpatches hcells)
      (.inl hhooks)
  · obtain ⟨hpatches, hcells⟩ :=
      Hooker_of_not_hooks hhooks (replacements.new replacement) (replacements.orig replacement)
    rw [or_iff_right hhooks]
    exact hookInPlace_congr hpatches hcells

/-- `init` searches for system calls exactly when no success is reported. -/
theorem init_searches (outcomes : Outcomes) (findSyscalls : World → World) (w : World) :
    (init linker replacements outcomes findSyscalls w).1 =
      !(relocate_linker linker replacements outcomes w).1 := by
  rw [init]
  cases relocate_linker linker replacements outcomes w with
  | mk found w => cases found <;> rfl

/-- The linker is observed or searched exactly when the image has none of the symbols, `Hooker`
comes to hook the one that is found, or a hook was in place before. -/
theorem observedOrSearched_iff (outcomes : Outcomes) (w : World) :
    ObservedOrSearched linker replacements outcomes w ↔
      ∀ symbol replacement, linker.dlopen = some (symbol, replacement) →
        Hooks outcomes symbol w ∨ HookInPlace linker replacements w := by
  have hboth : ObservedOrSearched linker replacements outcomes w ↔
      ((relocate_linker linker replacements outcomes w).1 = true →
        HookInPlace linker replacements (relocate_linker linker replacements outcomes w).2) := by
    refine and_iff_left_of_imp ?_
    intro hreports hnone findSyscalls
    rw [init_searches, Bool.not_eq_true']
    exact eq_false_of_ne_true fun hfound => hnone (hreports hfound)
  rw [hboth]
  cases hdlopen : linker.dlopen with
  | none =>
    have hfails : (relocate_linker linker replacements outcomes w).1 = false := by
      rw [relocate_linker, hdlopen]
    exact iff_of_true (fun hfound => absurd hfound (by rw [hfails]; nofun)) nofun
  | some entry =>
    obtain ⟨symbol, replacement⟩ := entry
    have hfound : (relocate_linker linker replacements outcomes w).1 = true := by
      rw [relocate_linker, hdlopen]
    rw [hookInPlace_relocate hdlopen]
    constructor
    · intro h found other hsame
      cases hsame
      exact h hfound
    · intro h _
      exact h symbol replacement rfl

end Relocate

/-- An image with the oldest of the symbols. -/
def oldLinker : Linker where
  bits := 64
  linker_addr := 0x1000
  sections := [.symtab (some (ascii "__dl_dlopen")) [⟨0, 0x20⟩]]

/-- All three backends fail on the only symbol of an image: success is reported, and `init` does
not go on to the search. -/
theorem reported_without_hook :
    ¬ ObservedOrSearched oldLinker ⟨fun _ => 1, fun _ => 0⟩ ⟨none, none, none⟩
      (HookUtils.initial fun _ => none) := by
  have hdlopen : oldLinker.dlopen = some (0x1020, .dlopen_CI) := by decide +kernel
  intro h
  have hinit := h.1
  rw [relocate_linker, hdlopen] at hinit
  obtain ⟨symbol, -, replacement, hredirect, -⟩ := hinit rfl
  cases hredirect

end XposedJniTrace.LinkerHandler
