import XposedJniTrace.Il2cpp.StringUtils
import XposedJniTrace.Linker.EachLoadOnce

/-!
# The start of the il2cpp dump or tracer

`FunJniLinkerCallBack` of `il2cppTrace/.../hook/linker_callback.cpp` as the one callback of the
linker handler, and the thread that `hack_prepare` of `il2cpp/hack.cpp` starts. The calls of
`hack_prepare` are read off what the loads of a process show; nothing counts or remembers them, so
that a second load of the library starts the dump or the tracer again.
-/

namespace XposedJniTrace.Il2cpp

open LinkerHandler (CallBack Entry Load Pointer Redirect Call)
open Mylibc (CString c_str ascii)
open StringUtils (endsWith)

/-- The file that is looked for. -/
def MATCH_ELF : List UInt8 := ascii "libil2cpp.so"

/-- A call of `hack_prepare`, with its arguments. -/
structure Prepare where
  path : CString
  game_data_dir : Option CString
  deriving DecidableEq

/-- `FunJniLinkerCallBack::loadAfter`; a null path is none. -/
def loadAfter (saveFilePath : Option CString) : Option CString → List Prepare
  | none => []
  | some path => if endsWith path.bytes MATCH_ELF then [⟨path, saveFilePath⟩] else []

/-- What a thread of `hack_prepare` comes to. -/
inductive Start where
  | il2cpp_tracer (outDir : Option CString)
  | il2cpp_dump (outDir : Option CString)
  deriving DecidableEq

/-- `hack_start`, by whether `xdl_open` finds the library. -/
def hack_start (isTraceIl2cpp : Bool) (handle : Bool) (prepare : Prepare) : Option Start :=
  if handle then
    if isTraceIl2cpp then some (.il2cpp_tracer prepare.game_data_dir)
    else some (.il2cpp_dump prepare.game_data_dir)
  else none

/-- The calls of `hack_prepare` in what a process shows, with the callback at some address. -/
def prepares (callback : CallBack) (saveFilePath : Option CString) (entries : List Entry) :
    List Prepare :=
  entries.flatMap fun entry =>
    match entry with
    | .loadAfter called path _ _ =>
      if called = callback then loadAfter saveFilePath (some path) else []
    | _ => []

/-- `hookLinkerCallBack` adds the callback to a list pointer that is null. -/
def hookLinkerCallBack (callback : CallBack) : Pointer :=
  LinkerHandler.addLinkerCallBack callback .null

/-- The calls of `hack_prepare` in the life of a process, by the loads that are intercepted. -/
def started (callback : CallBack) (saveFilePath : Option CString) (linkerIoRedirect : Redirect)
    (loads : List Load) : List Prepare :=
  prepares callback saveFilePath
    (Load.showsAll (hookLinkerCallBack callback) linkerIoRedirect loads)

/-- `hack_prepare` is called at most once. -/
def StartedOnce (callback : CallBack) (saveFilePath : Option CString) (linkerIoRedirect : Redirect)
    (loads : List Load) : Prop :=
  (started callback saveFilePath linkerIoRedirect loads).length ≤ 1

/-- What the threads come to, by whether each of them finds the library. -/
def starts (isTraceIl2cpp : Bool) (handle : ℕ → Bool) (prepared : List Prepare) : List Start :=
  prepared.zipIdx.filterMap fun (prepare, i) => hack_start isTraceIl2cpp (handle i) prepare

mutual

/-- The paths of a load and of the loads inside it, in the order in which they return. -/
def paths : Load → List CString
  | .mk call _ nested => pathsAll nested ++ call.path.toList

/-- The paths of all loads. -/
def pathsAll : List Load → List CString
  | [] => []
  | load :: rest => paths load ++ pathsAll rest

end

/-- A path that ends with the library's name, up to case. -/
def isIl2cpp (path : CString) : Bool := endsWith path.bytes MATCH_ELF

section Prepares

variable (callback : CallBack) (saveFilePath : Option CString) (linkerIoRedirect : Redirect)

/-- The entries are gone through one after the other. -/
theorem prepares_append (first second : List Entry) :
    prepares callback saveFilePath (first ++ second) =
      prepares callback saveFilePath first ++ prepares callback saveFilePath second :=
  List.flatMap_append

/-- Nothing is prepared in front of a load or by its original. -/
theorem prepares_before (pointer : Pointer) (path : Option CString) :
    prepares callback saveFilePath (LinkerHandler.onSoLoadedBefore pointer path) = [] := by
  cases path with
  | none => rfl
  | some path =>
    cases pointer with
    | null => rfl
    | list callbacks =>
      refine List.flatMap_eq_nil_iff.mpr ?_
      intro entry hentry
      obtain ⟨called, -, rfl⟩ := List.mem_map.mp hentry
      rfl
    | deleted => rfl

/-- Behind a load it is prepared for its path. -/
theorem prepares_after (redirect_path : CString) (ret : ℤ) (path : Option CString) :
    prepares callback saveFilePath
        (LinkerHandler.onSoLoadedAfter (hookLinkerCallBack callback) redirect_path ret path) =
      (path.toList.filter isIl2cpp).map (Prepare.mk · saveFilePath) := by
  cases path with
  | none => rfl
  | some path =>
    change (if callback = callback then loadAfter saveFilePath (some path) else []) ++ [] = _
    rw [if_pos rfl, List.append_nil, loadAfter, Option.toList_some]
    cases hends : endsWith path.bytes MATCH_ELF with
    | true => simp [isIl2cpp, hends]
    | false => simp [isIl2cpp, hends]

/-- A load prepares what is prepared inside it, and then for its own path. -/
theorem prepares_replacement (inside : List Entry) (ret : ℤ) (call : Call) :
    prepares callback saveFilePath
        (call.replacement (hookLinkerCallBack callback) linkerIoRedirect inside ret) =
      prepares callback saveFilePath inside ++
        (call.path.toList.filter isIl2cpp).map (Prepare.mk · saveFilePath) := by
  have hreturned (entries : List Entry) :
      prepares callback saveFilePath (.returned ret :: entries) =
        prepares callback saveFilePath entries := rfl
  have horiginal (call : Call) (entries : List Entry) :
      prepares callback saveFilePath (.original call :: entries) =
        prepares callback saveFilePath entries := rfl
  rw [LinkerHandler.Call.replacement_eq, LinkerHandler.intercepted, List.append_assoc,
    prepares_append, prepares_before, List.nil_append, List.cons_append, horiginal, prepares_append,
    hreturned, prepares_after]

mutual

/-- What a load shows prepares what its paths match. -/
theorem prepares_shows (load : Load) :
    prepares callback saveFilePath
        (load.shows (hookLinkerCallBack callback) linkerIoRedirect) =
      ((paths load).filter isIl2cpp).map (Prepare.mk · saveFilePath) := by
  cases load with
  | mk call ret nested =>
    rw [Load.shows, prepares_replacement, prepares_showsAll nested, paths, List.filter_append,
      List.map_append]

/-- The dump or the tracer is prepared for the path of each load that has the library's name. -/
theorem prepares_showsAll (loads : List Load) :
    prepares callback saveFilePath
        (Load.showsAll (hookLinkerCallBack callback) linkerIoRedirect loads) =
      ((pathsAll loads).filter isIl2cpp).map (Prepare.mk · saveFilePath) := by
  cases loads with
  | nil => rfl
  | cons load rest =>
    rw [Load.showsAll, prepares_append, prepares_shows load, prepares_showsAll rest, pathsAll,
      List.filter_append, List.map_append]

end

/-- The dump or the tracer is started at most once exactly when at most one of the loads has a path
that ends with the library's name. -/
theorem startedOnce_iff (loads : List Load) :
    StartedOnce callback saveFilePath linkerIoRedirect loads ↔
      ((pathsAll loads).filter isIl2cpp).length ≤ 1 := by
  rw [StartedOnce, started, prepares_showsAll, List.length_map]

end Prepares

/-- The path of the library. -/
def libil2cpp : CString := ⟨ascii "/libil2cpp.so", by decide⟩

/-- The library is opened a second time, and the dump or the tracer is started again. -/
theorem started_again :
    ¬ StartedOnce 1 none none
      [.mk (.dlopen_CI (some libil2cpp) 2) 1 [], .mk (.dlopen_CI (some libil2cpp) 2) 1 []] := by
  rw [StartedOnce, started, prepares_showsAll]
  decide

end XposedJniTrace.Il2cpp
