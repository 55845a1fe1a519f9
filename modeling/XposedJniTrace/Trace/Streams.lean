import XposedJniTrace.Trace.Matching
import Mathlib.Data.List.Basic

/-!
# The stream that the tracers share

`startHookJni` of `main.cpp` gives one new stream to the modules that it starts: the two tracers,
the printer of `hook/invokePrintf.cpp` and the callback of `hook/linker_callback.cpp`. The starts,
the stops of the two tracers and the reports go over the statics of the modules and the hooks that
are in place, which no stop takes away. A stream has the name of the moment at which it is made. The
log is left out.
-/

namespace XposedJniTrace

deriving instance DecidableEq for Tracer

namespace Streams

open Mylibc (CString c_str ascii)

/-- The modules that hold a stream. -/
inductive Module where
  | tracer (tracer : Tracer)
  | invokePrintf
  | linkerCallBack
  deriving DecidableEq

/-- The statics `isSave` and the stream of a module. -/
structure Saving where
  isSave : Bool
  os : Option ℕ

/-- What the functions of `startHookJni` hook: JNI, the string functions of libc, the registration
of native methods, the linker, and the invocation of methods. -/
inductive Hook where
  | tracer (tracer : Tracer)
  | registerNative
  | linker
  | invoke
  deriving DecidableEq

/-- The state of the tracing library: the variables of its modules, and what has been done. -/
structure State where
  config : Tracer → Config
  saving : Module → Saving
  /-- The functions that have been started, in order. -/
  started : List Hook
  /-- The hooks that are in place. -/
  hooked : Hook → Bool
  /-- How many events there have been. -/
  time : ℕ
  /-- The streams that have been deleted. -/
  deleted : List ℕ

/-- Nothing has been started. -/
def initial : State :=
  ⟨fun _ => ⟨false, [], []⟩, fun _ => ⟨false, none⟩, [], fun _ => false, 0, []⟩

/-- The name of the library itself, which is never traced. -/
def CORE_SO_NAME : List UInt8 := ascii "libFunJni.so"

namespace State

variable (s : State)

/-- `if (os != nullptr) { isSave = true; ... = os; }`. -/
def save (m : Module) (os : Option ℕ) : State :=
  match os with
  | some _ => { s with saving := Function.update s.saving m ⟨true, os⟩ }
  | none => s

/-- The end of each start: whether its symbols are found and hooked is an input. A hook that is in
place stays there. -/
def hook (h : Hook) (installs : Hook → Bool) : State :=
  { s with
    started := s.started ++ [h]
    hooked := Function.update s.hooked h (s.hooked h || installs h) }

/-- The body that the starts of the two tracers share. -/
def startTracer (t : Tracer) (hookAll : Bool) (forbid_list filter_list : List (List UInt8))
    (os : Option ℕ) (installs : Hook → Bool) : State :=
  ({ s with config := Function.update s.config t ⟨hookAll, filter_list, forbid_list⟩ }.save
    (.tracer t) os).hook (.tracer t) installs

/-- The body that the stops of the two tracers share: the stream that was given last is closed and
deleted, and its pointer stays. -/
def stopTracer (t : Tracer) : State :=
  { s with
    config := Function.update s.config t { s.config t with filterSoList := [] }
    saving := Function.update s.saving (.tracer t) { s.saving (.tracer t) with isSave := false }
    deleted := (s.saving (.tracer t)).os.toList ++ s.deleted }

/-- What a report of a module goes to. -/
def written (m : Module) : List ℕ := if (s.saving m).isSave then (s.saving m).os.toList else []

end State

/-- The start of the JNI tracer. -/
def Jnitrace.startjnitrace (hookAll : Bool) (forbid_list filter_list : List (List UInt8))
    (os : Option ℕ) (installs : Hook → Bool) (s : State) : State :=
  s.startTracer .jniTrace hookAll forbid_list filter_list os installs

/-- The stop of the JNI tracer. -/
def Jnitrace.stopjnitrace (s : State) : State := s.stopTracer .jniTrace

/-- The start of the string tracer. -/
def stringHandler.hookStrHandler (hookAll : Bool) (forbid_list filter_list : List (List UInt8))
    (os : Option ℕ) (installs : Hook → Bool) (s : State) : State :=
  s.startTracer .stringHandlerHook hookAll forbid_list filter_list os installs

/-- The stop of the string tracer. -/
def stringHandler.stopjnitrace (s : State) : State := s.stopTracer .stringHandlerHook

/-- The start of the module for native methods that are registered. -/
def invokePrintf.HookJNIRegisterNative (os : Option ℕ) (installs : Hook → Bool)
    (s : State) : State :=
  (s.save .invokePrintf os).hook .registerNative installs

/-- The start of the module for methods that are invoked, which shares its variables. -/
def invokePrintf.HookJNIInvoke (os : Option ℕ) (installs : Hook → Bool) (s : State) : State :=
  (s.save .invokePrintf os).hook .invoke installs

/-- The start of the module for loads. -/
def linkerCallBack.hookLinkerCallBack (os : Option ℕ) (installs : Hook → Bool)
    (s : State) : State :=
  (s.save .linkerCallBack os).hook .linker installs

/-- A function is in the list. -/
def has_boolean (str_list : List (List UInt8)) (target : String) : Bool :=
  str_list.any (· == ascii target)

/-- What `open` makes of the file path: null, a file that does not open, or an open file. -/
inductive File where
  | null
  | closed
  | opened
  deriving DecidableEq

/-- The start: each function in the list is started, in order, with one stream of the file for all.
-/
def startHookJni (isListenerAll : Bool)
    (filter_list function_list : List (List UInt8)) (file : File)
    (installs : Hook → Bool) (s : State) : State :=
  match file with
  | .null => s
  | .closed => s
  | .opened =>
    let forbid_list := [CORE_SO_NAME]
    let saveOs := some s.time
    let s := if has_boolean function_list "0" then
      Jnitrace.startjnitrace isListenerAll forbid_list filter_list saveOs installs s else s
    let s := if has_boolean function_list "1" then
      stringHandler.hookStrHandler isListenerAll forbid_list filter_list saveOs installs s else s
    let s := if has_boolean function_list "2" then
      invokePrintf.HookJNIRegisterNative saveOs installs s else s
    let s := if has_boolean function_list "3" then
      linkerCallBack.hookLinkerCallBack saveOs installs s else s
    if has_boolean function_list "4" then invokePrintf.HookJNIInvoke saveOs installs s else s

/-- The starts, the stops, and what a module comes to report: a line of a tracer for a call from a
library, a method that is invoked, a native method that is registered, a load. -/
inductive Event where
  | start (isListenerAll : Bool) (filter_list function_list : List (List UInt8)) (file : File)
    (installs : Hook → Bool)
  | stop (t : Tracer)
  | call (t : Tracer) (name : CString) (msg : List UInt8)
  | invoke
  | registerNative (method native_method : ℕ)
  | loadAfter (path : Option CString)

/-- `write` does nothing for an empty line. -/
def write (t : Tracer) (msg : List UInt8) (s : State) : List ℕ :=
  if msg = [] then [] else s.written (.tracer t)

/-- The hook of a call writes for the callers that `isLister` accepts. -/
def traced (t : Tracer) (name : CString) (msg : List UInt8) (s : State) : List ℕ :=
  if (t.isLister (s.config t) [] name).1 then write t msg s else []

/-- Every method that is invoked is reported. -/
def new_invoke (s : State) : List ℕ := s.written .invokePrintf

/-- A native method that is registered is reported, unless one of the pointers is null. -/
def RegisterNativeCallBack (method native_method : ℕ) (s : State) : List ℕ :=
  if method = 0 ∨ native_method = 0 then [] else s.written .invokePrintf

/-- A load with a path is reported. -/
def loadAfter (path : Option CString) (s : State) : List ℕ :=
  match path with
  | none => []
  | some _ => s.written .linkerCallBack

/-- What comes to a module only through a hook that is in place. -/
def through (h : Hook) (s : State) (touched : List ℕ) : List ℕ := if s.hooked h then touched else []

/-- The streams that an event uses or deletes. -/
def Event.touches (s : State) : Event → List ℕ
  | start .. => []
  | stop t => (s.saving (.tracer t)).os.toList
  | call t name msg => through (.tracer t) s (traced t name msg s)
  | invoke => through .invoke s (new_invoke s)
  | registerNative method native_method =>
    through .registerNative s (RegisterNativeCallBack method native_method s)
  | loadAfter path => through .linker s (Streams.loadAfter path s)

/-- The state behind an event. -/
def Event.effect (s : State) : Event → State
  | start isListenerAll filter_list function_list file installs =>
    startHookJni isListenerAll filter_list function_list file installs s
  | stop .jniTrace => Jnitrace.stopjnitrace s
  | stop .stringHandlerHook => stringHandler.stopjnitrace s
  | call .. => s
  | invoke => s
  | registerNative .. => s
  | loadAfter _ => s

/-- One event, after which the next one is due. -/
def Event.step (s : State) (e : Event) : State := { e.effect s with time := s.time + 1 }

/-- The state behind some events of a process. -/
def run (events : List Event) : State := events.foldl Event.step initial

end Streams

end XposedJniTrace
