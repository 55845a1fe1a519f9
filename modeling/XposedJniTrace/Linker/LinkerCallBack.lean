import XposedJniTrace.Trace.Mylibc
import Mathlib.Data.List.Basic

/-!
# The callbacks of the linker handler

Registration, cleaning and the intercepted loads of `linker/linkerHandler.cpp` over the list
pointer that they share. A load lists what it shows: the calls of the callbacks, the call of the
original with the path that it is given, the loads nested inside it, and its return. Cleaning
deletes the list and its callbacks and leaves the pointer as it is. The log texts and the search
for the linker's entry points are left out.
-/

namespace XposedJniTrace.LinkerHandler

open Mylibc (CString c_str)

/-- Callback objects, by their addresses. -/
abbrev CallBack := ℕ

/-- A call of an entry point of the linker, with its arguments; pointers and results are numbers. -/
inductive Call where
  | dlopen_CI (filename : Option CString) (flag : ℤ)
  | do_dlopen_CIV (filename : Option CString) (flag : ℤ) (extinfo : ℤ)
  | do_dlopen_CIVV (filename : Option CString) (flags : ℤ) (extinfo caller_addr : ℤ)
  | __openat (fd : ℤ) (pathname : Option CString) (flags mode : ℤ)
  | __open (pathname : Option CString) (flags mode : ℤ)
  deriving DecidableEq

/-- The path argument; null is none. -/
def Call.path : Call → Option CString
  | dlopen_CI filename _ => filename
  | do_dlopen_CIV filename _ _ => filename
  | do_dlopen_CIVV filename _ _ _ => filename
  | __openat _ pathname _ _ => pathname
  | __open pathname _ _ => pathname

/-- The same call with another path. -/
def Call.withPath (path : Option CString) : Call → Call
  | dlopen_CI _ flag => dlopen_CI path flag
  | do_dlopen_CIV _ flag extinfo => do_dlopen_CIV path flag extinfo
  | do_dlopen_CIVV _ flags extinfo caller_addr => do_dlopen_CIVV path flags extinfo caller_addr
  | __openat fd _ flags mode => __openat fd path flags mode
  | __open _ flags mode => __open path flags mode

/-- The loaded library that `loadAfter` is told; `openat` and `open` have none. -/
def Call.handle (ret : ℤ) : Call → ℤ
  | dlopen_CI .. => ret
  | do_dlopen_CIV .. => ret
  | do_dlopen_CIVV .. => ret
  | __openat .. => 0
  | __open .. => 0

/-- What a load shows. -/
inductive Entry where
  | loadBefore (callback : CallBack) (path : CString)
  | original (call : Call)
  | returned (ret : ℤ)
  | loadAfter (callback : CallBack) (path redirect_path : CString) (ret : ℤ)
  | usesDeleted
  deriving DecidableEq

/-- The list pointer: null, a list, or a list that has been deleted together with its callbacks. -/
inductive Pointer where
  | null
  | list (callbacks : List CallBack)
  | deleted
  deriving DecidableEq

/-- The redirection object; null is none. -/
abbrev Redirect := Option (CString → List UInt8)

/-- `for (const auto &callback: *linkerCallBackList)`. -/
def Pointer.forEach (call : CallBack → Entry) : Pointer → List Entry
  | null => []
  | list callbacks => callbacks.map call
  | deleted => [.usesDeleted]

/-- Each callback is told of the load in front of it; nothing is done without a path. -/
def onSoLoadedBefore (linkerCallBackList : Pointer) : Option CString → List Entry
  | none => []
  | some filename => linkerCallBackList.forEach fun callback => .loadBefore callback filename

/-- Each callback is told of the load behind it; nothing is done without a path. -/
def onSoLoadedAfter (linkerCallBackList : Pointer) (redirect_path : CString) (ret : ℤ) :
    Option CString → List Entry
  | none => []
  | some path =>
    linkerCallBackList.forEach fun callback => .loadAfter callback path redirect_path ret

/-- The path that the redirection puts in the place of a path; empty is none. -/
def linkerIORedirect (linkerIoRedirect : Redirect) : Option CString → List UInt8
  | none => []
  | some path =>
    match linkerIoRedirect with
    | none => []
    | some linkerRedirect => linkerRedirect path

/-- What the original is given for a path. -/
def relocated (linkerIoRedirect : Redirect) (filename : Option CString) : Option CString :=
  let relocated_path := linkerIORedirect linkerIoRedirect filename
  if relocated_path = [] then filename else some (c_str relocated_path)

section Wrappers

/- The body that the replacements share: `original` is the call for a path, `inside` what the
original itself shows until it returns `ret`, and `handle` what the callbacks are told of it. -/
variable (linkerCallBackList : Pointer) (linkerIoRedirect : Redirect)
  (inside : List Entry) (ret : ℤ)

/-- One load: the callbacks in front of it, the original, what it shows, and the callbacks behind
it. -/
def intercepted (filename : Option CString) (original : Option CString → Call) (handle : ℤ) :
    List Entry :=
  onSoLoadedBefore linkerCallBackList filename ++
    .original (original (relocated linkerIoRedirect filename)) :: inside ++ .returned ret ::
      onSoLoadedAfter linkerCallBackList (c_str (linkerIORedirect linkerIoRedirect filename)) handle
        filename

/-- The replacement of `__dl__Z9do_dlopenPKci` -/
def new_dlopen_CI (filename : Option CString) (flag : ℤ) : List Entry :=
  intercepted linkerCallBackList linkerIoRedirect inside ret filename (.dlopen_CI · flag) ret

/-- The replacement of `__dl__Z9do_dlopenPKciPK17android_dlextinfo` -/
def new_do_dlopen_CIV (filename : Option CString) (flag extinfo : ℤ) : List Entry :=
  intercepted linkerCallBackList linkerIoRedirect inside ret filename
    (.do_dlopen_CIV · flag extinfo) ret

/-- The replacement of `__dl__Z9do_dlopenPKciPK17android_dlextinfoPv` -/
def new_do_dlopen_CIVV (filename : Option CString) (flags extinfo caller_addr : ℤ) : List Entry :=
  intercepted linkerCallBackList linkerIoRedirect inside ret filename
    (.do_dlopen_CIVV · flags extinfo caller_addr) ret

/-- The original is the system call. -/
def new___openat (fd : ℤ) (pathname : Option CString) (flags mode : ℤ) : List Entry :=
  intercepted linkerCallBackList linkerIoRedirect inside ret pathname (.__openat fd · flags mode) 0

/-- The original is the system call of the older kernels. -/
def new___open (pathname : Option CString) (flags mode : ℤ) : List Entry :=
  intercepted linkerCallBackList linkerIoRedirect inside ret pathname (.__open · flags mode) 0

/-- The replacement of the entry point that is called. -/
def Call.replacement : Call → List Entry
  | dlopen_CI filename flag =>
    new_dlopen_CI linkerCallBackList linkerIoRedirect inside ret filename flag
  | do_dlopen_CIV filename flag extinfo =>
    new_do_dlopen_CIV linkerCallBackList linkerIoRedirect inside ret filename flag extinfo
  | do_dlopen_CIVV filename flags extinfo caller_addr =>
    new_do_dlopen_CIVV linkerCallBackList linkerIoRedirect inside ret filename flags extinfo
      caller_addr
  | __openat fd pathname flags mode =>
    new___openat linkerCallBackList linkerIoRedirect inside ret fd pathname flags mode
  | __open pathname flags mode =>
    new___open linkerCallBackList linkerIoRedirect inside ret pathname flags mode

end Wrappers

/-- An intercepted load: what it is called with, what its original returns, and the loads that
happen inside the original. -/
inductive Load where
  | mk (call : Call) (ret : ℤ) (nested : List Load)

mutual

/-- What a load shows over a list pointer. -/
def Load.shows (linkerCallBackList : Pointer) (linkerIoRedirect : Redirect) : Load → List Entry
  | .mk call ret nested =>
    call.replacement linkerCallBackList linkerIoRedirect
      (showsAll linkerCallBackList linkerIoRedirect nested) ret

/-- What the loads of a list show, one behind the other. -/
def Load.showsAll (linkerCallBackList : Pointer) (linkerIoRedirect : Redirect) :
    List Load → List Entry
  | [] => []
  | load :: rest =>
    load.shows linkerCallBackList linkerIoRedirect ++
      showsAll linkerCallBackList linkerIoRedirect rest

end

/-- What can happen to the callbacks of the linker. -/
inductive Event where
  | addLinkerCallBack (callBack : CallBack)
  | cleanCallBack
  | load (intercepted : Load)

/-- A list that was null is made in front of the first callback. -/
def addLinkerCallBack (callBack : CallBack) : Pointer → Pointer
  | .null => .list [callBack]
  | .list callbacks => .list (callbacks ++ [callBack])
  | .deleted => .deleted

/-- The pointer is not set to null, so that the next call deletes the list again. -/
def cleanCallBack : Pointer → Pointer
  | .null => .null
  | .list _ => .deleted
  | .deleted => .deleted

/-- The list pointer behind an event. -/
def Event.step (linkerCallBackList : Pointer) : Event → Pointer
  | addLinkerCallBack callBack => LinkerHandler.addLinkerCallBack callBack linkerCallBackList
  | cleanCallBack => LinkerHandler.cleanCallBack linkerCallBackList
  | load _ => linkerCallBackList

/-- What an event shows. -/
def Event.shows (linkerIoRedirect : Redirect) (linkerCallBackList : Pointer) : Event → List Entry
  | addLinkerCallBack _ => if linkerCallBackList = .deleted then [.usesDeleted] else []
  | cleanCallBack => if linkerCallBackList = .deleted then [.usesDeleted] else []
  | load intercepted => intercepted.shows linkerCallBackList linkerIoRedirect

/-- The list pointer behind a sequence of events of a process. -/
def run (events : List Event) : Pointer := events.foldl Event.step .null

end XposedJniTrace.LinkerHandler
