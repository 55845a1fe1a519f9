import XposedJniTrace.Jni.Wrappers
import XposedJniTrace.Trace.Transparency

/-!
# `DL_INFO` and `IS_MATCH`

The wrappers of `hook/JnitraceForC.cpp` and `hook/stringHandler.cpp` and the callback of
`hook/invokePrintf.cpp` from the address of their caller, or of the method that is registered, on.
`dladdr` fills a variable in for an address in a library, and for another one leaves it as the stack
has it. Its result is not looked at: what the variable holds is a pointer, which need not lead to a
string, and reading a string that is not there ends the run.
-/

namespace XposedJniTrace

open Mylibc

/-- What `dladdr` fills in: where the name of the file is, and where the file is loaded. -/
structure Dl_info where
  dli_fname : ℕ
  dli_fbase : ℕ

/-- The strings in the memory of a process: what a pointer leads to, unless reading it ends in
memory that is not there. The null pointer leads to none, and there are some. -/
structure Memory where
  cstr : ℕ → Option CString
  null : cstr 0 = none
  exists_string : ∃ p, (cstr p).isSome = true

/-- The variable behind `dladdr`, from what is in it before. -/
def DL_INFO (dladdr : ℕ → Option Dl_info) (address : ℕ) (info : Dl_info) : Dl_info :=
  (dladdr address).getD info

namespace Memory

variable (memory : Memory)

/-- `my_strstr(s, find) != nullptr`: without anything to find, `s` is returned and not read. -/
def my_strstr (s : ℕ) (find : CString) : Option Bool :=
  if find.bytes = [] then some (s ≠ 0)
  else (memory.cstr s).map fun s => (Mylibc.my_strstr s.bytes find.bytes).isSome

/-- `isAppFile` for a pointer. -/
def isAppFile (path : ℕ) : Option Bool := memory.my_strstr path (c_str (ascii "/data/"))

/-- `getFileNameForPath` for a pointer. -/
def getFileNameForPath (path : ℕ) : Option (List UInt8) :=
  (memory.cstr path).map XposedJniTrace.getFileNameForPath

/-- The body of both copies of `isLister`, for a pointer. -/
def isLister (cfg : Config) (match_so_name : List UInt8) (name : ℕ) : Option (Bool × List UInt8) :=
  if cfg.isHookAll then do
    if !(← memory.isAppFile name) then
      return (false, match_so_name)
    else if ← cfg.forbidSoList.anyM fun forbid => memory.my_strstr name (c_str forbid) then
      return (false, match_so_name)
    else return (true, ← memory.getFileNameForPath name)
  else do
    if ← cfg.filterSoList.anyM fun filter => memory.my_strstr name (c_str filter) then
      return (true, ← memory.getFileNameForPath name)
    else return (false, match_so_name)

end Memory

/-- What the wrappers of a process see: its memory, `dladdr`, and the mode and the lists. -/
structure Process where
  memory : Memory
  dladdr : ℕ → Option Dl_info
  cfg : Config

/-- The answer of `isLister` in a wrapper, from the address of its caller and what its variable
holds before. -/
def Process.listed (process : Process) (address : ℕ) (info : Dl_info) (match_so_name : List UInt8) :
    Option (Bool × List UInt8) :=
  process.memory.isLister process.cfg match_so_name
    (DL_INFO process.dladdr address info).dli_fname

namespace Jni

open Variadic (Abi)

/-- A wrapper of the JNI tracer, with the name that is stored. -/
def wrapperAt {abi : Abi} {W : Type} (process : Process) (address : ℕ) (vm : JavaVM abi W)
    (act : Activation abi W) {k : Kind} (request : Request abi k) (match_so_name : List UInt8)
    (s : State abi W) (info : Dl_info) : Option (k.Value × List UInt8 × State abi W) :=
  (process.listed address info match_so_name).bind fun answer =>
    (wrapper vm { act with listed := answer.1 } request s).map fun (ret, s) => (ret, answer.2, s)

end Jni

namespace stringHandlerHook

open Variadic (Abi)

variable {abi : Abi} {State : Type}

/-- What a wrapper goes on in: the path of its caller, or, where no string is, no filter to look
for. -/
def Env.at (env : Env abi) (path : Option CString) : Env abi :=
  match path with
  | some path => { env with caller := path }
  | none => { env with cfg := ⟨false, [], []⟩ }

/-- A wrapper of the libc tracer. -/
def hookAt (process : Process) (address : ℕ) (libc : Libc abi State) (env : Env abi)
    (va : abi.VaList) (fn : Fn abi.VaList) (m : Machine abi State) (info : Dl_info) :
    Option (ℤ × Machine abi State) :=
  let env := { env with cfg := process.cfg }
  let path := process.memory.cstr (DL_INFO process.dladdr address info).dli_fname
  (process.listed address info m.match_so_name).bind fun _ => hook libc (env.at path) va fn m

/-- The functions of `std::string` that have wrappers, by what they construct or change. -/
inductive StringFn where
  | string__init_1 (thiz s sz : ℕ)
  | string__init_2 (thiz s sz reserve : ℕ)
  | string__init_3 (thiz n : ℕ) (c : UInt8)
  | string__append_1 (thiz s n : ℕ)
  | string__append_2 (thiz s : ℕ)

/-- The object that a function of `std::string` is called on. -/
def StringFn.thiz : StringFn → ℕ
  | string__init_1 thiz _ _ => thiz
  | string__init_2 thiz _ _ _ => thiz
  | string__init_3 thiz _ _ => thiz
  | string__append_1 thiz _ _ => thiz
  | string__append_2 thiz _ => thiz

/-- `std::string` over the memory of a process. -/
structure StdString (State : Type) where
  run : StringFn → State → ℕ × State
  /-- The text of the string at an address, if there is one. -/
  text : State → ℕ → Option (List UInt8)

/-- What the wrappers of the functions of `std::string` go over. -/
structure Strings (State : Type) where
  state : State
  match_so_name : List UInt8

/-- A call of `orig_`. -/
def Strings.orig (std : StdString State) (fn : StringFn) (m : Strings State) : ℕ × Strings State :=
  ((std.run fn m.state).1, { m with state := (std.run fn m.state).2 })

/-- The wrappers of the functions of `std::string`: the string is written first, and no run goes on
behind one with text. -/
def stringAt (process : Process) (address : ℕ) (std : StdString State) (fn : StringFn)
    (m : Strings State) (info : Dl_info) : Option (ℕ × Strings State) :=
  (process.listed address info m.match_so_name).bind fun (listed, match_so_name) =>
    let m := { m with match_so_name }
    if listed then
      (std.text m.state fn.thiz).bind fun msg =>
        if msg = [] then some (Strings.orig std fn m) else none
    else some (Strings.orig std fn m)

end stringHandlerHook

namespace invokePrintf

/-- What the log has of a registered method. -/
structure Registered where
  method : List UInt8
  absolute_address : ℕ
  relative_offset : ℤ
  elf : List UInt8
  deriving DecidableEq

/-- `RegisterNativeCallBack`: what goes to the stream, if one is given, and to the log. Pointers
have the given number of bits. The line break for the stream stays in the text. -/
def RegisterNativeCallBack (process : Process) (prettyMethod : ℕ → List UInt8) (bits : ℕ)
    (isSave : Bool) (method native_method : ℕ) (info : Dl_info) :
    Option (List (List UInt8) × List Registered) :=
  if method = 0 ∨ native_method = 0 then some ([], [])
  else
    let basicString :=
      if isSave then prettyMethod method ++ ascii "\n" else prettyMethod method
    let info := DL_INFO process.dladdr native_method info
    let relative_offset := ((native_method : ℤ) - info.dli_fbase) % 2 ^ bits
    (process.memory.getFileNameForPath info.dli_fname).map fun elf =>
      (if isSave then [basicString] else [], [⟨basicString, native_method, relative_offset, elf⟩])

end invokePrintf

end XposedJniTrace
