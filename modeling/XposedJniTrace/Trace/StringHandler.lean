import XposedJniTrace.Trace.JavaValue
import XposedJniTrace.Trace.Matching

/-!
# The wrappers of the libc tracer

`hook/stringHandler.cpp`: the replacement of every libc function that it hooks, as a run over the
memory, files and streams of the process, with a record of the original functions that it calls.
Reading a string that is not there, writing behind the end of a local array, and printing a string
that is gone end the run. libc is a parameter: what a call does depends on its arguments and, for a
variadic one, on the arguments that its format asks for. The constructors of `std::string`, which
are hooked too, are left out; the caller's path is known.
-/

namespace XposedJniTrace.stringHandlerHook

open Mylibc Java Variadic

/-- The functions that are hooked, with their named arguments. -/
inductive Fn (VaList : Type) where
  | strstr (h n : ℕ)
  | strlen (s : ℕ)
  | strcat (dst src : ℕ)
  | strcmp (lhs rhs : ℕ)
  | strcpy (dst src : ℕ)
  | sprintf (s fmt : ℕ)
  | printf (fmt : ℕ)
  | strtok (str delim : ℕ)
  | strdup (s : ℕ)
  | read (fd : ℤ) (buf count : ℕ)
  | write (fd : ℤ) (buf count : ℕ)
  | strcoll (lhs rhs : ℕ)
  | strxfrm (dest src n : ℕ)
  | fgets (buf : ℕ) (size : ℤ) (fp : ℕ)
  | memcpy (destin source n : ℕ)
  | snprintf (buf size fmt : ℕ)
  | vsnprintf (buf size fmt : ℕ) (args : VaList)

/-- The number of named arguments. -/
def Fn.named {VaList : Type} : Fn VaList → ℕ
  | strlen _ | printf _ | strdup _ => 1
  | strstr .. | strcat .. | strcmp .. | strcpy .. | sprintf .. | strtok .. | strcoll .. => 2
  | read .. | write .. | strxfrm .. | fgets .. | memcpy .. | snprintf .. => 3
  | vsnprintf .. => 4

/-- The functions with variadic arguments, whose wrappers pass on one pointer alone. -/
def Fn.isVariadic {VaList : Type} : Fn VaList → Bool
  | sprintf .. | printf _ | snprintf .. => true
  | _ => false

/-- libc over the memory, files and streams of a process. -/
structure Libc (abi : Abi) (State : Type) where
  /-- The kinds of the variadic arguments that a call asks for, by its format. -/
  kinds : Fn abi.VaList → State → List Kind
  /-- The result and the state that a call leaves, from the variadic arguments that it asked for. -/
  run : Fn abi.VaList → List ℕ → State → ℤ × State
  /-- The string that a pointer leads to, unless reading it ends in memory that is not there. -/
  cstr : State → ℕ → Option Text
  /-- The bytes from an address on. -/
  bytes : State → ℕ → ℕ → List UInt8
  bytes_length : ∀ state p n, (bytes state p n).length = n

/-- A call of an original function: the variadic arguments that are passed on, and the result. -/
structure Call (abi : Abi) where
  fn : Fn abi.VaList
  variadic : List Arg
  ret : ℤ

/-- The state of libc, the calls of original functions so far, and the label. -/
structure Machine (abi : Abi) (State : Type) where
  state : State
  calls : List (Call abi)
  match_so_name : List UInt8

/-- What a wrapper runs in: the filters, the path of its caller, what an original variadic function
finds where nothing is put for it, and what the stack holds below the wrapper's frame, from there
down. -/
structure Env (abi : Abi) where
  cfg : Config
  caller : CString
  next : abi.Start
  stack : List UInt8

/-- A run of a wrapper, unless it ends in undefined behaviour. -/
abbrev Hook (abi : Abi) (State : Type) := StateT (Machine abi State) Option

variable {abi : Abi} {State : Type} (libc : Libc abi State) (env : Env abi)

/-- What a call does whose variadic arguments are laid out so. -/
def Libc.call (fn : Fn abi.VaList) (va : abi.VaList) (state : State) : ℤ × State :=
  libc.run fn (abi.draws (libc.kinds fn state) va) state

/-- `isLister`, which stores the file name of a caller that matches. -/
def checkLister : Hook abi State Bool := fun m =>
  let listed := isLister env.cfg m.match_so_name env.caller
  some (listed.1, { m with match_so_name := listed.2 })

/-- A call of `orig_`. -/
def orig (fn : Fn abi.VaList) (variadic : List Arg) : Hook abi State ℤ := fun m =>
  let (ret, state) := libc.call fn (abi.place env.next variadic) m.state
  some (ret, { m with state := state, calls := m.calls ++ [⟨fn, variadic, ret⟩] })

/-- A piece of a line: a literal, or `IS_NULL` of a pointer. -/
inductive Piece where
  | lit (text : Text)
  | isNull (p : ℕ)

/-- The text of a piece, unless its pointer leads to no string. -/
def Piece.text (state : State) : Piece → Option Text
  | lit text => some text
  | isNull p => if p = 0 then some [] else libc.cstr state p

/-- Append pieces, from the left. -/
def strInfo (pieces : List Piece) : Hook abi State Text := fun m =>
  (pieces.mapM (Piece.text libc m.state)).map fun texts => (texts.flatten, m)

/-- `write` of the tracer: the line is put together in a temporary string, which is gone when the
reference to it is printed. -/
def write (msg : Text) : Hook abi State Unit := fun m => if msg = [] then some ((), m) else none

/-- Text as it stands in the program. -/
def lit (text : String) : Piece := .lit (ascii text)

/-- The pieces for a pointer that is returned. -/
def resultPieces (ret : ℤ) : List Piece :=
  if ret ≠ 0 then [lit "result -> ", .isNull ret.toNat] else []

/-- The shape of most wrappers: for a caller that matches, the original is called first and the
line is written then. -/
def forward (fn : Fn abi.VaList) (variadic : List Arg) (line : ℤ → List Piece) :
    Hook abi State ℤ := do
  if ← checkLister env then
    let ret ← orig libc env fn variadic
    let info ← strInfo libc (line ret)
    write info
    return ret
  else orig libc env fn variadic

/-- The wrapper of `strstr` -/
def new_strstr (h n : ℕ) : Hook abi State ℤ :=
  forward libc env (.strstr h n) [] fun ret =>
    [lit "strstr() arg1 -> ", .isNull h, lit "  arg2-> ", .isNull n] ++
      resultPieces ret ++ [lit "\n"]

/-- The line names another function. -/
def new_strlen (s : ℕ) : Hook abi State ℤ :=
  forward libc env (.strlen s) [] fun _ => [lit "strstr() arg1 -> ", .isNull s, lit "\n"]

/-- The wrapper of `strcat` -/
def new_strcat (dst src : ℕ) : Hook abi State ℤ :=
  forward libc env (.strcat dst src) [] fun ret =>
    [lit "strcat() arg1 -> ", .isNull dst, lit "  arg2-> ", .isNull src] ++
      resultPieces ret ++ [lit "\n"]

/-- The wrapper of `strcmp` -/
def new_strcmp (lhs rhs : ℕ) : Hook abi State ℤ :=
  forward libc env (.strcmp lhs rhs) [] fun _ =>
    [lit "strcmp() arg1 -> ", .isNull lhs, lit "  arg2-> ", .isNull rhs, lit "\n"]

/-- The wrapper of `strcpy` -/
def new_strcpy (dst src : ℕ) : Hook abi State ℤ :=
  forward libc env (.strcpy dst src) [] fun ret =>
    [lit "strcpy() arg1 -> ", .isNull dst, lit "  arg2-> ", .isNull src] ++
      resultPieces ret ++ [lit "\n"]

/-- Of the variadic arguments, the one that is drawn as a pointer is passed on. -/
def new_sprintf (s fmt p : ℕ) : Hook abi State ℤ :=
  forward libc env (.sprintf s fmt) [⟨.general, p⟩] fun _ =>
    [lit "sprintf() arg1 -> ", .isNull fmt, lit "  ... ", .isNull p, lit "\n"]

/-- As `new_sprintf`, the name in the line included. -/
def new_printf (fmt p : ℕ) : Hook abi State ℤ :=
  forward libc env (.printf fmt) [⟨.general, p⟩] fun _ =>
    [lit "sprintf() arg1 -> ", .isNull fmt, lit "  ... ", .isNull p, lit "\n"]

/-- The line names another function. -/
def new_strtok (str delim : ℕ) : Hook abi State ℤ :=
  forward libc env (.strtok str delim) [] fun ret =>
    [lit "strcpy() arg1 -> ", .isNull str, lit "  arg2-> ", .isNull delim] ++
      resultPieces ret ++ [lit "\n"]

/-- The line is written first. -/
def new_strdup (s : ℕ) : Hook abi State ℤ := do
  if ← checkLister env then
    let info ← strInfo libc [lit "strdup() arg1 -> ", .isNull s, lit "\n"]
    write info
    orig libc env (.strdup s) []
  else orig libc env (.strdup s) []

/-- The shape of `read` and `write`: nothing is written when the original fails. -/
def forwardUnlessFailed (fn : Fn abi.VaList) (line : List Piece) : Hook abi State ℤ := do
  if ← checkLister env then
    let ret ← orig libc env fn []
    if ret = -1 then
      return ret
    else
      let info ← strInfo libc line
      write info
      return ret
  else orig libc env fn []

/-- The wrapper of `read`, which reports a call that does not fail. -/
def new_read (fd : ℤ) (buf count : ℕ) : Hook abi State ℤ :=
  forwardUnlessFailed libc env (.read fd buf count)
    [lit "read() arg2 -> ", .isNull buf, lit " read count -> ", .lit (decimal count), lit "\n"]

/-- The wrapper of `write`, which reports a call that does not fail. -/
def new_write (fd : ℤ) (buf count : ℕ) : Hook abi State ℤ :=
  forwardUnlessFailed libc env (.write fd buf count)
    [lit "write() arg2 -> ", .isNull buf, lit " write count -> ", .lit (decimal count), lit "\n"]

/-- The wrapper of `strcoll` -/
def new_strcoll (lhs rhs : ℕ) : Hook abi State ℤ :=
  forward libc env (.strcoll lhs rhs) [] fun _ =>
    [lit "strcoll() arg1 -> ", .isNull lhs, lit " arg2 -> ", .isNull rhs, lit "\n"]

/-- The wrapper of `strxfrm` -/
def new_strxfrm (dest src n : ℕ) : Hook abi State ℤ :=
  forward libc env (.strxfrm dest src n) [] fun _ =>
    [lit "strxfrm() arg1 -> ", .isNull dest, lit " arg2 -> ", .isNull src, lit "\n"]

/-- After the line, the call falls through to the one for callers that do not match. -/
def new_fgets (buf : ℕ) (size : ℤ) (fp : ℕ) : Hook abi State ℤ := do
  if ← checkLister env then
    let ret ← orig libc env (.fgets buf size fp) []
    let info ← strInfo libc
        ([lit "fgets() arg1 -> ", .isNull buf, lit "  arg2-> ", .lit (decimal size)] ++
      resultPieces ret ++ [lit "\n"])
    write info
    orig libc env (.fgets buf size fp) []
  else orig libc env (.fgets buf size fp) []

/-- A digit of `%02X`. -/
def hexDigit (d : ℕ) : UInt8 := UInt8.ofNat (if d < 10 then 48 + d else 55 + d)

/-- The loop of `getpData`: `sprintf(temp + len, "%02X", p[i])` into an array of the size, `len`
being what is in it. A `char` has no sign. -/
def getpData.loop (size : ℕ) (temp : Text) : List UInt8 → Option Text
  | [] => some temp
  | c :: p =>
    if temp.length + 2 < size ∧ temp.length + 2 < 2 ^ 31 then
      loop size (temp ++ [hexDigit (c.toNat / 16), hexDigit (c.toNat % 16)]) p
    else none

/-- The string that is in `temp` behind the call, from what the array holds before: the first
statement measures it, and clears it so far. -/
def getpData (temp : List UInt8) (p : List UInt8) : Option Text :=
  if 0 ∈ temp then getpData.loop temp.length [] p else none

/-- The array `temp` of `n * 5` bytes, in words of the target, if the stack has room. -/
def tempArray (n : ℕ) : Option (List UInt8) :=
  let size := n * 5 % abi.bound
  if size ≤ env.stack.length then some (env.stack.take size).reverse else none

/-- The wrapper of `memcpy`, which writes the bytes of the source in hexadecimal. -/
def new_memcpy (destin source n : ℕ) : Hook abi State ℤ := do
  if ← checkLister env then
    let origStr ← strInfo libc [lit "memcpy() call org destin -> [", .isNull source, lit "]\n"]
    let ret ← orig libc env (.memcpy destin source n) []
    let info ← strInfo libc [lit "arg1 -> [", .isNull destin, lit "] ", lit "arg2 -> [",
        .isNull source,
      lit "] ", .lit (decimal n), lit "\n"]
    let temp ← StateT.lift (tempArray env n)
    let hex ← fun m => (getpData temp (libc.bytes m.state source n)).map fun hex => (hex, m)
    write (origStr ++ info ++ hex ++ ascii "\n")
    return ret
  else orig libc env (.memcpy destin source n) []

/-- The wrapper of `snprintf`, which passes on the first of the variadic arguments. -/
def new_snprintf (buf size fmt p : ℕ) : Hook abi State ℤ :=
  forward libc env (.snprintf buf size fmt) [⟨.general, p⟩] fun _ =>
    [lit "snprintf() arg1 -> ", .isNull fmt, lit "  arg2-> ", .isNull p, lit "\n"]

/-- The wrapper of `vsnprintf` -/
def new_vsnprintf (buf size fmt : ℕ) (args : abi.VaList) : Hook abi State ℤ :=
  forward libc env (.vsnprintf buf size fmt args) [] fun _ =>
    [lit "vsnprintf() arg1 -> ", .isNull fmt, lit "\n"]

/-- The wrapper of a function, for a call with variadic arguments that are laid out so: `p` is the
first one of them, drawn as a pointer. -/
def hook (va : abi.VaList) : Fn abi.VaList → Hook abi State ℤ
  | .strstr h n => new_strstr libc env h n
  | .strlen s => new_strlen libc env s
  | .strcat dst src => new_strcat libc env dst src
  | .strcmp lhs rhs => new_strcmp libc env lhs rhs
  | .strcpy dst src => new_strcpy libc env dst src
  | .sprintf s fmt => new_sprintf libc env s fmt (abi.draw .general va).1
  | .printf fmt => new_printf libc env fmt (abi.draw .general va).1
  | .strtok str delim => new_strtok libc env str delim
  | .strdup s => new_strdup libc env s
  | .read fd buf count => new_read libc env fd buf count
  | .write fd buf count => new_write libc env fd buf count
  | .strcoll lhs rhs => new_strcoll libc env lhs rhs
  | .strxfrm dest src n => new_strxfrm libc env dest src n
  | .fgets buf size fp => new_fgets libc env buf size fp
  | .memcpy destin source n => new_memcpy libc env destin source n
  | .snprintf buf size fmt => new_snprintf libc env buf size fmt (abi.draw .general va).1
  | .vsnprintf buf size fmt args => new_vsnprintf libc env buf size fmt args

end XposedJniTrace.stringHandlerHook
