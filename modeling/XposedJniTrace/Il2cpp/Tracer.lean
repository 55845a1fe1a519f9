import XposedJniTrace.Hook.NearBranch
import XposedJniTrace.Il2cpp.StringUtils

/-!
# `il2cpp_tracer` of `il2cpp/il2cpp_dump.cpp`

The loops of `il2cpp_tracer` over the images, classes and methods that il2cpp lists, with
`hook_il2cpp_method` and `instrument_callback`, over the state of `HookUtils`, the list of records
and the counter. A call gives the states behind its statements, one after the other, since the
game's threads run meanwhile. A method comes with its text from `getMethodInfo`; the save path and
the log texts are left out.
-/

namespace XposedJniTrace.Il2cpp

open HookUtils (Addr World addTrampoline startBranchTrampoline)
open StringUtils (containsInsensitive)

/-- A method: its code, the name of the class that lists it, and its text. -/
structure MethodInfo where
  methodPointer : Addr
  clazzName : List UInt8
  methodInfo : List UInt8
  deriving DecidableEq

/-- What the closure of an instrumented method is given. -/
structure ClosureUserData where
  method : MethodInfo
  orig_function_pointer : Addr
  deriving DecidableEq

/-- The configuration of the filter. -/
structure Filter where
  isTraceALL : Bool
  filter_list : List (List UInt8)

/-- What the threads share, and the addresses for which `addTrampoline` succeeded so far. -/
structure Shared where
  world : World
  methodInfoList : List ClosureUserData
  hookSize : ℕ
  installed : List Addr

/-- `instrument_callback`: the method whose text is logged; null when none is found. -/
def instrument_callback (s : Shared) (address : Addr) : Option MethodInfo :=
  (s.methodInfoList.find? fun info => info.orig_function_pointer = address).map
    ClosureUserData.method

/-- A method is to be hooked. -/
def ishook (filter : Filter) (msg : List UInt8) : Bool :=
  filter.isTraceALL || filter.filter_list.any (containsInsensitive msg)

/-- `string(clazzName) + " " + methodInfo`. -/
def MethodInfo.methodInfoStr (method : MethodInfo) : List UInt8 :=
  method.clazzName ++ 0x20 :: method.methodInfo

/-- A method that the loops come to, and what the backend is to say when it is instrumented. -/
structure Attempt where
  method : MethodInfo
  outcome : Bool
  deriving DecidableEq

/-- The first statement of `hook_il2cpp_method` that the threads can see: the answer of
`addTrampoline`, and the state behind it. -/
def instrument (attempt : Attempt) (s : Shared) : Bool × Shared :=
  match addTrampoline attempt.outcome attempt.method.methodPointer s.world with
  | (true, world) =>
    (true, { s with world, installed := attempt.method.methodPointer :: s.installed })
  | (false, world) => (false, { s with world })

/-- `getMethodInfoList().push_back(pData)`. -/
def pushBack (method : MethodInfo) (s : Shared) : Shared :=
  { s with methodInfoList := s.methodInfoList ++ [⟨method, method.methodPointer⟩] }

/-- `hook_il2cpp_method`: what it returns, and the states behind its statements. -/
def hook_il2cpp_method (attempt : Attempt) (s : Shared) : Bool × List Shared :=
  if attempt.method.methodPointer = 0 then (false, [])
  else
    match instrument attempt s with
    | (true, s) => (true, [s, pushBack attempt.method s])
    | (false, s) => (false, [s])

/-- The state that a call leaves. -/
def behind (s : Shared) (states : List Shared) : Shared := states.getLastD s

/-- One method more is counted. -/
def countUp (s : Shared) : Shared := { s with hookSize := s.hookSize + 1 }

/-- The body of the loop over the methods of a class. -/
def traceMethod (filter : Filter) (attempt : Attempt) (s : Shared) : List Shared :=
  if attempt.method.methodPointer ≠ 0 ∧ ishook filter attempt.method.methodInfoStr = true then
    match hook_il2cpp_method attempt s with
    | (true, states) => states ++ [countUp (behind s states)]
    | (false, states) => states
  else []

/-- What a run of `il2cpp_tracer` is given: whether `il2cpp_image_get_class` is there, and the
methods by image and class. -/
structure Run where
  il2cpp_image_get_class : Bool
  images : List (List (List Attempt))

/-- What a run attempts. -/
def Run.attempts (run : Run) : List Attempt := run.images.flatten.flatten

/-- The statements of a run. -/
inductive Stmt where
  | startBranchTrampoline
  | reset
  | method (attempt : Attempt)
  deriving DecidableEq

/-- The states behind the statements of a statement. -/
def Stmt.states (filter : Filter) (s : Shared) : Stmt → List Shared
  | startBranchTrampoline => [{ s with world := HookUtils.startBranchTrampoline s.world }]
  | reset => [{ s with hookSize := 0 }]
  | method attempt => traceMethod filter attempt s

/-- `il2cpp_tracer`. -/
def il2cpp_tracer (run : Run) : List Stmt :=
  .startBranchTrampoline ::
    if run.il2cpp_image_get_class then .reset :: run.attempts.map .method else []

/-- The state that statements leave. -/
def execute (filter : Filter) (stmts : List Stmt) (s : Shared) : Shared :=
  stmts.foldl (fun s stmt => behind s (stmt.states filter s)) s

/-- The states that statements go through. -/
def visits (filter : Filter) : List Stmt → Shared → List Shared
  | [], _ => []
  | stmt :: rest, s =>
    stmt.states filter s ++ visits filter rest (behind s (stmt.states filter s))

/-- The state of a process before the first run, over what is patched already. -/
def fresh (world : World) : Shared := ⟨world, [], 0, []⟩

end XposedJniTrace.Il2cpp
