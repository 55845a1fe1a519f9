import XposedJniTrace.Dobby.MemoryAllocator
import XposedJniTrace.Dobby.RelocatedRun

/-!
# Hooks of Dobby

`DobbyHook`, `DobbyDestroy` and what is behind them: the near trampoline of the plugin, the routing
of a function, and the list of entries. The memory of the process is part of the state. What the
kernel does in a call is an input of the call; the page permissions that `DobbyCodePatch` changes
and restores, the caches and the logs are left out, and so are the number and the type of an entry,
which nothing here reads.
-/

namespace XposedJniTrace.Dobby

open ByteMemory WordFields

/-- An entry, with the replacement that its routing has. -/
structure InterceptEntry where
  patched_addr : ℕ
  replace_func : ℕ
  relocated_addr : ℕ
  origin_insns : List UInt8
  deriving DecidableEq

/-- The state: memory, the arenas, the entries, and the mode. -/
structure World where
  mem : Memory
  arenas : List MemoryArena
  entries : List InterceptEntry
  near_branch_trampoline : Bool

/-- What the kernel does during a call: whether the page can be made executable, the regions of the
process and whether memory among them is granted, at both times that this is asked for, and where
new memory is. -/
structure Kernel where
  permission : Bool
  regions : List Span
  granted : Bool
  regions' : List Span
  granted' : Bool
  mapped : ℕ

/-- `DobbyCodePatch` -/
def DobbyCodePatch (mem : Memory) (address : ℕ) (buffer : List UInt8) : Memory :=
  write mem address buffer

/-- The words of code at an address. -/
def wordsAt (mem : Memory) (address n : ℕ) : List ℕ :=
  (List.range n).map fun i => number mem (address + 4 * i) 4

section Near

/-- The reach of a branch. -/
def ARM64_B_XXX_RANGE : ℕ := (1 <<< 25) <<< 2

/-- The memory and the arenas behind a call, with what it returns. -/
structure Generated (α : Type) where
  result : α
  mem : Memory
  arenas : List MemoryArena

/-- `GenerateFastForwardTrampoline`: the address of the code that leads on. -/
def GenerateFastForwardTrampoline (page : ℕ) (kernel : Kernel) (src dst : ℕ) (mem : Memory)
    (arenas : List MemoryArena) : Generated (Option ℕ) :=
  match allocateNearExecMemory page 12 src ARM64_B_XXX_RANGE kernel.regions
    kernel.granted arenas with
  | none => ⟨none, mem, arenas⟩
  | some (tramp_mem, arenas) =>
    if distance tramp_mem.start dst < adrp_range then
      let code := AdrpAdd TMP_REG_0 tramp_mem.start dst ++ [br TMP_REG_0]
      ⟨some tramp_mem.start, DobbyCodePatch mem tramp_mem.start (bytesOf code), arenas⟩
    else
      let code := Mov TMP_REG_0 dst ++ [br TMP_REG_0]
      match allocateNearExecMemory page 20 src ARM64_B_XXX_RANGE kernel.regions'
        kernel.granted' arenas with
      | none => ⟨none, mem, arenas⟩
      | some (tramp_mem, arenas) =>
        ⟨some tramp_mem.start, DobbyCodePatch mem tramp_mem.start (bytesOf code), arenas⟩

/-- `GenerateNearTrampolineBuffer` -/
def GenerateNearTrampolineBuffer (page : ℕ) (kernel : Kernel) (src dst : ℕ) (mem : Memory)
    (arenas : List MemoryArena) : Generated (Option (List ℕ)) :=
  if ((dst : ℤ) - src).natAbs < ARM64_B_XXX_RANGE then ⟨some [b (dst - src)], mem, arenas⟩
  else
    let forward := GenerateFastForwardTrampoline page kernel src dst mem arenas
    ⟨forward.result.map fun addr => [b (addr - src)], forward.mem, forward.arenas⟩

end Near

/-- `InterceptRouting::GenerateTrampolineBuffer` -/
def GenerateTrampolineBuffer (page : ℕ) (kernel : Kernel) (src dst : ℕ) (w : World) :
    Generated (List ℕ) :=
  if w.near_branch_trampoline then
    let near := GenerateNearTrampolineBuffer page kernel src dst w.mem w.arenas
    ⟨near.result.getD (GenerateNormalTrampolineBuffer src dst), near.mem, near.arenas⟩
  else ⟨GenerateNormalTrampolineBuffer src dst, w.mem, w.arenas⟩

/-- `InterceptRouting::GenerateRelocatedCode`, with `FinalizeFromTurboAssembler`: the address of the
code and the bytes that were there. `none` is the end of the process. -/
def GenerateRelocatedCode (page mapped address : ℕ) (trampoline : Generated (List ℕ)) :
    Option (Generated (ℕ × List UInt8)) :=
  let tramp_size := trampoline.result.length
  (GenRelocateCodeAndBranch address (wordsAt trampoline.mem address tramp_size)).bind fun code =>
    (allocateExecBlock page (4 * code.length) mapped trampoline.arenas).map fun (block, arenas) =>
      let mem := DobbyCodePatch trampoline.mem block.start (bytesOf code)
      ⟨(block.start, read mem address (4 * tramp_size)), mem, arenas⟩

namespace World

/-- `Interceptor::find` -/
def find (w : World) (addr : ℕ) : Option InterceptEntry :=
  w.entries.find? fun entry => entry.patched_addr = addr

/-- `Interceptor::add` -/
def add (w : World) (entry : InterceptEntry) : World := { w with entries := w.entries ++ [entry] }

/-- `Interceptor::remove` -/
def remove (w : World) (addr : ℕ) : World :=
  { w with entries := w.entries.eraseP fun entry => entry.patched_addr = addr }

end World

/-- `DobbyHook` with its routing: whether it succeeds, and the entry then has the original
function. -/
def DobbyHook (page : ℕ) (kernel : Kernel) (address replace_func : ℕ) (w : World) :
    Option (Bool × World) :=
  if address = 0 then some (false, w)
  else if kernel.permission = false then some (false, w)
  else
    match w.find address with
    | some _ => some (false, w)
    | none =>
      let trampoline := GenerateTrampolineBuffer page kernel address replace_func w
      (GenerateRelocatedCode page kernel.mapped address trampoline).map fun relocated =>
        let entry : InterceptEntry :=
          ⟨address, replace_func, relocated.result.1, relocated.result.2⟩
        -- the trampoline is written when everything else is in place
        let mem := DobbyCodePatch relocated.mem address (bytesOf trampoline.result)
        (true, { w with mem := mem, arenas := relocated.arenas }.add entry)

/-- `DobbyDestroy` -/
def DobbyDestroy (address : ℕ) (w : World) : Bool × World :=
  match w.find address with
  | some entry =>
    (true, { w with mem := DobbyCodePatch w.mem address entry.origin_insns }.remove address)
  | none => (false, w)

/-- What a run is made of. -/
inductive Op where
  | hook (kernel : Kernel) (address replace_func : ℕ)
  | destroy (address : ℕ)
  | nearBranch (enabled : Bool)

/-- One step of a run. -/
def World.step (page : ℕ) (w : World) : Op → Option World
  | .hook kernel address replace_func => (DobbyHook page kernel address replace_func w).map Prod.snd
  | .destroy address => some (DobbyDestroy address w).2
  | .nearBranch enabled => some { w with near_branch_trampoline := enabled }

/-- A run of calls, until the process ends. -/
def World.run (page : ℕ) : World → List Op → Option World
  | w, [] => some w
  | w, op :: ops => (w.step page op).bind fun w => World.run page w ops

end XposedJniTrace.Dobby
