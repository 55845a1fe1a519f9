import XposedJniTrace.Library.Delivery
import XposedJniTrace.Library.LittleEndian
import XposedJniTrace.Linker.Maps

/-!
# The search for system calls

`search_memory_syscall` of arm64 and of arm, and `findSyscalls`, from
`findsyscall/BinarySyscallFinder.cpp`. A scan of a region calls the callback for each match that
it comes to. The memory does not change during the search, and the callback may answer by all its
earlier calls. The build for x86 has an empty scan and is left out.
-/

namespace XposedJniTrace.FindSyscalls

open Maps (Region Scanned bufSize fgets sscanf has_code)
open Delivery (deliver UntilStop)

/-- The bytes at the addresses of the process. -/
abbrev Memory := ℕ → UInt8

/-- The instruction word at an address. -/
def insn (mem : Memory) (a : ℕ) : ℕ :=
  LittleEndian.decode [mem a, mem (a + 1), mem (a + 2), mem (a + 3)]

/-- A place where a number is loaded for a system call that follows. -/
structure Match where
  addr : ℕ
  num : ℕ
  deriving DecidableEq

/-- A call of the callback. -/
structure Call where
  path : List UInt8
  num : ℕ
  func : ℕ
  deriving DecidableEq

/-- What a callback answers to a call behind earlier ones: `BREAK_FIND_SYSCALL` is false. -/
abbrev Callback := List Call → Call → Bool

namespace AArch64

/-- The word of `svc #0` -/
def AARCH64_SVC_0 : ℕ := 0xD4000001

/-- The word is `mov x8, #imm` -/
def AARCH64_IS_MOV (insn : ℕ) : Prop := insn &&& 0xFFE0001F = 0xD2800008

instance (insn : ℕ) : Decidable (AARCH64_IS_MOV insn) := inferInstanceAs (Decidable (_ = _))

/-- The number of the system call that the two words at an address make. -/
def syscallAt (mem : Memory) (start : ℕ) : Option ℕ :=
  if insn mem (start + 4) = AARCH64_SVC_0 ∧ AARCH64_IS_MOV (insn mem start) then
    some (insn mem start >>> 5 &&& 0xFFFF)
  else none

/-- The loop of `search_memory_syscall`; a break ends it for this region. -/
def search (mem : Memory) (callback : List Match → Match → Bool) (limit start : ℕ)
    (calls : List Match) : List Match :=
  match syscallAt mem start with
  | some num =>
    if callback calls ⟨start, num⟩ then
      if start + 4 < limit then search mem callback limit (start + 4) (calls ++ [⟨start, num⟩])
      else calls ++ [⟨start, num⟩]
    else calls ++ [⟨start, num⟩]
  | none => if start + 4 < limit then search mem callback limit (start + 4) calls else calls
termination_by limit - start

/-- The scan of the words of a region of arm64. -/
def search_memory_syscall (mem : Memory) (callback : List Match → Match → Bool)
    (begin_ end_ : ℕ) (calls : List Match) : List Match :=
  search mem callback (end_ - 4 * 2) begin_ calls

end AArch64

namespace Arm

/-- The word is `mov r7, #imm` -/
def ARM_IS_MOV_R7_IMM (insn : ℕ) : Prop := insn &&& 0xFF00F000 = 0xE3007000

instance (insn : ℕ) : Decidable (ARM_IS_MOV_R7_IMM insn) := inferInstanceAs (Decidable (_ = _))

/-- The number of the system call that the three words at an address make. -/
def syscallAt (mem : Memory) (start : ℕ) : Option ℕ :=
  if insn mem start = 0xE1A0C007 ∧ ARM_IS_MOV_R7_IMM (insn mem (start + 4)) ∧
      insn mem (start + 8) = 0xEF000000 then
    some ((insn mem (start + 4) &&& 0xF0000) >>> 4 ||| insn mem (start + 4) &&& 0x00FFF)
  else none

/-- The loop of `search_memory_syscall`; the answer of the callback is not looked at. -/
def search (mem : Memory) (limit start : ℕ) (calls : List Match) : List Match :=
  match syscallAt mem start with
  | some num =>
    if start + 1 < limit then search mem limit (start + 1) (calls ++ [⟨start, num⟩])
    else calls ++ [⟨start, num⟩]
  | none => if start + 1 < limit then search mem limit (start + 1) calls else calls
termination_by limit - start

/-- The scan of the words of a region of arm. -/
def search_memory_syscall (mem : Memory) (begin_ end_ : ℕ) (calls : List Match) : List Match :=
  search mem (end_ - 4 * 4) begin_ calls

end Arm

/-- The architectures the file is built for. -/
inductive Arch where
  | aarch64
  | arm
  deriving DecidableEq

namespace Arch

/-- The `__WORDSIZE` of the architecture. -/
def bits : Arch → ℕ
  | aarch64 => 64
  | arm => 32

/-- What the callback is called with for a match; on arm it is not told where it is. -/
def call (path : List UInt8) : Arch → Match → Call
  | aarch64, found => ⟨path, found.num, found.addr⟩
  | arm, found => ⟨path, found.num, 0⟩

/-- The answer to a match behind earlier ones. -/
def answer (path : List UInt8) (callback : Callback) (arch : Arch) (calls : List Match)
    (found : Match) : Bool :=
  callback (calls.map (arch.call path)) (arch.call path found)

/-- The `search_memory_syscall` of the architecture. -/
def search_memory_syscall (mem : Memory) (path : List UInt8) (callback : Callback) (begin_ end_ : ℕ)
    (calls : List Match) : Arch → List Match
  | aarch64 =>
    AArch64.search_memory_syscall mem (answer path callback .aarch64) begin_ end_ calls
  | arm => Arm.search_memory_syscall mem begin_ end_ calls

end Arch

/-- `strstr` is not null. A line of the maps has no terminator inside. -/
def strstr (buf path : List UInt8) : Bool := path <:+: buf

/-- The loop of `findSyscalls` over the text of the maps: the calls, and whether a region was
searched. It is undefined when a line cannot be scanned. -/
def findSyscalls (arch : Arch) (mem : Memory) (path : List UInt8) (callback : Callback)
    (text : List UInt8) (calls : List Match) (res : Bool) : Option (List Match × Bool) :=
  if _h : text = [] then some (calls, res)
  else
    match sscanf arch.bits (fgets (bufSize - 1) text).1 with
    | none => none
    | some scanned =>
      if strstr (fgets (bufSize - 1) text).1 path && has_code scanned.perm then
        findSyscalls arch mem path callback (fgets (bufSize - 1) text).2
          (arch.search_memory_syscall mem path callback scanned.begin scanned.endAddr calls) true
      else findSyscalls arch mem path callback (fgets (bufSize - 1) text).2 calls res
termination_by text.length
decreasing_by
  · exact Maps.length_fgets _ _h
  · exact Maps.length_fgets _ _h

end XposedJniTrace.FindSyscalls
