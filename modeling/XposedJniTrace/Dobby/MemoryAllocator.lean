import XposedJniTrace.Library.Spans
import XposedJniTrace.Dobby.Trampoline

/-!
# Memory for generated code

`MemoryAllocator.cc` and `NearMemoryAllocator.cc`: blocks for relocated code and for trampolines
near a function. An arena hands its memory out from the front and takes nothing back. What the
kernel gives is an input: the address of new memory, the regions that are mapped, and whether memory
at an address is granted. Blocks of data are never asked for.
-/

namespace XposedJniTrace.Dobby

open Span WordFields

/-- An arena, with a cursor that never leaves it. -/
structure MemoryArena where
  addr : ℕ
  size : ℕ
  cursor_addr : ℕ
  addr_le_cursor : addr ≤ cursor_addr
  cursor_le_end : cursor_addr ≤ addr + size

namespace MemoryArena

/-- An arena of which nothing is used. -/
def new (addr size : ℕ) : MemoryArena := ⟨addr, size, addr, Nat.le_refl _, Nat.le_add_right _ _⟩

/-- Where an arena is. -/
def span (arena : MemoryArena) : Span := ⟨arena.addr, arena.size⟩

/-- What has been handed out, or skipped. -/
def used (arena : MemoryArena) : Span := ⟨arena.addr, arena.cursor_addr - arena.addr⟩

/-- The next bytes of an arena, or null when it has not as many left. -/
def allocMemBlock (arena : MemoryArena) (size : ℕ) : Option (Span × MemoryArena) :=
  if h : arena.addr + arena.size - arena.cursor_addr < size then none
  else some (⟨arena.cursor_addr, size⟩,
    { arena with
      cursor_addr := arena.cursor_addr + size
      addr_le_cursor := Nat.le_trans arena.addr_le_cursor (Nat.le_add_right _ _)
      cursor_le_end := by
        have hle := arena.cursor_le_end
        omega })

end MemoryArena

section Exec

/-- A block from the first arena that has room for it. -/
def firstBlock (size : ℕ) : List MemoryArena → Option (Span × List MemoryArena)
  | [] => none
  | arena :: arenas =>
    match arena.allocMemBlock size with
    | some (block, arena) => some (block, arena :: arenas)
    | none => (firstBlock size arenas).map fun (block, arenas) => (block, arena :: arenas)

/-- `allocateExecBlock`, where new memory is at `mapped`. -/
def allocateExecBlock (page size mapped : ℕ) (arenas : List MemoryArena) :
    Option (Span × List MemoryArena) :=
  match firstBlock size arenas with
  | some result => some result
  | none =>
    let arena := MemoryArena.new mapped (ALIGN_CEIL size page)
    (arena.allocMemBlock size).map fun (block, arena) => (block, arenas ++ [arena])

end Exec

section Near

/-- The first address of a range that lies within another and has room; 0 if there is none. -/
def firstWithin (unused_mem_start unused_mem_end size min_valid_addr max_valid_addr : ℕ) : ℕ :=
  let unused_mem_start := max unused_mem_start min_valid_addr
  let unused_mem_end := min unused_mem_end max_valid_addr
  if unused_mem_end ≤ unused_mem_start then 0
  else if unused_mem_end - unused_mem_start < size then 0
  else unused_mem_start

/-- `allocateFromDefaultArena` -/
def allocateFromDefaultArena (arena : MemoryArena) (size min_valid_addr max_valid_addr : ℕ) : ℕ :=
  if arena.addr + arena.size < min_valid_addr ∨ max_valid_addr < arena.cursor_addr then 0
  else firstWithin arena.cursor_addr (arena.addr + arena.size) size min_valid_addr max_valid_addr

/-- `check_has_sufficient_memory_between_region` -/
def check_has_sufficient_memory_between_region (region next_region : Span)
    (size min_valid_addr max_valid_addr : ℕ) : ℕ :=
  if next_region.start < min_valid_addr ∨ max_valid_addr < region.stop then 0
  else firstWithin (ALIGN_FLOOR region.stop 4) next_region.start size min_valid_addr max_valid_addr

/-- The arena with what is in front of an address skipped, and then a block from it. -/
def blockAt (arena : MemoryArena) (unused_mem size : ℕ) : Option (Span × MemoryArena) :=
  let arena :=
    match arena.allocMemBlock (unused_mem - arena.cursor_addr) with
    | some (_, arena) => arena
    | none => arena
  arena.allocMemBlock size

/-- `allocateNearBlockFromDefaultAllocator` -/
def allocateNearBlockFromDefaultAllocator (size min_valid_addr max_valid_addr : ℕ) :
    List MemoryArena → Option (Span × List MemoryArena)
  | [] => none
  | arena :: arenas =>
    let unused_mem := allocateFromDefaultArena arena size min_valid_addr max_valid_addr
    if unused_mem = 0 then
      (allocateNearBlockFromDefaultAllocator size min_valid_addr max_valid_addr arenas).map
        fun (block, arenas) => (block, arena :: arenas)
    else (blockAt arena unused_mem size).map fun (block, arena) => (block, arena :: arenas)

/-- The first gap between two regions that has room. -/
def unusedRegion (size min_valid_addr max_valid_addr : ℕ) : List Span → ℕ
  | region :: next_region :: regions =>
    let unused_mem :=
      check_has_sufficient_memory_between_region region next_region size min_valid_addr
        max_valid_addr
    if unused_mem = 0 then unusedRegion size min_valid_addr max_valid_addr (next_region :: regions)
      else unused_mem
  | _ => 0

/-- The memory that is mapped for a block in a gap. -/
def unusedArena (page unused_mem size : ℕ) : Span :=
  let unused_arena_first_page_addr := ALIGN_FLOOR unused_mem page
  let unused_arena_end_page_addr := ALIGN_FLOOR (unused_mem + size) page
  ⟨unused_arena_first_page_addr, unused_arena_end_page_addr - unused_arena_first_page_addr + page⟩

/-- `allocateNearBlockFromUnusedRegion`, with whether the kernel grants the memory. -/
def allocateNearBlockFromUnusedRegion (page size min_valid_addr max_valid_addr : ℕ)
    (regions : List Span)
    (granted : Bool) (arenas : List MemoryArena) : Option (Span × List MemoryArena) :=
  let unused_mem := unusedRegion size min_valid_addr max_valid_addr regions
  if unused_mem = 0 then none
  else if granted = false then none
  else
    let memory := unusedArena page unused_mem size
    (blockAt (.new memory.start memory.size) unused_mem size).map fun (block, arena) =>
      (block, arenas ++ [arena])

/-- `allocateNearExecMemory` -/
def allocateNearExecMemory (page size pos search_range : ℕ) (regions : List Span) (granted : Bool)
    (arenas : List MemoryArena) : Option (Span × List MemoryArena) :=
  let min_valid_addr := wrap (pos - search_range)
  let max_valid_addr := wrap (pos + search_range)
  match allocateNearBlockFromDefaultAllocator size min_valid_addr max_valid_addr arenas with
  | some result => some result
  | none =>
    allocateNearBlockFromUnusedRegion page size min_valid_addr max_valid_addr regions granted arenas

end Near

end XposedJniTrace.Dobby
