import XposedJniTrace.Dobby.MemoryAllocator

/-!
# Blocks of generated code do not overlap

Over any run of requests the blocks that are handed out lie in the arenas, clear of each other and
of the program, and a block near a function is within reach of it. The kernel is taken at its word:
new memory is where nothing is, and the regions it lists are sorted and hold whatever is mapped.
Memory in a gap of the program is mapped at a fixed address, so that its last page must not be that
of the next region; that is so exactly when the block ends at the first address of that region.
-/

namespace XposedJniTrace.Dobby

open Span WordFields

section Arithmetic

variable {a range size page : ℕ}

/-- What is rounded down is no larger. -/
theorem ALIGN_FLOOR_le (a range : ℕ) : ALIGN_FLOOR a range ≤ a := Nat.div_mul_le_self a range

/-- A multiple is rounded down to itself. -/
theorem ALIGN_FLOOR_of_mod (h : a % range = 0) : ALIGN_FLOOR a range = a :=
  Nat.div_mul_cancel (Nat.dvd_of_mod_eq_zero h)

/-- A multiple below a number is below what the number is rounded down to. -/
theorem le_ALIGN_FLOOR {b : ℕ} (h : b % range = 0) (hle : b ≤ a) : b ≤ ALIGN_FLOOR a range := by
  rw [← ALIGN_FLOOR_of_mod h]
  exact Nat.mul_le_mul_right range (Nat.div_le_div_right hle)

/-- A page that begins in front of a page ends in front of it. -/
theorem ALIGN_FLOOR_add_le (hpage : 0 < page) {b : ℕ} (h : b % page = 0) :
    ALIGN_FLOOR a page + page ≤ b ↔ a < b := by
  obtain ⟨k, rfl⟩ := Nat.dvd_of_mod_eq_zero h
  have hfloor : ALIGN_FLOOR a page + page = page * (a / page + 1) := by
    rw [ALIGN_FLOOR]
    ring
  rw [hfloor, Nat.mul_le_mul_left_iff hpage, Nat.succ_le_iff,
    Nat.div_lt_iff_lt_mul hpage, Nat.mul_comm]

/-- What is rounded up is no smaller. -/
theorem le_ALIGN_CEIL (size : ℕ) (hpage : 0 < page) : size ≤ ALIGN_CEIL size page := by
  have hmod := Nat.mod_lt (size + page - 1) hpage
  have hdiv := Nat.div_add_mod' (size + page - 1) page
  rw [ALIGN_CEIL]
  omega

end Arithmetic

section Hands

/-- From one of the arenas a block is handed out that lies behind its cursor. -/
def Hands (arenas arenas' : List MemoryArena) (block : Span) : Prop :=
  ∃ front arena arena' back, arenas = front ++ arena :: back ∧ arenas' = front ++ arena' :: back ∧
    arena'.span = arena.span ∧ arena.cursor_addr ≤ block.start ∧ arena'.cursor_addr = block.stop

variable {arenas arenas' : List MemoryArena} {arena arena' : MemoryArena} {block : Span}
  {size min_valid_addr max_valid_addr unused_mem : ℕ}

/-- A block that some arenas hand out is handed out by more in front. -/
theorem Hands.cons (h : Hands arenas arenas' block) (arena : MemoryArena) :
    Hands (arena :: arenas) (arena :: arenas') block := by
  obtain ⟨front, a, a', back, rfl, rfl, hspan, hstart, hstop⟩ := h
  exact ⟨arena :: front, a, a', back, rfl, rfl, hspan, hstart, hstop⟩

/-- A block that some arenas hand out is handed out behind any others. -/
theorem Hands.append (h : Hands arenas arenas' block) (front : List MemoryArena) :
    Hands (front ++ arenas) (front ++ arenas') block := by
  induction front with
  | nil => exact h
  | cons arena front ih => exact ih.cons arena

/-- An arena with room hands out its next bytes. -/
theorem allocMemBlock_eq (arena : MemoryArena) (size : ℕ)
    (h : arena.cursor_addr + size ≤ arena.addr + arena.size) :
    ∃ arena', arena.allocMemBlock size = some (⟨arena.cursor_addr, size⟩, arena') ∧
      arena'.span = arena.span ∧ arena'.cursor_addr = arena.cursor_addr + size := by
  have hroom : ¬ arena.addr + arena.size - arena.cursor_addr < size := by omega
  rw [MemoryArena.allocMemBlock, dif_neg hroom]
  exact ⟨_, rfl, rfl, rfl⟩

/-- A block is the next bytes of its arena. -/
theorem allocMemBlock_some (h : arena.allocMemBlock size = some (block, arena')) :
    block = ⟨arena.cursor_addr, size⟩ ∧ arena'.span = arena.span ∧
      arena'.cursor_addr = block.stop := by
  unfold MemoryArena.allocMemBlock at h
  split_ifs at h with hroom
  cases h
  exact ⟨rfl, rfl, rfl⟩

/-- A block at an address that is not handed out yet. -/
theorem blockAt_eq (arena : MemoryArena) (size : ℕ) (hcursor : arena.cursor_addr ≤ unused_mem)
    (hend : unused_mem + size ≤ arena.addr + arena.size) :
    ∃ arena', blockAt arena unused_mem size = some (⟨unused_mem, size⟩, arena') ∧
      arena'.span = arena.span ∧ arena'.cursor_addr = unused_mem + size := by
  obtain ⟨skipped, hskip, hspan, hplace⟩ :=
    allocMemBlock_eq arena (unused_mem - arena.cursor_addr) (by omega)
  have hat : skipped.cursor_addr = unused_mem := by omega
  have haddr : skipped.addr = arena.addr := congrArg Span.start hspan
  have hsize : skipped.size = arena.size := congrArg Span.size hspan
  obtain ⟨arena', hblock, hspan', hcursor'⟩ := allocMemBlock_eq skipped size (by omega)
  rw [blockAt, hskip]
  rw [hat] at hblock hcursor'
  exact ⟨arena', hblock, hspan'.trans hspan, hcursor'⟩

/-- The first arena with room hands out a block of the size that is asked for. -/
theorem firstBlock_hands (h : firstBlock size arenas = some (block, arenas')) :
    Hands arenas arenas' block ∧ block.size = size ∧ ∃ arena ∈ arenas,
      block.start = arena.cursor_addr := by
  induction arenas generalizing arenas' with
  | nil => simp [firstBlock] at h
  | cons arena arenas ih =>
    rw [firstBlock] at h
    cases halloc : arena.allocMemBlock size with
    | some result =>
      obtain ⟨b, arena'⟩ := result
      rw [halloc] at h
      cases h
      obtain ⟨rfl, hspan, hcursor⟩ := allocMemBlock_some halloc
      exact ⟨⟨[], arena, arena', arenas, rfl, rfl, hspan, Nat.le_refl _, hcursor⟩, rfl, arena,
        List.mem_cons_self, rfl⟩
    | none =>
      rw [halloc] at h
      obtain ⟨⟨b, rest⟩, hrest, heq⟩ := Option.map_eq_some_iff.mp h
      cases heq
      obtain ⟨hhands, hsize, a, ha, hstart⟩ := ih hrest
      exact ⟨hhands.cons arena, hsize, a, List.mem_cons_of_mem arena ha, hstart⟩

/-- What is known of an address that is found. -/
theorem firstWithin_spec {unused_mem_start unused_mem_end : ℕ}
    (h : firstWithin unused_mem_start unused_mem_end size min_valid_addr
      max_valid_addr = unused_mem)
    (hfound : unused_mem ≠ 0) :
    unused_mem_start ≤ unused_mem ∧ min_valid_addr ≤ unused_mem ∧
      unused_mem + size ≤ unused_mem_end ∧
      unused_mem + size ≤ max_valid_addr ∧
        (unused_mem = unused_mem_start ∨ unused_mem = min_valid_addr) := by
  unfold firstWithin at h
  simp only at h
  split_ifs at h with hempty hroom <;> omega

/-- The arenas that are there hand out a block within the bounds, at the lower one or where an arena
goes on. -/
theorem allocateNearBlockFromDefaultAllocator_hands
    (h : allocateNearBlockFromDefaultAllocator size min_valid_addr max_valid_addr arenas =
      some (block, arenas')) :
    Hands arenas arenas' block ∧ block.size = size ∧ min_valid_addr ≤ block.start ∧
      block.stop ≤ max_valid_addr ∧
      (block.start = min_valid_addr ∨ ∃ arena ∈ arenas, block.start = arena.cursor_addr) := by
  induction arenas generalizing arenas' with
  | nil => simp [allocateNearBlockFromDefaultAllocator] at h
  | cons arena arenas ih =>
    rw [allocateNearBlockFromDefaultAllocator] at h
    simp only at h
    split_ifs at h with hzero
    · obtain ⟨⟨b, rest⟩, hrest, heq⟩ := Option.map_eq_some_iff.mp h
      cases heq
      obtain ⟨hhands, hsize, hmin, hmax, hstart⟩ := ih hrest
      refine ⟨hhands.cons arena, hsize, hmin, hmax, hstart.imp_right ?_⟩
      rintro ⟨a, ha, hstart⟩
      exact ⟨a, List.mem_cons_of_mem arena ha, hstart⟩
    · unfold allocateFromDefaultArena at h hzero
      split_ifs at h hzero with hrange
      · exact absurd rfl hzero
      obtain ⟨hcursor, hmin, hend, hmax, hstart⟩ := firstWithin_spec rfl hzero
      obtain ⟨arena', hblock, hspan, hcursor'⟩ := blockAt_eq arena size hcursor hend
      rw [hblock] at h
      cases h
      refine ⟨⟨[], arena, arena', arenas, rfl, rfl, hspan, hcursor, hcursor'⟩, rfl, hmin, hmax, ?_⟩
      rcases hstart with hstart | hstart
      · exact .inr ⟨arena, List.mem_cons_self, hstart⟩
      · exact .inl hstart

end Hands

section Gaps

variable {page size min_valid_addr max_valid_addr unused_mem : ℕ} {regions : List Span}
  {region next_region : Span}

/-- The address that is found lies in a gap between two regions. -/
theorem unusedRegion_spec (h : unusedRegion size min_valid_addr max_valid_addr regions = unused_mem)
    (hfound : unused_mem ≠ 0) :
    ∃ front region next_region back, regions = front ++ region :: next_region :: back ∧
      ALIGN_FLOOR region.stop 4 ≤ unused_mem ∧ min_valid_addr ≤ unused_mem ∧
      unused_mem + size ≤ next_region.start ∧ unused_mem + size ≤ max_valid_addr ∧
      (unused_mem = ALIGN_FLOOR region.stop 4 ∨ unused_mem = min_valid_addr) := by
  induction regions with
  | nil => exact absurd h.symm hfound
  | cons region regions ih =>
    cases regions with
    | nil => exact absurd h.symm hfound
    | cons next_region regions =>
      rw [unusedRegion] at h
      split_ifs at h with hzero
      · obtain ⟨front, r, next, back, heq, hspec⟩ := ih h
        exact ⟨region :: front, r, next, back, by rw [heq, List.cons_append], hspec⟩
      · unfold check_has_sufficient_memory_between_region at h
        split_ifs at h with hrange
        · exact absurd h.symm hfound
        · exact ⟨[], region, next_region, regions, rfl, firstWithin_spec h hfound⟩

/-- Where an arena of unused memory ends. -/
theorem unusedArena_stop (page unused_mem size : ℕ) :
    (unusedArena page unused_mem size).stop = ALIGN_FLOOR (unused_mem + size) page + page := by
  have hmono : ALIGN_FLOOR unused_mem page ≤ ALIGN_FLOOR (unused_mem + size) page :=
    Nat.mul_le_mul_right page (Nat.div_le_div_right (Nat.le_add_right _ _))
  change ALIGN_FLOOR unused_mem page +
    (ALIGN_FLOOR (unused_mem + size) page - ALIGN_FLOOR unused_mem page + page) = _
  omega

/-- The memory that is mapped for a block in a gap leaves the region behind the gap alone exactly
when the block does not reach up to it. -/
theorem unusedArena_within_gap (hpage : 0 < page) (hfour : page % 4 = 0)
    (hstop : region.stop % page = 0)
    (hnext : next_region.start % page = 0) (hlow : ALIGN_FLOOR region.stop 4 ≤ unused_mem) :
    region.stop ≤ (unusedArena page unused_mem size).start ∧
      ((unusedArena page unused_mem size).stop ≤ next_region.start ↔
        unused_mem + size < next_region.start) := by
  have hmod : region.stop % 4 = 0 :=
    Nat.mod_eq_zero_of_dvd ((Nat.dvd_of_mod_eq_zero hfour).trans (Nat.dvd_of_mod_eq_zero hstop))
  rw [ALIGN_FLOOR_of_mod hmod] at hlow
  rw [unusedArena_stop, ALIGN_FLOOR_add_le hpage hnext]
  exact ⟨le_ALIGN_FLOOR hstop hlow, Iff.rfl⟩

/-- The block lies in the memory that is mapped for it. -/
theorem within_unusedArena (unused_mem size : ℕ) (hpage : 0 < page) :
    (unusedArena page unused_mem size).start ≤ unused_mem ∧
      unused_mem + size ≤ (unusedArena page unused_mem size).stop := by
  have hlast : unused_mem + size < ALIGN_FLOOR (unused_mem + size) page + page :=
    Nat.lt_div_mul_add hpage
  rw [unusedArena_stop]
  exact ⟨ALIGN_FLOOR_le unused_mem page, Nat.le_of_lt hlast⟩

/-- The regions of the process as the kernel lists them, which hold some spans. -/
structure Listed (page : ℕ) (regions mapped : List Span) : Prop where
  sorted : regions.Pairwise fun r s => r.stop ≤ s.start ∨ r = s
  aligned : ∀ r ∈ regions, r.start % page = 0 ∧ r.stop % page = 0
  covers : ∀ s ∈ mapped, ∀ a, s.Has a → ∃ r ∈ regions, r.Has a

/-- What lies in a gap is apart from whatever is mapped. -/
theorem Listed.apart_gap {mapped front back : List Span} {memory s : Span}
    (h : Listed page (front ++ region :: next_region :: back) mapped) (hmemory : 0 < memory.size)
    (hlow : region.stop ≤ memory.start) (hhigh : memory.stop ≤ next_region.start) (hs : s ∈ mapped)
    (hsize : 0 < s.size) :
    memory.Apart s := by
  apply apart_of_not_has hmemory hsize
  rintro a ⟨hstart, hstop⟩ hhas
  obtain ⟨r, hr, hlo, hhi⟩ := h.covers s hs a hhas
  have hsorted := h.sorted
  rw [List.pairwise_append, List.pairwise_cons, List.pairwise_cons] at hsorted
  obtain ⟨-, ⟨hregion, hnext, -⟩, hfront⟩ := hsorted
  have hafter : a < next_region.start := Nat.lt_of_lt_of_le hstop hhigh
  have hbefore : region.stop ≤ a := Nat.le_trans hlow hstart
  have hbegin : region.start ≤ region.stop := Nat.le_add_right _ _
  have hnextBegin : next_region.start ≤ next_region.stop := Nat.le_add_right _ _
  rw [List.mem_append, List.mem_cons, List.mem_cons] at hr
  rcases hr with hr | rfl | rfl | hr
  · rcases hfront r hr region List.mem_cons_self with hle | rfl <;> omega
  · omega
  · omega
  · rcases hnext r hr with hle | rfl <;> omega

end Gaps

section Sound

/-- The arenas are apart from each other and from the program, and the blocks that were handed out
lie in what is used of them, apart from each other. -/
structure Sound (program : List Span) (arenas : List MemoryArena) (blocks : List Span) : Prop where
  apart : (arenas.map MemoryArena.span).Pairwise Apart
  clear : ∀ s ∈ arenas.map MemoryArena.span, ∀ t ∈ program, s.Apart t
  nonempty : ∀ s ∈ arenas.map MemoryArena.span, 0 < s.size
  fits : ∀ s ∈ arenas.map MemoryArena.span, s.stop < 2 ^ 64
  aligned : ∀ arena ∈ arenas, arena.cursor_addr % 4 = 0
  inside : ∀ block ∈ blocks, ∃ arena ∈ arenas, block.Within arena.used
  blocks_apart : blocks.Pairwise Apart

variable {program blocks : List Span} {arenas arenas' : List MemoryArena}
  {arena arena' : MemoryArena}
  {block memory : Span} {page size : ℕ}

/-- What is used of an arena ends at its cursor. -/
theorem MemoryArena.used_stop (arena : MemoryArena) : arena.used.stop = arena.cursor_addr := by
  have hle := arena.addr_le_cursor
  change arena.addr + (arena.cursor_addr - arena.addr) = _
  omega

/-- What is used of an arena lies in it. -/
theorem MemoryArena.used_within (arena : MemoryArena) : arena.used.Within arena.span := by
  refine ⟨Nat.le_refl _, ?_⟩
  rw [used_stop]
  exact arena.cursor_le_end

/-- Without arenas there are no blocks. -/
theorem Sound.empty (program : List Span) : Sound program [] [] :=
  ⟨.nil, nofun, nofun, nofun, nofun, nofun, .nil⟩

/-- New memory is an arena. -/
theorem Sound.new (h : Sound program arenas blocks) (memory : Span) (hsize : 0 < memory.size)
    (hfits : memory.stop < 2 ^ 64)
    (haligned : memory.start % 4 = 0) (hapart : ∀ s ∈ arenas.map MemoryArena.span, memory.Apart s)
    (hclear : ∀ t ∈ program, memory.Apart t) :
    Sound program (arenas ++ [.new memory.start memory.size]) blocks := by
  have hspans : (arenas ++ [MemoryArena.new memory.start memory.size]).map MemoryArena.span =
      arenas.map MemoryArena.span ++ [memory] := by
    rw [List.map_append]
    rfl
  constructor
  · rw [hspans, List.pairwise_append]
    refine ⟨h.apart, List.pairwise_singleton _ _, fun s hs t ht => ?_⟩
    rw [List.mem_singleton.mp ht]
    exact (hapart s hs).symm
  · rw [hspans, List.forall_mem_append, List.forall_mem_singleton]
    exact ⟨h.clear, hclear⟩
  · rw [hspans, List.forall_mem_append, List.forall_mem_singleton]
    exact ⟨h.nonempty, hsize⟩
  · rw [hspans, List.forall_mem_append, List.forall_mem_singleton]
    exact ⟨h.fits, hfits⟩
  · rw [List.forall_mem_append, List.forall_mem_singleton]
    exact ⟨h.aligned, haligned⟩
  · intro b hb
    obtain ⟨arena, harena, hwithin⟩ := h.inside b hb
    exact ⟨arena, List.mem_append_left _ harena, hwithin⟩
  · exact h.blocks_apart

/-- A block is clear of the program. -/
theorem Sound.block_clear (h : Sound program arenas blocks) (hblock : block ∈ blocks) {t : Span}
    (ht : t ∈ program) :
    block.Apart t := by
  obtain ⟨arena, harena, hwithin⟩ := h.inside block hblock
  exact (h.clear _ (List.mem_map_of_mem harena) t ht).mono (hwithin.trans arena.used_within) .refl

/-- A block ends in the address space. -/
theorem Sound.block_fits (h : Sound program arenas blocks) (hblock : block ∈ blocks) :
    block.stop < 2 ^ 64 := by
  obtain ⟨arena, harena, hwithin⟩ := h.inside block hblock
  exact Nat.lt_of_le_of_lt (hwithin.trans arena.used_within).2
    (h.fits _ (List.mem_map_of_mem harena))

/-- An arena that hands out a block stays where it is. -/
theorem Hands.map_span (h : Hands arenas arenas' block) :
    arenas'.map MemoryArena.span = arenas.map MemoryArena.span := by
  obtain ⟨front, arena, arena', back, rfl, rfl, hspan, -, -⟩ := h
  simp [hspan]

/-- What is used of the arenas stays used. -/
theorem Hands.used (h : Hands arenas arenas' block) {s : Span}
    (hs : ∃ arena ∈ arenas, s.Within arena.used) :
    ∃ arena ∈ arenas', s.Within arena.used := by
  obtain ⟨front, arena, arena', back, rfl, rfl, hspan, hstart, hstop⟩ := h
  obtain ⟨a, ha, hwithin⟩ := hs
  rw [List.mem_append, List.mem_cons] at ha
  rcases ha with ha | rfl | ha
  · exact ⟨a, by simp [ha], hwithin⟩
  · have haddr : arena'.addr = a.addr := congrArg Span.start hspan
    have hblock : block.start ≤ block.stop := Nat.le_add_right _ _
    have hgrow : a.used.Within arena'.used := by
      refine ⟨haddr.le, ?_⟩
      rw [MemoryArena.used_stop, MemoryArena.used_stop]
      omega
    exact ⟨arena', by simp, hwithin.trans hgrow⟩
  · exact ⟨a, by simp [ha], hwithin⟩

/-- The block lies in what is used behind the request, and apart from what was used in front of
it. -/
theorem Hands.fresh (h : Hands arenas arenas' block)
    (hapart : (arenas.map MemoryArena.span).Pairwise Apart) :
    (∃ arena ∈ arenas', block.Within arena.used) ∧ ∀ arena ∈ arenas, block.Apart arena.used := by
  obtain ⟨front, arena, arena', back, rfl, rfl, hspan, hstart, hstop⟩ := h
  have haddr : arena'.addr = arena.addr := congrArg Span.start hspan
  have hlow := arena.addr_le_cursor
  have hused : block.Within arena'.used := by
    refine ⟨?_, ?_⟩
    · change arena'.addr ≤ block.start
      omega
    · rw [MemoryArena.used_stop, hstop]
  have hin : block.Within arena.span := by
    rw [← hspan]
    exact hused.trans arena'.used_within
  refine ⟨⟨arena', by simp, hused⟩, fun a ha => ?_⟩
  rw [List.map_append, List.map_cons, List.pairwise_append, List.pairwise_cons] at hapart
  obtain ⟨-, ⟨hback, -⟩, hfront⟩ := hapart
  rw [List.mem_append, List.mem_cons] at ha
  rcases ha with ha | rfl | ha
  · exact (hfront _ (List.mem_map_of_mem ha) _ List.mem_cons_self).symm.mono hin a.used_within
  · right
    rw [MemoryArena.used_stop]
    exact hstart
  · exact (hback _ (List.mem_map_of_mem ha)).mono hin a.used_within

/-- A block that is handed out joins the others. -/
theorem Sound.hands (h : Sound program arenas blocks) (hhands : Hands arenas arenas' block)
    (haligned : block.stop % 4 = 0) : Sound program arenas' (block :: blocks) := by
  have hspans := hhands.map_span
  obtain ⟨hinside, hapart⟩ := hhands.fresh h.apart
  constructor
  · rw [hspans]
    exact h.apart
  · rw [hspans]
    exact h.clear
  · rw [hspans]
    exact h.nonempty
  · rw [hspans]
    exact h.fits
  · obtain ⟨front, a, a', back, rfl, rfl, -, -, hstop⟩ := hhands
    have hcursors := h.aligned
    rw [List.forall_mem_append, List.forall_mem_cons] at hcursors ⊢
    exact ⟨hcursors.1, by rwa [hstop], hcursors.2.2⟩
  · rw [List.forall_mem_cons]
    exact ⟨hinside, fun b hb => hhands.used (h.inside b hb)⟩
  · rw [List.pairwise_cons]
    refine ⟨fun b hb => ?_, h.blocks_apart⟩
    obtain ⟨a, ha, hwithin⟩ := h.inside b hb
    exact (hapart a ha).mono .refl hwithin

end Sound

section Requests

variable {program blocks : List Span} {arenas arenas' : List MemoryArena} {block : Span}
  {page size mapped pos search_range : ℕ} {regions : List Span} {granted : Bool}

/-- Memory that is asked for where no arena has room is where nothing is. -/
structure ExecAdmitted (page size mapped : ℕ) (program : List Span) (arenas : List MemoryArena) :
    Prop where
  size_pos : 0 < size
  size_mod : size % 4 = 0
  mapped_mod : mapped % 4 = 0
  mapped_fits : mapped + ALIGN_CEIL size page < 2 ^ 64
  fresh : firstBlock size arenas = none →
    ∀ s ∈ arenas.map MemoryArena.span ++ program, Apart ⟨mapped, ALIGN_CEIL size page⟩ s

/-- The regions are those of the process, and none begins where a block at the lower end of the
range would end. -/
structure NearAdmitted (page size pos search_range : ℕ) (regions program : List Span)
    (arenas : List MemoryArena) : Prop where
  size_pos : 0 < size
  size_mod : size % 4 = 0
  size_lt : size < page
  pos_mod : pos % 4 = 0
  range_mod : search_range % 4 = 0
  range_lt : search_range < 2 ^ 63
  in_range : pos + search_range < 2 ^ 64
  listed : Listed page regions (arenas.map MemoryArena.span ++ program)
  regions_lt : ∀ r ∈ regions, r.start < 2 ^ 64
  not_adjacent : ∀ r ∈ regions, r.start + search_range ≠ pos + size

/-- A block for a request anywhere joins the others. -/
theorem allocateExecBlock_sound (hpage : 0 < page) (h : Sound program arenas blocks)
    (hadmitted : ExecAdmitted page size mapped program arenas) :
    ∃ block arenas', allocateExecBlock page size mapped arenas = some (block, arenas') ∧
      block.size = size ∧
      Sound program arenas' (block :: blocks) := by
  have hfour := hadmitted.size_mod
  cases hfirst : firstBlock size arenas with
  | some result =>
    obtain ⟨block, arenas'⟩ := result
    obtain ⟨hhands, hsize, arena, harena, hstart⟩ := firstBlock_hands hfirst
    refine ⟨block, arenas', by rw [allocateExecBlock, hfirst], hsize, h.hands hhands ?_⟩
    have hcursor := h.aligned arena harena
    rw [stop]
    omega
  | none =>
    have hfresh := hadmitted.fresh hfirst
    rw [List.forall_mem_append] at hfresh
    have hceil := le_ALIGN_CEIL size hpage
    obtain ⟨arena', halloc, hspan, hcursor⟩ :=
      allocMemBlock_eq (.new mapped (ALIGN_CEIL size page)) size (Nat.add_le_add_left hceil mapped)
    have hnew := h.new ⟨mapped, ALIGN_CEIL size page⟩ (Nat.lt_of_lt_of_le hadmitted.size_pos hceil)
      hadmitted.mapped_fits hadmitted.mapped_mod hfresh.1 hfresh.2
    have hhands : Hands (arenas ++ [.new mapped (ALIGN_CEIL size page)]) (arenas ++ [arena'])
        ⟨mapped, size⟩ :=
      ⟨arenas, _, arena', [], rfl, rfl, hspan, Nat.le_refl _, hcursor⟩
    have hmapped := hadmitted.mapped_mod
    have hstop : (mapped + size) % 4 = 0 := by omega
    refine ⟨⟨mapped, size⟩, arenas ++ [arena'], ?_, rfl, hnew.hands hhands hstop⟩
    rw [allocateExecBlock, hfirst]
    simp only
    rw [halloc]
    rfl

/-- The lower end of the range. -/
theorem wrap_sub_mod (hpos : pos % 4 = 0) (hrange : search_range % 4 = 0) :
    wrap (pos - search_range) % 4 = 0 := by
  unfold wrap
  omega

/-- A block for a request near a place joins the others and lies within the reach. -/
theorem allocateNearExecMemory_sound (hpage : 0 < page) (hfour : page % 4 = 0)
    (h : Sound program arenas blocks)
    (hprogram : ∀ s ∈ program, 0 < s.size)
    (hadmitted : NearAdmitted page size pos search_range regions program arenas)
    (hblock : allocateNearExecMemory page size pos search_range regions granted arenas =
      some (block, arenas')) :
    block.size = size ∧ Sound program arenas' (block :: blocks) ∧ block.start % 4 = 0 ∧
      pos ≤ block.start + search_range ∧ block.stop ≤ pos + search_range := by
  have hsize := hadmitted.size_mod
  have hmin := wrap_sub_mod hadmitted.pos_mod hadmitted.range_mod
  have hmax : wrap (pos + search_range) = pos + search_range := by
    exact_mod_cast wrap_of_lt hadmitted.in_range
  have hrange := hadmitted.range_lt
  have hlow : wrap (pos - search_range) + search_range = pos ∨
      wrap (pos - search_range) + search_range = pos + 2 ^ 64 := by
    have hin := hadmitted.in_range
    unfold wrap
    omega
  unfold allocateNearExecMemory at hblock
  rw [hmax] at hblock
  simp only at hblock
  split at hblock
  next result hdefault =>
    cases hblock
    obtain ⟨hhands, hsize', hstart, hstop, hplace⟩ :=
      allocateNearBlockFromDefaultAllocator_hands hdefault
    have hmod : block.start % 4 = 0 := by
      rcases hplace with hplace | ⟨arena, harena, hplace⟩
      · rw [hplace, hmin]
      · rw [hplace, h.aligned arena harena]
    refine ⟨hsize', h.hands hhands (by rw [stop]; omega), hmod, by omega, hstop⟩
  next hdefault =>
    unfold allocateNearBlockFromUnusedRegion at hblock
    simp only at hblock
    split_ifs at hblock with hzero hgranted
    obtain ⟨front, region, next_region, back, hregions, hstart, hlower, hend, hupper, hplace⟩ :=
      unusedRegion_spec rfl hzero
    generalize unusedRegion size (wrap (pos - search_range)) (pos + search_range) regions =
      unused_mem at *
    obtain ⟨hin, hin'⟩ := within_unusedArena unused_mem size hpage
    have hlisted := hadmitted.listed
    rw [hregions] at hlisted
    have hregion := hlisted.aligned region (by simp)
    have hnext := hlisted.aligned next_region (by simp)
    have hmod4 : region.stop % 4 = 0 := Nat.mod_eq_zero_of_dvd
      ((Nat.dvd_of_mod_eq_zero hfour).trans (Nat.dvd_of_mod_eq_zero hregion.2))
    have hmod : unused_mem % 4 = 0 := by
      rcases hplace with hplace | hplace
      · rw [hplace, ALIGN_FLOOR_of_mod hmod4, hmod4]
      · rw [hplace, hmin]
    -- the block ends in front of the next region, so that its last page does
    have hstrict : unused_mem + size < next_region.start := by
      apply Nat.lt_of_le_of_ne hend
      intro heq
      have hmem : next_region ∈ regions := by simp [hregions]
      have hadjacent := hadmitted.not_adjacent next_region hmem
      rcases hplace with hplace | hplace
      · -- both ends of the gap are ends of pages, and the block is less than one
        rw [ALIGN_FLOOR_of_mod hmod4] at hplace
        have hpages : size % page = 0 := by
          have hsum : (unused_mem + size) % page = 0 := by rw [heq, hnext.1]
          rw [hplace, Nat.add_mod, hregion.2, Nat.zero_add, Nat.mod_mod] at hsum
          exact hsum
        rw [Nat.mod_eq_of_lt hadmitted.size_lt] at hpages
        exact absurd hpages hadmitted.size_pos.ne'
      · have hpositive := hadmitted.size_pos
        omega
    obtain ⟨hbegin, hstop⟩ := unusedArena_within_gap hpage hfour hregion.2 hnext.1 hstart
    have hmemory : 0 < (unusedArena page unused_mem size).size := Nat.add_pos_right _ hpage
    have hapart : ∀ s ∈ arenas.map MemoryArena.span ++ program, 0 < s.size →
        (unusedArena page unused_mem size).Apart s := fun s hs hsize =>
      hlisted.apart_gap hmemory hbegin (hstop.mpr hstrict) hs hsize
    rw [List.forall_mem_append] at hapart
    have haligned : (unusedArena page unused_mem size).start % 4 = 0 :=
      Nat.mod_eq_zero_of_dvd ((Nat.dvd_of_mod_eq_zero hfour).trans (Nat.dvd_mul_left _ _))
    have hfits : (unusedArena page unused_mem size).stop < 2 ^ 64 :=
      Nat.lt_of_le_of_lt (hstop.mpr hstrict) (hadmitted.regions_lt next_region (by simp [hregions]))
    have hnew := h.new (unusedArena page unused_mem size) hmemory hfits haligned
      (fun s hs => hapart.1 s hs (h.nonempty s hs))
      (fun t ht => hapart.2 t ht (hprogram t ht))
    obtain ⟨arena', halloc, hspan, hcursor⟩ :=
      blockAt_eq (.new (unusedArena page unused_mem size).start
        (unusedArena page unused_mem size).size) size hin hin'
    rw [halloc] at hblock
    cases hblock
    have hhands : Hands (arenas ++ [.new _ _]) (arenas ++ [arena']) ⟨unused_mem, size⟩ :=
      ⟨arenas, _, arena', [], rfl, rfl, hspan, hin, hcursor⟩
    have hstop4 : (unused_mem + size) % 4 = 0 := by omega
    have hreach : pos ≤ unused_mem + search_range := by omega
    exact ⟨rfl, hnew.hands hhands hstop4, hmod, hreach, hupper⟩

/-- A request for executable memory, with what the kernel answers. -/
inductive Request where
  | exec (size mapped : ℕ)
  | near (size pos search_range : ℕ) (regions : List Span) (granted : Bool)

/-- The block for a request, with the arenas behind it. -/
def Request.serve (page : ℕ) (arenas : List MemoryArena) :
    Request → Option (Span × List MemoryArena)
  | .exec size mapped => allocateExecBlock page size mapped arenas
  | .near size pos search_range regions granted =>
    allocateNearExecMemory page size pos search_range regions granted arenas

/-- The conditions under which a request is served soundly. -/
def Request.Admitted (page : ℕ) (program : List Span) (arenas : List MemoryArena) : Request → Prop
  | .exec size mapped => ExecAdmitted page size mapped program arenas
  | .near size pos search_range regions _ =>
    NearAdmitted page size pos search_range regions program arenas

/-- Whether a block is where the request asks for it. -/
def Request.InReach : Request → Span → Prop
  | .exec size _, block => block.size = size
  | .near size pos search_range _ _, block =>
    block.size = size ∧ pos ≤ block.start + search_range ∧ block.stop ≤ pos + search_range

/-- The blocks of a run of requests, the last one first, with the arenas behind it. -/
def serveAll (page : ℕ) : List MemoryArena → List Request → List (Request × Span) × List MemoryArena
  | arenas, [] => ([], arenas)
  | arenas, request :: requests =>
    match request.serve page arenas with
    | none => serveAll page arenas requests
    | some (block, arenas) =>
      let (served, arenas) := serveAll page arenas requests
      (served ++ [(request, block)], arenas)

/-- Each request of a run is admitted where it is made. -/
def AllAdmitted (page : ℕ) (program : List Span) : List MemoryArena → List Request → Prop
  | _, [] => True
  | arenas, request :: requests => request.Admitted page program arenas ∧
    match request.serve page arenas with
    | none => AllAdmitted page program arenas requests
    | some (_, arenas) => AllAdmitted page program arenas requests

/-- A request that is admitted gives a block that joins the others, where the request asks for it.
-/
theorem Request.serve_sound {request : Request} (hpage : 0 < page) (hfour : page % 4 = 0)
    (hprogram : ∀ s ∈ program, 0 < s.size) (h : Sound program arenas blocks)
    (hadmitted : request.Admitted page program arenas)
    (hserve : request.serve page arenas = some (block, arenas')) :
    Sound program arenas' (block :: blocks) ∧ request.InReach block := by
  cases request with
  | exec size mapped =>
    obtain ⟨b, as, halloc, hsize, hsound⟩ := allocateExecBlock_sound hpage h hadmitted
    rw [Request.serve, halloc] at hserve
    cases hserve
    exact ⟨hsound, hsize⟩
  | near size pos search_range regions granted =>
    obtain ⟨hsize, hsound, -, hlow, hhigh⟩ :=
      allocateNearExecMemory_sound hpage hfour h hprogram hadmitted hserve
    exact ⟨hsound, hsize, hlow, hhigh⟩

/-- Over any run of requests the blocks are clear of each other and of the program, and within
reach. -/
theorem serveAll_sound {requests : List Request} (hpage : 0 < page) (hfour : page % 4 = 0)
    (hprogram : ∀ s ∈ program, 0 < s.size) (h : Sound program arenas blocks)
    (hadmitted : AllAdmitted page program arenas requests) :
    Sound program (serveAll page arenas requests).2
      ((serveAll page arenas requests).1.map Prod.snd ++ blocks) ∧
      ∀ served ∈ (serveAll page arenas requests).1, served.1.InReach served.2 := by
  induction requests generalizing arenas blocks with
  | nil => exact ⟨h, nofun⟩
  | cons request requests ih =>
    obtain ⟨hrequest, hrest⟩ := hadmitted
    cases hserve : request.serve page arenas with
    | none =>
      rw [hserve] at hrest
      rw [serveAll, hserve]
      exact ih h hrest
    | some result =>
      obtain ⟨block, arenas'⟩ := result
      rw [hserve] at hrest
      obtain ⟨hsound, hreach⟩ := Request.serve_sound hpage hfour hprogram h hrequest hserve
      obtain ⟨hall, hin⟩ := ih hsound hrest
      rw [serveAll, hserve]
      simp only [List.map_append, List.map_cons, List.map_nil, List.append_assoc,
        List.singleton_append, List.forall_mem_append, List.forall_mem_singleton]
      exact ⟨hall, hin, hreach⟩

/-- In any run from the start the blocks lie in the arenas, clear of each other and of the program,
and each is within the reach that its request names. -/
theorem blocks_stay_apart {requests : List Request} (hpage : 0 < page) (hfour : page % 4 = 0)
    (hprogram : ∀ s ∈ program, 0 < s.size) (hadmitted : AllAdmitted page program [] requests) :
    ((serveAll page [] requests).1.map Prod.snd).Pairwise Apart ∧
      ∀ served ∈ (serveAll page [] requests).1, served.1.InReach served.2 ∧
        (∃ arena ∈ (serveAll page [] requests).2, served.2.Within arena.span) ∧
        ∀ t ∈ program, served.2.Apart t := by
  obtain ⟨hsound, hreach⟩ := serveAll_sound hpage hfour hprogram (.empty program) hadmitted
  rw [List.append_nil] at hsound
  refine ⟨hsound.blocks_apart, fun served hserved => ?_⟩
  have hblock := List.mem_map_of_mem (f := Prod.snd) hserved
  obtain ⟨arena, harena, hwithin⟩ := hsound.inside served.2 hblock
  exact ⟨hreach served hserved, ⟨arena, harena, hwithin.trans arena.used_within⟩,
    fun t ht => hsound.block_clear hblock ht⟩

/-- A block for relocated code, and one near a function that is taken from the same arena. -/
theorem blocks_stay_apart_near :
    ((serveAll 4096 [] [.exec 20 0x3fff0000, .near 12 0x40000000 0x8000000
      [⟨0x3fff0000, 4096⟩, ⟨0x40000000, 4096⟩] true]).1.map Prod.snd).Pairwise Apart := by
  have hnear : NearAdmitted 4096 12 0x40000000 0x8000000 [⟨0x3fff0000, 4096⟩, ⟨0x40000000, 4096⟩]
      [⟨0x40000000, 64⟩] [⟨0x3fff0000, 4096, 0x3fff0014, by decide, by decide⟩] := by
    refine ⟨by decide, by decide, by decide, by decide, by decide, by decide, by decide,
      ⟨?_, by decide, ?_⟩, by decide, by decide⟩
    · simp [stop]
    · rintro s hs a ⟨hlow, hhigh⟩
      rcases List.mem_cons.mp hs with rfl | hs
      · exact ⟨⟨0x3fff0000, 4096⟩, by simp, hlow, hhigh⟩
      · rw [List.mem_singleton.mp hs] at hlow hhigh
        exact ⟨⟨0x40000000, 4096⟩, by simp, hlow, Nat.lt_of_lt_of_le hhigh (by decide)⟩
  have hexec : ExecAdmitted 4096 20 0x3fff0000 [⟨0x40000000, 64⟩] [] := by
    refine ⟨by decide, by decide, by decide, by decide, fun _ => ?_⟩
    simp [Apart, stop, ALIGN_CEIL]
  have hadmitted : AllAdmitted 4096 [⟨0x40000000, 64⟩] []
      [.exec 20 0x3fff0000, .near 12 0x40000000 0x8000000
      [⟨0x3fff0000, 4096⟩, ⟨0x40000000, 4096⟩] true] := ⟨hexec, hnear, trivial⟩
  exact (blocks_stay_apart (by decide) (by decide) (by decide) hadmitted).1

end Requests

end XposedJniTrace.Dobby
