import XposedJniTrace.Dobby.RelocationSound

/-!
# Runs of relocated code

The relocated code of overwritten instructions does what they do, from any of them on and up to
where they are left, and leads behind them where they are not left. That is so up to `TMP_REG_0`,
which no instruction may read behind a literal, and but for the return address of a call, which is
the place of the next instruction in the relocated code.
-/

namespace XposedJniTrace.Dobby

open Arm64 ByteMemory LiteralPool WordFields

/-- The place in the relocated code of an instruction at `pc`. -/
def relocatedAddress (src dst : ℕ) (insns : List ℕ) (pc : ℕ) : ℕ :=
  dst + 4 * (chunks src (insns.take ((pc - src) / 4))).length

section Slots

variable {src dst pc inst : ℕ} {insns : List ℕ}

/-- The slots of two runs of instructions. -/
theorem chunks_append (pc : ℕ) (front back : List ℕ) :
    chunks pc (front ++ back) = chunks pc front ++ chunks (pc + 4 * front.length) back := by
  induction front generalizing pc with
  | nil => rfl
  | cons inst front ih =>
    have hplace : pc + 4 + 4 * front.length = pc + 4 * (inst :: front).length := by
      rw [List.length_cons]
      ring
    rw [List.cons_append, chunks, ih, hplace, chunks, List.append_assoc]

/-- The place of an instruction is behind the slots of those in front of it. -/
theorem relocatedAddress_append (src dst : ℕ) (front back : List ℕ) :
    relocatedAddress src dst (front ++ back) (src + 4 * front.length) =
      dst + 4 * (chunks src front).length := by
  have hindex : (src + 4 * front.length - src) / 4 = front.length := by omega
  rw [relocatedAddress, hindex, List.take_left]

/-- The moves of an address are words. -/
theorem encodable_Mov {rd imm : ℕ} (hrd : rd < 32) (himm : imm < 2 ^ 64) :
    ∀ w ∈ Mov rd imm, w < 2 ^ 32 := by
  have hwide : ∀ op shift quarter, op = 0x40000000 ∨ op = 0x60000000 → shift < 64 →
      quarter < 2 ^ 16 →
      MoveWide op rd quarter shift < 2 ^ 32 := by
    intro op shift quarter hop hshift hquarter
    rw [MoveWide_eq hop hrd hquarter hshift]
    omega
  rw [Mov_eq]
  simp only [List.forall_mem_cons]
  refine ⟨hwide _ _ _ (.inl rfl) (by decide) (by omega),
    hwide _ _ _ (.inr rfl) (by decide) (by omega), hwide _ _ _ (.inr rfl) (by decide) (by omega),
      hwide _ _ _ (.inr rfl) (by decide) (by omega), ?_⟩
  simp

/-- Words can be encoded. -/
theorem encodable_words {words : List ℕ} (h : ∀ w ∈ words, w < 2 ^ 32) :
    ∀ slot ∈ words.map Slot.word, slot.Encodable := by
  intro slot hslot
  obtain ⟨w, hw, rfl⟩ := List.mem_map.mp hslot
  exact h w hw

/-- The branch over `TMP_REG_0` is a word. -/
theorem br_lt : br TMP_REG_0 < 2 ^ 32 := by decide

/-- The call over `TMP_REG_0` is a word. -/
theorem blr_lt : blr TMP_REG_0 < 2 ^ 32 := by decide

/-- A branch to an address can be encoded. -/
theorem encodable_loadBr {dst_vmaddr : ℕ} (h : dst_vmaddr < 2 ^ 64) :
    ∀ slot ∈ [Slot.load TMP_REG_0 dst_vmaddr, .word (br TMP_REG_0)], slot.Encodable := by
  simp only [List.forall_mem_cons]
  exact ⟨⟨by decide, h⟩, br_lt, nofun⟩

/-- A branch over a branch can be encoded. -/
theorem encodable_branchOver {branch_instr dst_vmaddr : ℕ} (hbranch : branch_instr < 2 ^ 32)
    (h : dst_vmaddr < 2 ^ 64) :
    ∀ slot ∈ [Slot.word branch_instr, .load TMP_REG_0 dst_vmaddr, .word (br TMP_REG_0)],
      slot.Encodable := by
  rw [List.forall_mem_cons]
  exact ⟨hbranch, encodable_loadBr h⟩

/-- The branches that are turned round are words. -/
theorem branch_instr_lt (hinst : inst < 2 ^ 32) :
    cond_branch_instr inst < 2 ^ 32 ∧ compare_branch_instr inst < 2 ^ 32 ∧
      test_branch_instr inst < 2 ^ 32 := by
  have hcond : bits inst 0 3 ^^^ 1 < 2 ^ 4 := by
    rw [bits_eq]
    exact xor_one_lt (by decide) (field_lt inst 0 4)
  have hflip : bit inst 24 ^^^ 1 < 2 ^ 1 := by
    rw [bit_eq]
    exact xor_one_lt (by decide) (field_lt inst 24 1)
  have hflipped := replace_lt hinst hflip (by decide : 24 + 1 ≤ 32)
  refine ⟨?_, replace_lt hflipped (by decide) (by decide),
    replace_lt hflipped (by decide) (by decide)⟩
  exact replace_lt (replace_lt hinst hcond (by decide)) (by decide) (by decide)

/-- The slots of an instruction can be encoded. -/
theorem encodable_chunk (pc : ℕ) (hinst : inst < 2 ^ 32) :
    ∀ slot ∈ chunk pc inst, slot.Encodable := by
  have hrt : decode_rt inst < 32 := by
    rw [decode_rt, bits_eq]
    exact field_lt inst 0 5
  have hpage : arm64_trunc_page (wrap (pc + decode_immhi_immlo_zero12_offset inst)) < 2 ^ 64 := by
    rw [decode_immhi_immlo_zero12_offset_eq, arm64_trunc_page_eq]
    exact wrap_lt _
  obtain ⟨hcond, hcompare, htest⟩ := branch_instr_lt hinst
  unfold chunk
  split_ifs
  · simp only [List.forall_mem_cons]
    exact ⟨⟨by decide, wrap_lt _⟩, blr_lt, List.forall_mem_nil _⟩
  · exact encodable_loadBr (wrap_lt _)
  · apply encodable_words
    rw [List.forall_mem_append, List.forall_mem_singleton, ldr_eq hrt (by decide)]
    exact ⟨encodable_Mov (by decide) (wrap_lt _), by unfold TMP_REG_0; omega⟩
  · exact encodable_words (encodable_Mov hrt (wrap_lt _))
  · exact encodable_words (encodable_Mov hrt hpage)
  · exact encodable_branchOver hcond (wrap_lt _)
  · exact encodable_branchOver hcompare (wrap_lt _)
  · exact encodable_branchOver htest (wrap_lt _)
  · rwa [List.forall_mem_singleton]

/-- The slots of all instructions, and of the branch behind them, can be encoded. -/
theorem encodable_relocatedSlots (hwords : ∀ inst ∈ insns, inst < 2 ^ 32) :
    ∀ slot ∈ relocatedSlots src insns, slot.Encodable := by
  have hchunks : ∀ pc, ∀ slot ∈ chunks pc insns, slot.Encodable := by
    induction insns with
    | nil => nofun
    | cons inst insns ih =>
      intro pc
      rw [chunks, List.forall_mem_append]
      exact ⟨encodable_chunk pc (hwords inst List.mem_cons_self),
        ih (fun i hi => hwords i (List.mem_cons_of_mem inst hi)) (pc + 4)⟩
  rw [relocatedSlots, List.forall_mem_append]
  exact ⟨hchunks src, encodable_loadBr (wrap_lt _)⟩

/-- The relocated code is short enough for its labels. -/
theorem length_assemble_relocatedSlots (src : ℕ) (hsize : insns.length ≤ 2 ^ 14) :
    (assemble (relocatedSlots src insns)).length < 2 ^ 18 := by
  have hpool := length_pool_le (relocatedSlots src insns)
  have hchunks := length_chunks_le src insns
  have hslots : (relocatedSlots src insns).length = (chunks src insns).length + 2 := by
    rw [relocatedSlots, List.length_append]
    rfl
  rw [length_assemble]
  omega

/-- What is relocatable is implemented. -/
theorem not_unimplemented (hrelocatable : relocatable (decode inst) = true) :
    ¬ Unimplemented inst := by
  rintro ⟨-, hliteral, hopc⟩
  have hone := (decode_ldr_literal hliteral hrelocatable).2
  omega

/-- The relocated code is the code of the slots. -/
theorem GenRelocateCodeAndBranch_eq (src : ℕ) (hwords : ∀ inst ∈ insns, inst < 2 ^ 32)
    (hsize : insns.length ≤ 2 ^ 14)
    (himplemented : ∀ inst ∈ insns, ¬ Unimplemented inst) :
    GenRelocateCodeAndBranch src insns = some (assemble (relocatedSlots src insns)) := by
  obtain ⟨asm, hasm, hemitted⟩ := emitted_relo_loop .empty src himplemented
  have hbranch : Emitted (LiteralLdrBranch asm (wrap (src + 4 * insns.length : ℕ)))
      (relocatedSlots src insns) := by
    simpa [relocatedSlots, LiteralLdrBranch] using (hemitted.ldrData TMP_REG_0 _).emit
      (br TMP_REG_0)
  have hlength := length_assemble_relocatedSlots src hsize
  rw [GenRelocateCodeAndBranch, relo_relocate, hasm, Option.map_some, if_pos rfl,
    hbranch.relocBind (encodable_relocatedSlots hwords) (by omega)]

end Slots

section Run

variable {σ : Type*} (others : ℕ → Core σ → Core σ × Flow)

/-- Instructions at `src` with their relocated code, which has a place at `dst` that nothing writes
to. -/
structure Relocation (src dst : ℕ) (insns code : List ℕ) : Prop where
  words : ∀ w ∈ insns, w < 2 ^ 32
  relocatable : ∀ w ∈ insns, relocatable (decode w) = true
  size : insns.length ≤ 2 ^ 14
  generated : GenRelocateCodeAndBranch src insns = some code
  fits : dst + 4 * code.length < 2 ^ 64
  keeps : Keeps others dst (4 * code.length)

/-- No instruction behind a literal reads `TMP_REG_0`. -/
def TmpUnread : List ℕ → Prop
  | [] => True
  | inst :: insns =>
    (inst_is_ldr_literal inst = true → ∀ w ∈ insns, Blind others TMP_REG_0 w) ∧ TmpUnread insns

variable {others} {src dst a next value value' : ℕ} {insns code front rest : List ℕ}
  {c c' : Core σ} {flow : Flow}

/-- What holds of some instructions holds of the last of them. -/
theorem TmpUnread.drop (h : TmpUnread others insns) (i : ℕ) : TmpUnread others (insns.drop i) := by
  induction insns generalizing i with
  | nil => simpa using h
  | cons inst insns ih =>
    cases i with
    | zero => exact h
    | succ i => exact ih h.2 i

/-- The relocated code is that of the slots. -/
theorem Relocation.code_eq (h : Relocation others src dst insns code) :
    code = assemble (relocatedSlots src insns) := by
  have heq := GenRelocateCodeAndBranch_eq src h.words h.size
    (fun inst hinst => not_unimplemented (h.relocatable inst hinst))
  exact Option.some_injective _ (h.generated.symm.trans heq)

/-- The slots are where the code is. -/
theorem Relocation.slotsAt (h : Relocation others src dst insns code)
    (hheld : Holds c.mem dst (bytesOf code)) :
    SlotsAt c.mem dst (relocatedSlots src insns) := by
  have hfits := h.fits
  rw [h.code_eq] at hheld hfits
  exact slotsAt_assemble (encodable_relocatedSlots h.words)
    (length_assemble_relocatedSlots src h.size)
    (Nat.le_of_lt hfits) hheld

/-- The slots end in the address space. -/
theorem Relocation.length_slots_le (h : Relocation others src dst insns code) :
    dst + 4 * (relocatedSlots src insns).length < 2 ^ 64 := by
  have hfits := h.fits
  rw [h.code_eq, length_assemble] at hfits
  omega

/-- The code is still there behind an instruction. -/
theorem Relocation.holds_exec (h : Relocation others src dst insns code)
    (hheld : Holds c.mem dst (bytesOf code))
    {pc : ℕ} {i : Instr} (hexec : exec others pc c i = (c', flow)) :
      Holds c'.mem dst (bytesOf code) := by
  have hagree := h.keeps.exec pc c i
  rw [hexec] at hagree
  apply hheld.congr
  rwa [length_bytesOf]

/-- The slots of the instruction at a place, with the place behind them. -/
theorem Relocation.chunkAt {inst pc : ℕ} (h : Relocation others src dst insns code)
    (hsplit : insns = front ++ inst :: rest) (hpc : pc = src + 4 * front.length)
    (hheld : Holds c.mem dst (bytesOf code)) :
    SlotsAt c.mem (relocatedAddress src dst insns pc) (chunk pc inst) ∧
      relocatedAddress src dst insns (pc + 4) =
        relocatedAddress src dst insns pc + 4 * (chunk pc inst).length ∧
      relocatedAddress src dst insns pc + 4 * (chunk pc inst).length < 2 ^ 64 := by
  subst hsplit hpc
  have hslots := h.slotsAt hheld
  have hfits := h.length_slots_le
  have hsplit : front ++ inst :: rest = (front ++ [inst]) ++ rest := by simp
  have hplace : src + 4 * front.length + 4 = src + 4 * (front ++ [inst]).length := by
    rw [List.length_append, List.length_singleton]
    ring
  have hbehind : relocatedAddress src dst (front ++ inst :: rest) (src + 4 * front.length + 4) =
      dst + 4 * (chunks src front).length + 4 * (chunk (src + 4 * front.length) inst).length := by
    rw [hsplit, hplace, relocatedAddress_append, chunks_append, chunks, chunks, List.append_nil,
      List.length_append]
    ring
  rw [relocatedSlots, chunks_append, chunks, List.append_assoc, List.append_assoc, slotsAt_append,
    slotsAt_append] at hslots
  simp only [relocatedSlots, chunks_append, chunks, List.length_append] at hfits
  rw [hbehind, relocatedAddress_append]
  exact ⟨hslots.2.1, rfl, by omega⟩

/-- The branch behind the last instruction. -/
theorem Relocation.reaches_end (h : Relocation others src dst insns code)
    (hheld : Holds c.mem dst (bytesOf code)) :
    ∃ value, Reaches others (relocatedAddress src dst insns (src + 4 * insns.length), c)
      (withTmp value (wrap (src + 4 * insns.length : ℕ), c)) := by
  have hslots := h.slotsAt hheld
  have hfits := h.length_slots_le
  rw [relocatedSlots, slotsAt_append] at hslots
  rw [relocatedSlots, List.length_append, List.length_cons, List.length_singleton] at hfits
  have haddress := relocatedAddress_append src dst insns []
  rw [List.append_nil] at haddress
  rw [haddress]
  exact ⟨_, reaches_load_br hslots.2 (by omega)⟩

/-- Only the last value of `TMP_REG_0` stays. -/
theorem withTmp_withTmp (s : ℕ × Core σ) : withTmp value' (withTmp value s) = withTmp value' s := by
  rw [withTmp, withTmp, Core.set_set]
  rfl

/-- The value of `TMP_REG_0` does not change where the run goes on. -/
theorem withTmp_follow : withTmp value' (follow next (c.set TMP_REG_0 value, flow)) =
    withTmp value' (follow next (c, flow)) := by
  cases flow with
  | next => exact withTmp_withTmp (next, c)
  | jump target => exact withTmp_withTmp (target, c)
  | call target =>
    rw [follow, Core.set_comm (by decide)]
    exact withTmp_withTmp (target, c.set 30 next)

/-- The slots of an instruction do what it does, up to `TMP_REG_0`. -/
theorem Relocation.reaches_inst {inst pc : ℕ} (h : Relocation others src dst insns code)
    (hsplit : insns = front ++ inst :: rest) (hpc : pc = src + 4 * front.length)
    (hheld : Holds c.mem dst (bytesOf code)) :
    ∃ value, Reaches others (relocatedAddress src dst insns pc, c)
      (withTmp value
        (follow (relocatedAddress src dst insns (pc + 4)) (exec others pc c (decode inst)))) := by
  obtain ⟨hslots, hnext, hend⟩ := h.chunkAt hsplit hpc hheld
  have hmem : inst ∈ insns := by simp [hsplit]
  rw [hnext]
  by_cases hliteral : inst_is_ldr_literal inst = true
  · obtain ⟨value, c', hexec, hreach⟩ :=
      reaches_chunk_literal (h.relocatable inst hmem) hliteral hend hslots
    rw [hexec]
    exact ⟨value, hreach⟩
  · obtain ⟨value, hreach, -⟩ :=
      lands_chunk (h.words inst hmem) (h.relocatable inst hmem) hliteral hend hslots
    exact ⟨value, hreach⟩

/-- Instructions that do not read `TMP_REG_0` are run by the relocated code whatever is in it. -/
theorem Relocation.reaches_blind {pc : ℕ} (h : Relocation others src dst insns code)
    (hsplit : insns = front ++ rest) (hpc : pc = src + 4 * front.length)
    (hblind : ∀ w ∈ rest, Blind others TMP_REG_0 w)
    (hheld : Holds c.mem dst (bytesOf code)) (value : ℕ) :
    ∃ value', Reaches others (relocatedAddress src dst insns pc, c.set TMP_REG_0 value)
      (withTmp value' (runStraight others (relocatedAddress src dst insns) pc rest c)) := by
  induction rest generalizing front pc c value with
  | nil =>
    rw [List.append_nil] at hsplit
    subst hsplit hpc
    have hheld' : Holds (c.set TMP_REG_0 value).mem dst (bytesOf code) := by rwa [Core.mem_set]
    obtain ⟨value', hreach⟩ := h.reaches_end hheld'
    refine ⟨value', ?_⟩
    rw [runStraight]
    rwa [withTmp, Core.set_set] at hreach
  | cons inst rest ih =>
    have hheld' : Holds (c.set TMP_REG_0 value).mem dst (bytesOf code) := by rwa [Core.mem_set]
    obtain ⟨value', hreach⟩ := h.reaches_inst hsplit hpc hheld'
    obtain ⟨value'', hexec'⟩ := hblind inst List.mem_cons_self pc c value
    rcases hexec : exec others pc c (decode inst) with ⟨c', flow⟩
    rw [hexec', hexec, withTmp_follow] at hreach
    cases flow with
    | next =>
      have hsplit' : insns = (front ++ [inst]) ++ rest := by simp [hsplit]
      have hpc' : pc + 4 = src + 4 * (front ++ [inst]).length := by
        rw [hpc, List.length_append, List.length_singleton]
        ring
      obtain ⟨value₁, hrest⟩ :=
        ih hsplit' hpc' (fun w hw => hblind w (List.mem_cons_of_mem inst hw))
        (h.holds_exec hheld hexec) value'
      rw [runStraight_next hexec]
      exact ⟨value₁, hreach.trans hrest⟩
    | jump target =>
      rw [runStraight_jump hexec]
      exact ⟨value', hreach⟩
    | call target =>
      rw [runStraight_call hexec]
      exact ⟨value', hreach⟩

/-- The relocated code runs the instructions from any of them on. -/
theorem Relocation.reaches_rest {pc : ℕ} (h : Relocation others src dst insns code)
    (hsplit : insns = front ++ rest) (hpc : pc = src + 4 * front.length)
    (hunread : TmpUnread others rest)
    (hheld : Holds c.mem dst (bytesOf code)) :
    ∃ value, Reaches others (relocatedAddress src dst insns pc, c)
      (withTmp value (runStraight others (relocatedAddress src dst insns) pc rest c)) := by
  induction rest generalizing front pc c with
  | nil =>
    rw [List.append_nil] at hsplit
    subst hsplit hpc
    exact h.reaches_end hheld
  | cons inst rest ih =>
    have hsplit' : insns = (front ++ [inst]) ++ rest := by simp [hsplit]
    have hpc' : pc + 4 = src + 4 * (front ++ [inst]).length := by
      rw [hpc, List.length_append, List.length_singleton]
      ring
    have hmem : inst ∈ insns := by simp [hsplit]
    obtain ⟨hslots, hnext, hend⟩ := h.chunkAt hsplit hpc hheld
    by_cases hliteral : inst_is_ldr_literal inst = true
    · obtain ⟨value, c', hexec, hreach⟩ :=
        reaches_chunk_literal (h.relocatable inst hmem) hliteral hend hslots
      rw [← hnext] at hreach
      obtain ⟨value', hrest⟩ :=
        h.reaches_blind hsplit' hpc' (hunread.1 hliteral) (h.holds_exec hheld hexec) value
      rw [runStraight_next hexec]
      exact ⟨value', hreach.trans hrest⟩
    · obtain ⟨value, hreach, hsame⟩ :=
        lands_chunk (h.words inst hmem) (h.relocatable inst hmem) hliteral hend hslots
      rw [← hnext] at hreach hsame
      rcases hexec : exec others pc c (decode inst) with ⟨c', flow⟩
      rw [hexec] at hreach hsame
      cases flow with
      | next =>
        -- nothing is lost up to here, so that the state is that of the instructions
        rw [hsame rfl] at hreach
        obtain ⟨value', hrest⟩ := ih hsplit' hpc' hunread.2 (h.holds_exec hheld hexec)
        rw [runStraight_next hexec]
        exact ⟨value', hreach.trans hrest⟩
      | jump target =>
        rw [runStraight_jump hexec]
        exact ⟨value, hreach⟩
      | call target =>
        rw [runStraight_call hexec]
        exact ⟨value, hreach⟩

/-- From any of the instructions on, or from behind the last one, the relocated code runs them to
where they are left, and the instructions do so in place where they still are. -/
theorem relocated_runs (h : Relocation others src dst insns code) (hunread : TmpUnread others insns)
    (hheld : Holds c.mem dst (bytesOf code)) {i : ℕ} (hi : i ≤ insns.length)
    (hend : src + 4 * insns.length ≤ 2 ^ 64) :
    (∃ value, Reaches others (relocatedAddress src dst insns (src + 4 * i), c)
      (withTmp value
        (runStraight others (relocatedAddress src dst insns) (src + 4 * i) (insns.drop i) c))) ∧
    (Keeps others src (4 * insns.length) → Holds c.mem src (bytesOf insns) →
      Reaches others (wrap (src + 4 * i : ℕ), c)
        (runStraight others (fun a => wrap a) (src + 4 * i) (insns.drop i) c)) := by
  have hlength : (insns.take i).length = i := List.length_take_of_le hi
  have hsplit := (List.take_append_drop i insns).symm
  have hpc : src + 4 * i = src + 4 * (insns.take i).length := by rw [hlength]
  refine ⟨h.reaches_rest hsplit hpc (hunread.drop i) hheld, fun hkeeps hplace => ?_⟩
  have hrest : Holds c.mem (src + 4 * i) (bytesOf (insns.drop i)) := by
    rw [hsplit, holds_bytesOf_append, hlength] at hplace
    exact hplace.2
  have hcount : (insns.drop i).length = insns.length - i := List.length_drop
  apply reaches_runStraight (fun w hw => h.words w (List.mem_of_mem_drop hw)) _ _ hrest
  · omega
  · intro w c
    exact (hkeeps w c).mono (by omega) (by omega)

/-- `adrp x0, #0`, `ldr x1, #8`, `cbz x0, #8` and `bl #64`, from the second on. -/
theorem relocated_runs_prologue :
    ∃ (code : List ℕ) (c : Core Unit) (value : ℕ),
      GenRelocateCodeAndBranch 0x1000 [0x90000000, 0x58000041, 0xB4000040, 0x94000010] = some code ∧
      Reaches (fun _ c => (c, .next))
        (relocatedAddress 0x1000 0x2000 [0x90000000, 0x58000041, 0xB4000040, 0x94000010] 0x1004, c)
        (withTmp value (runStraight (fun _ c => (c, .next))
          (relocatedAddress 0x1000 0x2000 [0x90000000, 0x58000041, 0xB4000040, 0x94000010]) 0x1004
          [0x58000041, 0xB4000040, 0x94000010] c)) := by
  have hwords : ∀ w ∈ [0x90000000, 0x58000041, 0xB4000040, 0x94000010], w < 2 ^ 32 := by decide
  have hrelocatable : ∀ w ∈ [0x90000000, 0x58000041, 0xB4000040, 0x94000010],
      relocatable (decode w) = true := by
    decide
  have hcode := GenRelocateCodeAndBranch_eq 0x1000 hwords (by decide)
    (fun inst hinst => not_unimplemented (hrelocatable inst hinst))
  have hlength :
      (assemble (relocatedSlots 0x1000 [0x90000000, 0x58000041, 0xB4000040, 0x94000010])).length <
        2 ^ 18 :=
    length_assemble_relocatedSlots 0x1000 (by decide)
  generalize assemble _ = code at hcode hlength
  have hrelocation : Relocation (σ := Unit) (fun _ c => (c, .next)) 0x1000 0x2000
      [0x90000000, 0x58000041, 0xB4000040, 0x94000010] code :=
    ⟨hwords, hrelocatable, by decide, hcode, by omega, fun _ _ => .refl⟩
  have hcb : Blind (σ := Unit) (fun _ c => (c, .next)) TMP_REG_0 0xB4000040 := by
    intro pc c value
    exact ⟨value, rfl⟩
  have hbl : Blind (σ := Unit) (fun _ c => (c, .next)) TMP_REG_0 0x94000010 := by
    intro pc c value
    exact ⟨value, rfl⟩
  have hunread : TmpUnread (σ := Unit) (fun _ c => (c, .next))
      [0x90000000, 0x58000041, 0xB4000040, 0x94000010] := by
    refine ⟨fun h => absurd h (by decide), fun _ => ?_, fun h => absurd h (by decide),
      fun h => absurd h (by decide), trivial⟩
    rw [List.forall_mem_cons, List.forall_mem_singleton]
    exact ⟨hcb, hbl⟩
  obtain ⟨value, hreach⟩ := (relocated_runs hrelocation hunread (c := ⟨fun _ => 1, 0, fun _ => 0,
    ⟨false, false, false, false⟩, write (fun _ => 0) 0x2000 (bytesOf code), ()⟩)
      holds_write (i := 1)
    (by decide) (by decide)).1
  exact ⟨code, _, value, hcode, hreach⟩

end Run

end XposedJniTrace.Dobby
