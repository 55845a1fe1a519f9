import XposedJniTrace.Dobby.Encoding

/-!
# Relocation of instructions

`InstructionRelocationARM64.cc`: the instructions that a trampoline overwrites are emitted anew,
those that depend on their address as code that does not. `none` is the end of the process in
`UNIMPLEMENTED`.
-/

namespace XposedJniTrace.Dobby

open Arm64 LiteralPool WordFields

section Decoders

/-- `SignExtend` to 64 bits. -/
def SignExtend (x M : ℕ) : ℤ :=
  let sign_bit := bit x (M - 1)
  let sign_mask := (2 ^ 64 - sign_bit) % 2 ^ 64
  signed 64 (x ||| sign_mask >>> M <<< M)

/-- The offset of a test-and-branch. -/
def decode_imm14_offset (instr : ℕ) : ℤ := SignExtend (bits instr 5 18 <<< 2) (2 + 14)

/-- The offset of a literal and of a conditional branch. -/
def decode_imm19_offset (instr : ℕ) : ℤ := SignExtend (bits instr 5 23 <<< 2) (2 + 19)

/-- The offset of a branch. -/
def decode_imm26_offset (instr : ℕ) : ℤ := SignExtend (bits instr 0 25 <<< 2) (2 + 26)

/-- The bit fields are `immhi : 19` from bit 5 on and `immlo : 2` from bit 29 on. -/
def decode_immhi_immlo_offset (instr : ℕ) : ℤ :=
  SignExtend (field instr 29 2 + field instr 5 19 <<< 2) (2 + 19)

/-- The offset of `adrp` -/
def decode_immhi_immlo_zero12_offset (instr : ℕ) : ℤ := decode_immhi_immlo_offset instr * 2 ^ 12

/-- The register of a load or a compare. -/
def decode_rt (instr : ℕ) : ℕ := bits instr 0 4

/-- The register of an address. -/
def decode_rd (instr : ℕ) : ℕ := bits instr 0 4

/-- The page of an address. -/
def arm64_trunc_page (x : ℕ) : ℕ := x &&& (2 ^ 64 - 0x1000)

/-- A branch or a call. -/
def inst_is_b_bl (instr : ℕ) : Bool := instr &&& 0x7C000000 == 0x14000000

/-- A load of a literal. -/
def inst_is_ldr_literal (instr : ℕ) : Bool := instr &&& 0x3B000000 == 0x18000000

/-- An address of a byte. -/
def inst_is_adr (instr : ℕ) : Bool :=
  instr &&& 0x1F000000 == 0x10000000 && instr &&& 0x9F000000 == 0x10000000

/-- An address of a page. -/
def inst_is_adrp (instr : ℕ) : Bool :=
  instr &&& 0x1F000000 == 0x10000000 && instr &&& 0x9F000000 == 0x90000000

/-- A conditional branch. -/
def inst_is_b_cond (instr : ℕ) : Bool := instr &&& 0xFE000000 == 0x54000000

/-- A compare-and-branch. -/
def inst_is_compare_b (instr : ℕ) : Bool := instr &&& 0x7E000000 == 0x34000000

/-- A test-and-branch. -/
def inst_is_test_b (instr : ℕ) : Bool := instr &&& 0x7E000000 == 0x36000000

end Decoders

/-- A branch over the two words behind it, and these: the load of a label and the branch to it. -/
def branchOver (asm : TurboAssembler) (branch_instr dst_vmaddr : ℕ) : TurboAssembler :=
  let label := asm.data_labels.length
  let asm := asm.AppendRelocLabel (.withData dst_vmaddr)
  let asm := asm.Emit branch_instr
  let asm := asm.Ldr TMP_REG_0 label
  asm.Emit (br TMP_REG_0)

/-- The branch of `b_cond`: the condition with its last bit flipped, three instructions ahead. -/
def cond_branch_instr (inst : ℕ) : ℕ := set_bits (set_bits inst 0 3 (bits inst 0 3 ^^^ 1)) 5 23 3

/-- The branch of `compare_b`. -/
def compare_branch_instr (inst : ℕ) : ℕ := set_bits (set_bit inst 24 (bit inst 24 ^^^ 1)) 5 23 3

/-- The branch of `test_b`. -/
def test_branch_instr (inst : ℕ) : ℕ := set_bits (set_bit inst 24 (bit inst 24 ^^^ 1)) 5 18 3

/-- The body of the loop of `relo_relocate`, for the instruction at `pc`. -/
def relo_inst (asm : TurboAssembler) (pc inst : ℕ) : Option TurboAssembler :=
  if inst_is_b_bl inst then
    let dst_vmaddr := wrap (pc + decode_imm26_offset inst)
    let asm := asm.LdrData TMP_REG_0 dst_vmaddr
    if inst &&& 0xFC000000 = 0x94000000 then some (asm.Emit (blr TMP_REG_0))
    else some (asm.Emit (br TMP_REG_0))
  else if inst_is_ldr_literal inst then
    let dst_vmaddr := wrap (pc + decode_imm19_offset inst)
    let asm := asm.EmitAll (Mov TMP_REG_0 dst_vmaddr)
    -- of both widths the same word
    if bits inst 30 31 = 0 then some (asm.Emit (ldr (decode_rt inst) TMP_REG_0 0))
    else if bits inst 30 31 = 1 then some (asm.Emit (ldr (decode_rt inst) TMP_REG_0 0))
    else none
  else if inst_is_adr inst then
    some (asm.EmitAll (Mov (decode_rd inst) (wrap (pc + decode_immhi_immlo_offset inst))))
  else if inst_is_adrp inst then
    some (asm.EmitAll (Mov (decode_rd inst)
      (arm64_trunc_page (wrap (pc + decode_immhi_immlo_zero12_offset inst)))))
  else if inst_is_b_cond inst then
    some (branchOver asm (cond_branch_instr inst) (wrap (pc + decode_imm19_offset inst)))
  else if inst_is_compare_b inst then
    some (branchOver asm (compare_branch_instr inst) (wrap (pc + decode_imm19_offset inst)))
  else if inst_is_test_b inst then
    some (branchOver asm (test_branch_instr inst) (wrap (pc + decode_imm14_offset inst)))
  else some (asm.Emit inst)

/-- The loop of `relo_relocate` over the instructions from `pc` on. -/
def relo_loop (asm : TurboAssembler) (pc : ℕ) : List ℕ → Option TurboAssembler
  | [] => some asm
  | inst :: insns => (relo_inst asm pc inst).bind fun asm => relo_loop asm (pc + 4) insns

/-- `relo_relocate`: the words of the relocated code. -/
def relo_relocate (src_vmaddr : ℕ) (insns : List ℕ) (branch : Bool) : Option (List ℕ) :=
  (relo_loop .empty src_vmaddr insns).map fun asm =>
    let asm := if branch then LiteralLdrBranch asm (wrap (src_vmaddr + 4 * insns.length : ℕ))
      else asm
    asm.RelocBind

/-- `GenRelocateCodeAndBranch` -/
def GenRelocateCodeAndBranch (src_vmaddr : ℕ) (insns : List ℕ) : Option (List ℕ) :=
  relo_relocate src_vmaddr insns true

section Slots

/-- The slots that an instruction is emitted as. -/
def chunk (pc inst : ℕ) : List Slot :=
  if inst_is_b_bl inst then
    [.load TMP_REG_0 (wrap (pc + decode_imm26_offset inst)),
      .word (if inst &&& 0xFC000000 = 0x94000000 then blr TMP_REG_0 else br TMP_REG_0)]
  else if inst_is_ldr_literal inst then
    (Mov TMP_REG_0 (wrap (pc + decode_imm19_offset inst)) ++
      [ldr (decode_rt inst) TMP_REG_0 0]).map .word
  else if inst_is_adr inst then
    (Mov (decode_rd inst) (wrap (pc + decode_immhi_immlo_offset inst))).map .word
  else if inst_is_adrp inst then
    (Mov (decode_rd inst)
      (arm64_trunc_page (wrap (pc + decode_immhi_immlo_zero12_offset inst)))).map .word
  else if inst_is_b_cond inst then
    [.word (cond_branch_instr inst), .load TMP_REG_0 (wrap (pc + decode_imm19_offset inst)),
      .word (br TMP_REG_0)]
  else if inst_is_compare_b inst then
    [.word (compare_branch_instr inst), .load TMP_REG_0 (wrap (pc + decode_imm19_offset inst)),
      .word (br TMP_REG_0)]
  else if inst_is_test_b inst then
    [.word (test_branch_instr inst), .load TMP_REG_0 (wrap (pc + decode_imm14_offset inst)),
      .word (br TMP_REG_0)]
  else [.word inst]

/-- The slots of some instructions from `pc` on. -/
def chunks : ℕ → List ℕ → List Slot
  | _, [] => []
  | pc, inst :: insns => chunk pc inst ++ chunks (pc + 4) insns

/-- A literal that `relo_inst` has no code for. -/
def Unimplemented (inst : ℕ) : Prop :=
  inst_is_b_bl inst = false ∧ inst_is_ldr_literal inst = true ∧ 2 ≤ bits inst 30 31

variable {asm asm' : TurboAssembler} {slots : List Slot} {pc inst : ℕ}

/-- A branch over a branch is three slots more. -/
theorem Emitted.branchOver (h : Emitted asm slots) (branch_instr dst_vmaddr : ℕ) :
    Emitted (branchOver asm branch_instr dst_vmaddr)
      (slots ++ [.word branch_instr, .load TMP_REG_0 dst_vmaddr, .word (br TMP_REG_0)]) := by
  have heq : Dobby.branchOver asm branch_instr dst_vmaddr =
      ((asm.Emit branch_instr).LdrData TMP_REG_0 dst_vmaddr).Emit (br TMP_REG_0) := rfl
  have hemitted := ((h.emit branch_instr).ldrData TMP_REG_0 dst_vmaddr).emit (br TMP_REG_0)
  rw [heq]
  simpa using hemitted

/-- An instruction is emitted as its slots, or is not implemented. -/
theorem emitted_relo_inst (h : Emitted asm slots) (pc : ℕ) (hinst : ¬ Unimplemented inst) :
    ∃ asm', relo_inst asm pc inst = some asm' ∧ Emitted asm' (slots ++ chunk pc inst) := by
  unfold relo_inst chunk
  split_ifs with hb hbl hliteral hword hdouble
  · exact ⟨_, rfl, by simpa using (h.ldrData _ _).emit _⟩
  · exact ⟨_, rfl, by simpa using (h.ldrData _ _).emit _⟩
  · exact ⟨_, rfl, by simpa using (h.emitAll _).emit _⟩
  · exact ⟨_, rfl, by simpa using (h.emitAll _).emit _⟩
  · exact absurd ⟨by simpa using hb, hliteral, by omega⟩ hinst
  · exact ⟨_, rfl, h.emitAll _⟩
  · exact ⟨_, rfl, h.emitAll _⟩
  · exact ⟨_, rfl, h.branchOver _ _⟩
  · exact ⟨_, rfl, h.branchOver _ _⟩
  · exact ⟨_, rfl, h.branchOver _ _⟩
  · exact ⟨_, rfl, h.emit _⟩

/-- An instruction that is not implemented ends the relocation. -/
theorem relo_inst_unimplemented (hinst : Unimplemented inst) : relo_inst asm pc inst = none := by
  obtain ⟨hb, hliteral, hopc⟩ := hinst
  have hword : bits inst 30 31 ≠ 0 := by omega
  have hdouble : bits inst 30 31 ≠ 1 := by omega
  rw [relo_inst, if_neg (by simp [hb]), if_pos hliteral, if_neg hword, if_neg hdouble]

/-- The loop emits the slots of its instructions. -/
theorem emitted_relo_loop (h : Emitted asm slots) (pc : ℕ) {insns : List ℕ}
    (hinsns : ∀ inst ∈ insns, ¬ Unimplemented inst) :
    ∃ asm', relo_loop asm pc insns = some asm' ∧ Emitted asm' (slots ++ chunks pc insns) := by
  induction insns generalizing asm slots pc with
  | nil => exact ⟨asm, rfl, by simpa [chunks] using h⟩
  | cons inst insns ih =>
    obtain ⟨asm', hasm', hemitted⟩ := emitted_relo_inst h pc (hinsns inst List.mem_cons_self)
    obtain ⟨asm'', hasm'', hemitted'⟩ :=
      ih hemitted (pc + 4) (fun i hi => hinsns i (List.mem_cons_of_mem inst hi))
    refine ⟨asm'', ?_, by simpa [chunks] using hemitted'⟩
    rw [relo_loop, hasm', Option.bind_some, hasm'']

/-- The slots of relocated code with its branch to the end of the origin. -/
def relocatedSlots (src : ℕ) (insns : List ℕ) : List Slot :=
  chunks src insns ++ [.load TMP_REG_0 (wrap (src + 4 * insns.length : ℕ)), .word (br TMP_REG_0)]

/-- An instruction has at most five slots. -/
theorem length_chunk_le (pc inst : ℕ) : (chunk pc inst).length ≤ 5 := by
  unfold chunk
  split_ifs <;> simp [Mov]

/-- Some instructions have at most five slots each. -/
theorem length_chunks_le (pc : ℕ) (insns : List ℕ) :
    (chunks pc insns).length ≤ 5 * insns.length := by
  induction insns generalizing pc with
  | nil => exact Nat.le_refl 0
  | cons inst insns ih =>
    have hchunk := length_chunk_le pc inst
    have hrest := ih (pc + 4)
    simp only [chunks, List.length_append, List.length_cons]
    omega

end Slots

end XposedJniTrace.Dobby
